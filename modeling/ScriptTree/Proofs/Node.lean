import ScriptTree.Object
import Mathlib.Data.List.Forall2

namespace ScriptTree

variable {ι κ : Type}

/-- An object of any kind. A block and the statement that it stands as have the same parts. -/
structure Node (ι : Type) where
  kind : Kind
  object : Object ι kind

def Node.ofOption (k : Kind) (x : Option (Object ι k)) : List (Node ι) :=
  (x.map (Node.mk k)).toList

def ExprShape.parts : ExprShape ι → List (Node ι)
  | .array es | .comma es | .literal _ es => [⟨.exprs, es⟩]
  | .binary _ l r => [⟨.expr, l⟩, ⟨.expr, r⟩]
  | .conditional c t f => [⟨.expr, c⟩, ⟨.expr, t⟩, ⟨.expr, f⟩]
  | .function _ b _ => [⟨.block, b⟩]
  | .call c es | .construct c es => [⟨.expr, c⟩, ⟨.exprs, es⟩]
  | .object ps => [⟨.properties, ps⟩]
  | .member t _ => [⟨.expr, t⟩]
  | .unary _ x => [⟨.expr, x⟩]
  | .constant _ | .identifier _ | .typeReference _ | .this => []

def StmtShape.parts : StmtShape ι → List (Node ι)
  | .doWhile c b | .whileLoop c b => [⟨.expr, c⟩, ⟨.block, b⟩]
  | .expression e | .throw e => [⟨.expr, e⟩]
  | .forIn _ x b _ | .withObject x b => [⟨.expr, x⟩, ⟨.stmt, b⟩]
  | .forLoop i c t b =>
    Node.ofOption .stmt i ++ (Node.ofOption .expr c ++ (Node.ofOption .expr t ++ [⟨.block, b⟩]))
  | .ifElse c t e => ⟨.expr, c⟩ :: ⟨.block, t⟩ :: Node.ofOption .block e
  | .ret v | .yield v => Node.ofOption .expr v
  | .switch d ss => [⟨.expr, d⟩, ⟨.sections, ss⟩]
  | .tryCatch b h c => ⟨.block, b⟩ :: (Node.ofOption .catchClause h ++ Node.ofOption .block c)
  | .vars ds => [⟨.declarations, ds⟩]
  | .labelled _ s => [⟨.stmt, s⟩]
  | .function _ _ b => [⟨.block, b⟩]
  | .breakTo _ | .continueTo _ | .comment _ | .empty | .goto _ => []

namespace Node

/-- The objects directly below an object, in order. -/
def parts : Node ι → List (Node ι)
  | ⟨.expr, e⟩ => e.shape.parts
  | ⟨.stmt, .block b⟩ | ⟨.block, b⟩ => [⟨.stmts, b.statements⟩]
  | ⟨.stmt, .node _ s⟩ => s.parts
  | ⟨.property, p⟩ => [⟨.expr, p.value⟩]
  | ⟨.declaration, d⟩ => ofOption .expr d.init
  | ⟨.caseSection, s⟩ => [⟨.labels, s.labels⟩, ⟨.block, s.body⟩]
  | ⟨.catchClause, c⟩ => [⟨.block, c.body⟩]
  | ⟨.label, .value e⟩ => [⟨.expr, e⟩]
  | ⟨.label, .default⟩ => []
  | ⟨.exprs, l⟩ => l.items.map (Node.mk .expr)
  | ⟨.stmts, l⟩ => l.items.map (Node.mk .stmt)
  | ⟨.properties, l⟩ => l.items.map (Node.mk .property)
  | ⟨.declarations, l⟩ => l.items.map (Node.mk .declaration)
  | ⟨.sections, l⟩ => l.items.map (Node.mk .caseSection)
  | ⟨.labels, l⟩ => l.items.map (Node.mk .label)

noncomputable def size : Node ι → Nat
  | ⟨.expr, x⟩ => sizeOf x
  | ⟨.stmt, x⟩ => sizeOf x
  | ⟨.block, x⟩ => sizeOf x
  | ⟨.property, x⟩ => sizeOf x
  | ⟨.declaration, x⟩ => sizeOf x
  | ⟨.caseSection, x⟩ => sizeOf x
  | ⟨.catchClause, x⟩ => sizeOf x
  | ⟨.label, x⟩ => sizeOf x
  | ⟨.exprs, x⟩ => sizeOf x
  | ⟨.stmts, x⟩ => sizeOf x
  | ⟨.properties, x⟩ => sizeOf x
  | ⟨.declarations, x⟩ => sizeOf x
  | ⟨.sections, x⟩ => sizeOf x
  | ⟨.labels, x⟩ => sizeOf x

theorem mem_ofOption {k : Kind} {x : Option (Object ι k)} {c : Node ι} :
    c ∈ ofOption k x ↔ ∃ y, x = some y ∧ c = ⟨k, y⟩ := by
  cases x <;> simp [ofOption]

theorem size_lt_of_mem_exprParts {c : Node ι} {s : ExprShape ι} (h : c ∈ s.parts) :
    c.size < sizeOf s := by
  cases s <;> simp only [ExprShape.parts, List.mem_cons, List.not_mem_nil, or_false] at h <;>
    rcases h with rfl | rfl | rfl <;> simp [size] <;> omega

theorem size_lt_of_mem_stmtParts {c : Node ι} {s : StmtShape ι} (h : c ∈ s.parts) :
    c.size < sizeOf s := by
  cases s <;> simp only [StmtShape.parts, List.mem_cons, List.mem_append, mem_ofOption,
    List.not_mem_nil, or_false] at h
  case forLoop =>
    rcases h with ⟨y, rfl, rfl⟩ | ⟨y, rfl, rfl⟩ | ⟨y, rfl, rfl⟩ | rfl <;> simp [size] <;> omega
  case ifElse => rcases h with rfl | rfl | ⟨y, rfl, rfl⟩ <;> simp [size] <;> omega
  case tryCatch => rcases h with rfl | ⟨y, rfl, rfl⟩ | ⟨y, rfl, rfl⟩ <;> simp [size] <;> omega
  case ret | yield =>
    obtain ⟨y, rfl, rfl⟩ := h
    simp [size]
    omega
  all_goals rcases h with rfl | rfl <;> simp [size] <;> omega

theorem size_lt_of_mem_parts {c n : Node ι} (h : c ∈ n.parts) : c.size < n.size := by
  obtain ⟨k, x⟩ := n
  cases k
  case expr =>
    cases x
    exact Nat.lt_of_lt_of_le (size_lt_of_mem_exprParts h) (by simp [size])
  case stmt =>
    cases x with
    | block b =>
      cases b
      obtain rfl := List.mem_singleton.1 h
      simp [size]
      omega
    | node o s => exact Nat.lt_of_lt_of_le (size_lt_of_mem_stmtParts h) (by simp [size])
  case declaration =>
    cases x
    obtain ⟨y, rfl, rfl⟩ := mem_ofOption.1 h
    simp [size]
    omega
  case block | property | caseSection | catchClause | label =>
    cases x <;> simp only [parts, List.mem_cons, List.not_mem_nil, or_false] at h
    all_goals rcases h with rfl | rfl <;> simp [size] <;> omega
  -- the lists
  all_goals
    cases x
    simp only [parts, List.mem_map] at h
    obtain ⟨y, hy, rfl⟩ := h
    have := List.sizeOf_lt_of_mem hy
    simp only [size, NodeList.mk.sizeOf_spec]
    omega

/-- What passes from the parts to the whole holds of every object. -/
theorem induction {P : Node ι → Prop} (step : ∀ n : Node ι, (∀ c ∈ n.parts, P c) → P n)
    (n : Node ι) : P n :=
  step n fun c _ => induction step c
termination_by n.size
decreasing_by exact size_lt_of_mem_parts ‹_›

/-- The objects of a tree, each before its parts; nothing below an object that `enter` refuses. -/
def preorder (enter : Node ι → Bool) (n : Node ι) : List (Node ι) :=
  n :: if enter n then n.parts.attach.flatMap fun c => preorder enter c.1 else []
termination_by n.size
decreasing_by exact size_lt_of_mem_parts c.2

theorem preorder_eq (enter : Node ι → Bool) (n : Node ι) :
    n.preorder enter = n :: if enter n then n.parts.flatMap (preorder enter) else [] := by
  rw [preorder]
  simp only [List.flatMap_subtype, List.unattach_attach]

theorem filterMap_preorder {α : Type} (f : Node ι → Option α) (enter : Node ι → Bool)
    (n : Node ι) : (n.preorder enter).filterMap f = (f n).toList ++
      if enter n then n.parts.flatMap fun c => (c.preorder enter).filterMap f else [] := by
  rw [preorder_eq, ← List.filterMap_flatMap]
  cases hf : f n <;> split <;> simp [hf]

theorem mem_preorder_self (enter : Node ι → Bool) (n : Node ι) : n ∈ n.preorder enter := by
  rw [preorder_eq]
  exact List.mem_cons_self

theorem mem_preorder {enter : Node ι → Bool} {a n : Node ι} :
    a ∈ n.preorder enter ↔ a = n ∨ enter n ∧ ∃ c ∈ n.parts, a ∈ c.preorder enter := by
  rw [preorder_eq, List.mem_cons]
  split <;> simp_all [List.mem_flatMap]

end Node

def Expr.blank : Expr Unit := ⟨(), .this⟩

def Stmt.blank : Stmt Unit := .node () .empty

def NodeList.blank {α : Type} : NodeList Unit α := ⟨(), []⟩

def Block.blank : Block Unit := ⟨(), .blank⟩

def CatchClause.blank : CatchClause Unit := ⟨(), "", .blank⟩

def ExprShape.head : ExprShape ι → ExprShape Unit
  | .array _ => .array .blank
  | .binary op _ _ => .binary op .blank .blank
  | .comma _ => .comma .blank
  | .conditional _ _ _ => .conditional .blank .blank .blank
  | .constant c => .constant c
  | .function ps _ n => .function ps .blank n
  | .identifier n => .identifier n
  | .call _ _ => .call .blank .blank
  | .object _ => .object .blank
  | .member _ n => .member .blank n
  | .construct _ _ => .construct .blank .blank
  | .unary op _ => .unary op .blank
  | .typeReference n => .typeReference n
  | .this => .this
  | .literal f _ => .literal f .blank

def StmtShape.head : StmtShape ι → StmtShape Unit
  | .breakTo l => .breakTo l
  | .continueTo l => .continueTo l
  | .comment t => .comment t
  | .doWhile _ _ => .doWhile .blank .blank
  | .empty => .empty
  | .expression _ => .expression .blank
  | .forIn n _ _ d => .forIn n .blank .blank d
  | .forLoop i c t _ =>
    .forLoop (i.map fun _ => .blank) (c.map fun _ => .blank) (t.map fun _ => .blank) .blank
  | .ifElse _ _ e => .ifElse .blank .blank (e.map fun _ => .blank)
  | .ret v => .ret (v.map fun _ => .blank)
  | .switch _ _ => .switch .blank .blank
  | .throw _ => .throw .blank
  | .tryCatch _ h c => .tryCatch .blank (h.map fun _ => .blank) (c.map fun _ => .blank)
  | .vars _ => .vars .blank
  | .whileLoop _ _ => .whileLoop .blank .blank
  | .withObject _ _ => .withObject .blank .blank
  | .labelled l _ => .labelled l .blank
  | .function n ps _ => .function n ps .blank
  | .goto l => .goto l
  | .yield v => .yield (v.map fun _ => .blank)

namespace Node

/-- An object with its parts left blank: its variant, its own fields, and which of its optional
parts it has. How many items a list has is not among them. -/
def head : Node ι → Node Unit
  | ⟨.expr, e⟩ => ⟨.expr, ⟨(), e.shape.head⟩⟩
  | ⟨.stmt, .block _⟩ => ⟨.stmt, .block .blank⟩
  | ⟨.stmt, .node _ s⟩ => ⟨.stmt, .node () s.head⟩
  | ⟨.block, _⟩ => ⟨.block, .blank⟩
  | ⟨.property, p⟩ => ⟨.property, ⟨(), p.name, .blank⟩⟩
  | ⟨.declaration, d⟩ => ⟨.declaration, ⟨(), d.name, d.init.map fun _ => .blank⟩⟩
  | ⟨.caseSection, _⟩ => ⟨.caseSection, ⟨(), .blank, .blank⟩⟩
  | ⟨.catchClause, c⟩ => ⟨.catchClause, ⟨(), c.name, .blank⟩⟩
  | ⟨.label, .value _⟩ => ⟨.label, .value .blank⟩
  | ⟨.label, .default⟩ => ⟨.label, .default⟩
  | ⟨.exprs, _⟩ => ⟨.exprs, .blank⟩
  | ⟨.stmts, _⟩ => ⟨.stmts, .blank⟩
  | ⟨.properties, _⟩ => ⟨.properties, .blank⟩
  | ⟨.declarations, _⟩ => ⟨.declarations, .blank⟩
  | ⟨.sections, _⟩ => ⟨.sections, .blank⟩
  | ⟨.labels, _⟩ => ⟨.labels, .blank⟩

theorem head_head (n : Node ι) : n.head.head = n.head := by
  obtain ⟨k, x⟩ := n
  cases k
  case expr => rcases x with ⟨_, _ | _⟩ <;> rfl
  case stmt => rcases x with _ | ⟨_, _ | _⟩ <;> simp [head, StmtShape.head, Function.comp_def]
  case declaration => simp [head, Function.comp_def]
  case label => cases x <;> rfl
  all_goals rfl

/-- What a function of heads tells of an object, by what the object holds itself. -/
def own {α : Type} (f : Node Unit → α) (n : Node ι) : α := f n.head

theorem own_head {α : Type} (f : Node Unit → α) (n : Node ι) : n.head.own f = n.own f :=
  congrArg f n.head_head

/-- The two are of one variant, with the same fields of their own. -/
def Alike (n : Node ι) (n' : Node κ) : Prop := n.head = n'.head

theorem head_kind (n : Node ι) : n.head.kind = n.kind := by
  obtain ⟨k, x⟩ := n
  cases k
  case stmt | label => cases x <;> rfl
  all_goals rfl

theorem Alike.kind_eq {n : Node ι} {n' : Node κ} (h : n.Alike n') : n.kind = n'.kind := by
  rw [← head_kind n, ← head_kind n', h]

theorem alike_expr_iff {e : Expr ι} {e' : Expr κ} :
    Alike ⟨.expr, e⟩ ⟨.expr, e'⟩ ↔ e.shape.head = e'.shape.head := by
  simp [Alike, head]

theorem Alike.own_eq {α : Type} {n : Node ι} {n' : Node κ} (h : n.Alike n')
    (f : Node Unit → α) : n.own f = n'.own f :=
  congrArg f h

theorem Alike.refl (n : Node ι) : n.Alike n := rfl

theorem Alike.trans {τ : Type} {n : Node ι} {n' : Node κ} {n'' : Node τ} (h : n.Alike n')
    (h' : n'.Alike n'') : n.Alike n'' :=
  Eq.trans h h'

end Node

end ScriptTree
