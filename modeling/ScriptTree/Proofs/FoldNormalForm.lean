import ScriptTree.Proofs.NormalForm
import ScriptTree.Proofs.Numbering
import ScriptTree.Proofs.PassIdentity

namespace ScriptTree.Fold

open Node

/-- The object is an operator over constants, or a choice whose test is one, that folding answers by
another object. -/
def Foldable : Node Origin → Prop
  | ⟨.expr, e⟩ => (value? e).isSome
  | ⟨.stmt, s⟩ => (branch? s).isSome
  | _ => False

def constant? {ι : Type} : Node ι → Option Constant
  | ⟨.expr, e⟩ => e.asConstant?
  | _ => none

/-- The constant that a part is, if any, and whether it binds a function. -/
def reading {ι : Type} (n : Node ι) : Option Constant × Bool := (constant? n, n.hoistsFunction)

theorem constant?_head {ι : Type} (n : Node ι) : constant? n.head = constant? n := by
  obtain ⟨k, x⟩ := n
  cases k
  case expr => rcases x with ⟨_, _ | _⟩ <;> rfl
  case stmt | label => cases x <;> rfl
  all_goals rfl

theorem hoistsFunction_local : Local (hoistsFunction (ι := Origin)) := by
  intro n z ha hp
  have hfun : n.isFunction = z.isFunction := ha.own_eq _
  have hown : n.ownFunctions = z.ownFunctions := ha.own_eq _
  have hany : n.parts.any hoistsFunction = z.parts.any hoistsFunction := by
    have h := congrArg (List.any · id) hp
    rw [List.any_map, List.any_map] at h
    exact h
  rw [hoistsFunction_eq n, hoistsFunction_eq z, hfun, hown, hany]

theorem reading_local : Local reading := by
  intro n z ha hp
  have hconstant : constant? n = constant? z := by
    rw [← constant?_head n, ← constant?_head z, ha]
  have hhoists : n.hoistsFunction = z.hoistsFunction := by
    have h := congrArg (List.map Prod.snd) hp
    rw [List.map_map, List.map_map] at h
    exact hoistsFunction_local n z ha h
  rw [reading, reading, hconstant, hhoists]

/-- Whether an object folds, by what it holds itself and by the readings of its parts. -/
def foldsAt : Node Unit → List (Option Constant × Bool) → Prop
  | ⟨.expr, ⟨_, .binary op _ _⟩⟩, [(c, _), (d, _)] => (do binary op (← c) (← d)).isSome
  | ⟨.expr, ⟨_, .unary op _⟩⟩, [(c, _)] => (do unary op (← c)).isSome
  | ⟨.expr, ⟨_, .conditional ..⟩⟩, (c, _) :: _ => ∃ value, c = some (.bool value)
  | ⟨.stmt, .node _ (.ifElse ..)⟩, (c, _) :: (_, t) :: e =>
    c = some (.bool true) ∧ e.any (·.2) = false ∨ c = some (.bool false) ∧ t = false
  | _, _ => False

theorem asBool?_eq_some_iff {ι : Type} {e : Expr ι} {value : Bool} :
    asBool? e = some value ↔ e.asConstant? = some (.bool value) := by
  unfold asBool?
  cases e.asConstant? with
  | none => simp
  | some c => cases c <;> simp

theorem selectBranch_isSome (o : Origin) (live dead : Option (Block Origin)) :
    (selectBranch o live dead).isSome ↔ Block.declaresFunction? dead = false := by
  unfold selectBranch
  cases Block.declaresFunction? dead <;> simp

theorem foldable_iff (n : Node Origin) : Foldable n ↔ foldsAt n.head (n.parts.map reading) := by
  obtain ⟨k, x⟩ := n
  cases k
  case expr =>
    obtain ⟨o, s⟩ := x
    cases s
    case binary op l r =>
      simp only [Foldable, value?, foldsAt, head, ExprShape.head, parts, ExprShape.parts, List.map,
        reading, constant?]
      cases l.asConstant? with
      | none => simp
      | some c =>
        cases r.asConstant? with
        | none => simp
        | some d => cases hv : binary op c d <;> simp [hv]
    case unary op x =>
      simp only [Foldable, value?, foldsAt, head, ExprShape.head, parts, ExprShape.parts, List.map,
        reading, constant?]
      cases x.asConstant? with
      | none => simp
      | some c => cases hv : unary op c <;> simp [hv]
    case conditional c t f =>
      simp only [Foldable, value?, foldsAt, head, ExprShape.head, parts, ExprShape.parts, List.map,
        reading, constant?, ← asBool?_eq_some_iff]
      cases asBool? c <;> simp
    all_goals simp [Foldable, value?, foldsAt, head, ExprShape.head]
  case stmt =>
    cases x with
    | block b => simp [Foldable, branch?, foldsAt, head]
    | node o s =>
      cases s
      case ifElse c t e =>
        simp only [Foldable, branch?, foldsAt, head, StmtShape.head, parts, StmtShape.parts,
          List.map, reading, constant?, ← asBool?_eq_some_iff]
        cases asBool? c with
        | none => simp
        | some value =>
          cases value <;> cases e <;> simp [selectBranch_isSome, Block.declaresFunction?, ofOption,
            reading, hoistsFunction]
      all_goals simp [Foldable, branch?, foldsAt, head, StmtShape.head]
  case label => cases x <;> simp [Foldable, foldsAt, head]
  all_goals simp [Foldable, foldsAt, head]

theorem foldable_transfers : Transfers reading (¬Foldable ·) := by
  intro n z ha hp h
  rw [foldable_iff, ← ha, ← hp, ← foldable_iff]
  exact h

/-- The predicate holds of the objects that folding makes, declarations apart. -/
structure Admits (P : Node Origin → Prop) : Prop where
  constant : ∀ o c, P ⟨.expr, ⟨o, .constant c⟩⟩
  comma : ∀ o es, P ⟨.expr, ⟨o, .comma es⟩⟩
  call : ∀ o c es, P ⟨.expr, ⟨o, .call c es⟩⟩
  exprs : ∀ l, P ⟨.exprs, l⟩
  block : ∀ b, P ⟨.block, b⟩
  blockStmt : ∀ b, P ⟨.stmt, .block b⟩
  stmts : ∀ l, P ⟨.stmts, l⟩
  empty : ∀ o, P ⟨.stmt, .node o .empty⟩
  vars : ∀ o l, P ⟨.stmt, .node o (.vars l)⟩
  declarations : ∀ l, P ⟨.declarations, l⟩

theorem all_of_declares {P : Node Origin → Prop} (hvars : ∀ o l, P ⟨.stmt, .node o (.vars l)⟩)
    (hlist : ∀ l, P ⟨.declarations, l⟩) {names : List String} {s : Stmt Origin}
    (h : Declares names s) (hnames : ∀ o x, x ∈ names → P ⟨.declaration, ⟨o, x, none⟩⟩) :
    All P ⟨.stmt, s⟩ := by
  cases h with
  | @statement o l hn hinit =>
    have hl : All P ⟨.declarations, l⟩ := by
      apply All.intro (hlist l)
      intro d hd
      obtain ⟨⟨o', x, v⟩, hd', rfl⟩ := List.mem_map.1 hd
      obtain rfl : v = none := hinit _ hd'
      have hx : x ∈ names := hn ▸ List.mem_map_of_mem hd'
      exact .leaf (hnames o' x hx) rfl
    exact .intro (hvars o l) (List.forall_mem_singleton.2 hl)

section Admits

variable {P : Node Origin → Prop} (hP : Admits P)
include hP

theorem value?_all {z v : Expr Origin} (hparts : ∀ c ∈ parts ⟨.expr, z⟩, All P c)
    (h : value? z = some v) : All P ⟨.expr, v⟩ := by
  obtain ⟨c, rfl⟩ | hv := value?_cases h
  · exact .leaf (hP.constant _ c) rfl
  · exact hparts _ hv

theorem guardCallee_all {e z : Expr Origin} (h : All P ⟨.expr, z⟩) :
    All P ⟨.expr, guardCallee e z⟩ := by
  obtain hself | ⟨o, o', c, c', es, es', rfl, rfl, -, -, hguard⟩ := guardCallee_cases e z
  · rwa [hself]
  · rw [hguard]
    have hc' : All P ⟨.expr, c'⟩ := h.part (by simp [parts, ExprShape.parts])
    have hes' : All P ⟨.exprs, es'⟩ := h.part (by simp [parts, ExprShape.parts])
    have hzero := All.leaf (hP.constant (.made o 3) (.number 0)) rfl
    have hlist := All.intro (hP.exprs ⟨.made o 2, [_, c']⟩)
      (List.forall_mem_cons.2 ⟨hzero, List.forall_mem_singleton.2 hc'⟩)
    have hcomma := All.intro (hP.comma (.made o 1) _) (List.forall_mem_singleton.2 hlist)
    exact .intro (hP.call _ _ _)
      (List.forall_mem_cons.2 ⟨hcomma, List.forall_mem_singleton.2 hes'⟩)

theorem block_all {b : Block Origin} (h : ∀ s ∈ b.statements.items, All P ⟨.stmt, s⟩) :
    All P ⟨.stmt, .block b⟩ := by
  have hlist : All P ⟨.stmts, b.statements⟩ := by
    apply All.intro (hP.stmts _)
    intro s hs
    obtain ⟨s', hs', rfl⟩ := List.mem_map.1 hs
    exact h s' hs'
  exact .intro (hP.blockStmt b) (List.forall_mem_singleton.2 hlist)

theorem selectBranch_all {o : Origin} {live dead : Option (Block Origin)} {y : Stmt Origin}
    (hlive : ∀ b, live = some b → All P ⟨.block, b⟩)
    (hnames : ∀ o x, x ∈ Block.varNames? dead → P ⟨.declaration, ⟨o, x, none⟩⟩)
    (h : selectBranch o live dead = some y) : All P ⟨.stmt, y⟩ := by
  have hdeclare : All P ⟨.stmt, declare o (Block.varNames? dead).eraseDups⟩ :=
    all_of_declares hP.vars hP.declarations (declare_declares o _) fun o x hx =>
      hnames o x (List.mem_eraseDups.1 hx)
  have hitems : ∀ b, live = some b → ∀ s ∈ b.statements.items, All P ⟨.stmt, s⟩ := by
    intro b hb s hs
    have hlist : All P ⟨.stmts, b.statements⟩ := (hlive b hb).part List.mem_cons_self
    exact hlist.part (List.mem_map_of_mem hs)
  cases (selectBranch_cases h).2 with
  | live => exact block_all hP (hitems _ rfl)
  | extended =>
    refine block_all hP fun s hs => ?_
    obtain hs | hs := List.mem_append.1 hs
    · exact hitems _ rfl s hs
    · obtain rfl := List.mem_singleton.1 hs
      exact hdeclare
  | empty => exact .leaf (hP.empty _) rfl
  | declaration => exact hdeclare

theorem branch?_all {z y : Stmt Origin} (hparts : ∀ c ∈ parts ⟨.stmt, z⟩, All P c)
    (hnames : ∀ o x, x ∈ Node.vars ⟨.stmt, z⟩ → P ⟨.declaration, ⟨o, x, none⟩⟩)
    (h : branch? z = some y) : All P ⟨.stmt, y⟩ := by
  obtain ⟨o, test, value, t, e, live, dead, rfl, -, hb, h⟩ := branch?_cases h
  refine selectBranch_all hP ?_ (fun o' x hx => hnames o' x ?_) h
  · rintro b rfl
    exact hparts _ (mem_parts_of_branches hb)
  · rw [varNames?_eq] at hx
    rw [(ifElse_bindings o test t e).1]
    cases value <;> obtain ⟨-, rfl⟩ := Prod.mk.inj hb
    · exact List.mem_append_left _ hx
    · exact List.mem_append_right _ hx

end Admits

theorem guardCallee_self (e : Expr Origin) : guardCallee e e = e := by
  unfold guardCallee
  split
  · rename_i hc hc'
    cases hc.symm.trans hc'
    simp
  · rfl

theorem visit_of_not_foldable {k : Kind} {x : Object Origin k} {walk : StateM Nat (Object Origin k)}
    {s : Nat} (h : ¬Foldable ⟨k, x⟩) (hwalk : walk s = (x, s)) :
    transform.visit k x walk s = (x, s) := by
  cases k
  case expr =>
    have hnone : value? x = none := by simpa [Foldable] using h
    simp only [transform, bind, StateT.bind, hwalk, hnone, guardCallee_self]
    rfl
  case stmt =>
    have hnone : branch? x = none := by simpa [Foldable] using h
    simp only [transform, bind, StateT.bind, hwalk, hnone]
    rfl
  all_goals exact hwalk

/-- Folding answers a tree in which nothing folds by itself, and counts nothing. -/
theorem fold_of_normal {n : Node Origin} (h : All (¬Foldable ·) n) (folded : Nat) :
    transform.node n folded = (n, folded) :=
  transform.fixes (fun _ _ => id) (fun _ _ _ _ => visit_of_not_foldable) h folded

theorem not_foldable_admits : Admits (¬Foldable ·) := by
  constructor <;> intros <;> simp [Foldable, value?, branch?]

/-- Nothing is left to fold in a folded tree. -/
theorem fold_normal {n : Node Origin} (hn : Separate n) (folded : Nat) :
    All (¬Foldable ·) (transform.node n folded).1 := by
  refine (transform.exact_induction fold_isTame (P := fun _ _ n' _ => All (¬Foldable ·) n') ?_ ?_
    n hn folded).2
  · intro _ _ b _ h
    exact .intro (not_foldable_admits.blockStmt b) fun _ => h.part
  · intro k x walk _ hwalk s
    have hparts := (hwalk s).2.forall_right fun _ _ _ _ h => h
    cases k
    case expr =>
      rw [visit_expr]
      -- the branch of a choice is a part, and the comma around a callee does not fold
      cases hv : value? (walk s).1 with
      | some v => exact value?_all not_foldable_admits hparts hv
      | none => exact guardCallee_all not_foldable_admits (.intro (by simp [Foldable, hv]) hparts)
    case stmt =>
      rw [visit_stmt]
      cases hb : branch? (walk s).1 with
      | some y => exact branch?_all not_foldable_admits hparts (fun _ _ _ => nofun) hb
      | none => exact .intro (by simp [Foldable, hb]) hparts
    all_goals exact .intro nofun hparts

/-- Folding keeps a property of all objects that it admits, where the names that are bound may be
declared. -/
theorem fold_keeps {P : Node Origin → Prop} (hP : Admits P) (htransfers : Transfers width P)
    (hnames : ∀ n, All P n → ∀ o x, x ∈ n.vars → P ⟨.declaration, ⟨o, x, none⟩⟩)
    {n : Node Origin} (h : All P n) (folded : Nat) : All P (transform.node n folded).1 := by
  refine (relates (R := Keeps width P) .refl ?_ ?_ ?_ ?_ ?_ ?_ n folded).1 h
  · intro b b'
    exact Keeps.block (fun b => ⟨hP.block b, hP.blockStmt b⟩) fun _ => rfl
  · intro n z _ _ ha hp
    exact .of_parts width_local htransfers ha hp
  · intro e z v _ hp hv
    exact ⟨fun h => value?_all hP (Keeps.all_parts hp h) hv, rfl⟩
  · intro e z ha hp _
    have hz := Keeps.of_parts width_local htransfers ha hp
    exact ⟨fun h => guardCallee_all hP (hz.1 h), rfl⟩
  · intro x z y ha hp hb
    have hz := Keeps.of_parts width_local htransfers ha hp
    exact ⟨fun h => branch?_all hP (Keeps.all_parts hp h) (hnames _ (hz.1 h)) hb, rfl⟩
  · intro x z ha hp
    exact .of_parts width_local htransfers ha hp

/-- An operator over constants that has a value, or a choice whose test is a constant, the branch
that does not run being free of functions. -/
inductive Redex : Node Origin → Prop
  | binary {o op l r c d v} : l.asConstant? = some c → r.asConstant? = some d →
      Fold.binary op c d = some v → Redex ⟨.expr, ⟨o, .binary op l r⟩⟩
  | unary {o op x c v} : x.asConstant? = some c → Fold.unary op c = some v →
      Redex ⟨.expr, ⟨o, .unary op x⟩⟩
  | conditional {o test t f value} : test.asConstant? = some (.bool value) →
      Redex ⟨.expr, ⟨o, .conditional test t f⟩⟩
  | ifElse {o test t e value} : test.asConstant? = some (.bool value) →
      branchFunctions (branches value t e).2 = [] → Redex ⟨.stmt, .node o (.ifElse test t e)⟩

theorem foldable_of_redex {n : Node Origin} (h : Redex n) : Foldable n := by
  cases h with
  | binary hl hr hv => simp [Foldable, value?, hl, hr, hv]
  | unary hx hv => simp [Foldable, value?, hx, hv]
  | conditional htest => simp [Foldable, value?, asBool?_eq_some_iff.2 htest]
  | @ifElse _ _ t e value htest hdead =>
    rw [← declaresFunction?_eq_false_iff] at hdead
    cases value <;>
      simpa [Foldable, branch?, branches, asBool?_eq_some_iff.2 htest, selectBranch_isSome]
        using hdead

/-- Folding leaves nothing to fold, and folding again answers the same objects and counts
nothing. -/
theorem fold_complete (start : Nat) (k : Kind) (x : Object Unit k) (folded : Nat) :
    let r := (transform.object k (Object.number start k x).1 folded).1
    All (¬Redex ·) ⟨k, r⟩ ∧ ∀ again, transform.object k r again = (r, again) := by
  intro r
  have hnormal : All (¬Foldable ·) ⟨k, r⟩ := fold_normal (number_separate start k x) folded
  refine ⟨fun m hm hredex => hnormal m hm (foldable_of_redex hredex), fun again => ?_⟩
  have hnode : transform.node ⟨k, r⟩ again = (⟨k, r⟩, again) := fold_of_normal hnormal again
  obtain ⟨hfst, hsnd⟩ := Prod.mk.inj hnode
  exact Prod.ext (eq_of_heq (Node.mk.inj hfst).2) hsnd

end ScriptTree.Fold
