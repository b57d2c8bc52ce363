import Mathlib.Data.Nat.Init
import ScriptTree.Proofs.Fold

namespace ScriptTree

variable {ι : Type}

theorem nodup_eraseDups (names : List String) : names.eraseDups.Nodup := by
  induction hn : names.length using Nat.strong_induction_on generalizing names with
  | _ n ih =>
    cases names with
    | nil => exact .nil
    | cons x xs =>
      rw [List.eraseDups_cons, List.nodup_cons, List.mem_eraseDups]
      have hlength := List.length_filter_le (fun y => !y == x) xs
      refine ⟨by simp, ih _ ?_ _ rfl⟩
      rw [← hn, List.length_cons]
      omega

/-- Adds a name at the end if it is not there yet. -/
def addName (names : List String) (name : String) : List String :=
  if name ∈ names then names else names ++ [name]

theorem addName_eraseDups (seen : List String) (name : String) :
    addName seen.eraseDups name = (seen ++ [name]).eraseDups := by
  rw [List.eraseDups_append, addName]
  by_cases h : name ∈ seen
  · simp [h, List.removeAll]
  · simp [h, List.removeAll, List.eraseDups_cons]

/-- Adding names one by one leaves the first occurrence of each. -/
theorem foldl_addName (seen names : List String) :
    names.foldl addName seen.eraseDups = (seen ++ names).eraseDups := by
  induction names generalizing seen with
  | nil => rw [List.append_nil, List.foldl_nil]
  | cons name names ih =>
    rw [List.foldl_cons, addName_eraseDups, ih, List.append_assoc, List.singleton_append]

/-- What a walk has found: the names, each once, and whether there was a function statement. -/
structure Hoisted where
  vars : List String
  functions : Bool

namespace Hoisted

def empty : Hoisted := ⟨[], false⟩

def var (h : Hoisted) (name : String) : Hoisted := { h with vars := addName h.vars name }

end Hoisted

mutual

def Block.hoist : Block ι → Hoisted → Hoisted
  | ⟨_, ⟨_, ss⟩⟩, h => Stmt.hoistEach ss h

def Stmt.hoist : Stmt ι → Hoisted → Hoisted
  | .block b, h => b.hoist h
  | .node _ s, h => s.hoist h

def StmtShape.hoist : StmtShape ι → Hoisted → Hoisted
  | .doWhile _ b, h | .whileLoop _ b, h => b.hoist h
  | .forIn n _ b declares, h => b.hoist (if declares then h.var n else h)
  | .forLoop i _ _ b, h => b.hoist (Stmt.hoist? i h)
  | .ifElse _ t e, h => Block.hoist? e (t.hoist h)
  | .switch _ ⟨_, ss⟩, h => Section.hoistEach ss h
  | .tryCatch b c f, h => Block.hoist? f (CatchClause.hoist? c (b.hoist h))
  | .vars ds, h => ds.items.foldl (fun h d => h.var d.name) h
  | .withObject _ s, h | .labelled _ s, h => s.hoist h
  | .function .., h => { h with functions := true }
  | .breakTo _, h | .continueTo _, h | .comment _, h | .empty, h | .expression _, h | .ret _, h
  | .throw _, h | .goto _, h | .yield _, h => h

def Stmt.hoistEach : List (Stmt ι) → Hoisted → Hoisted
  | [], h => h
  | s :: ss, h => Stmt.hoistEach ss (s.hoist h)

def Section.hoistEach : List (Section ι) → Hoisted → Hoisted
  | [], h => h
  | ⟨_, _, b⟩ :: ss, h => Section.hoistEach ss (b.hoist h)

def Stmt.hoist? : Option (Stmt ι) → Hoisted → Hoisted
  | none, h => h
  | some s, h => s.hoist h

def Block.hoist? : Option (Block ι) → Hoisted → Hoisted
  | none, h => h
  | some b, h => b.hoist h

def CatchClause.hoist? : Option (CatchClause ι) → Hoisted → Hoisted
  | none, h => h
  | some ⟨_, _, b⟩, h => b.hoist h

end

def Hoisted.of (b : Block ι) : Hoisted := b.hoist .empty

theorem Stmt.hoistEach_eq (ss : List (Stmt ι)) (h : Hoisted) :
    Stmt.hoistEach ss h = ss.foldl (fun h s => s.hoist h) h := by
  induction ss generalizing h with
  | nil => rfl
  | cons s ss ih => rw [Stmt.hoistEach, ih, List.foldl_cons]

theorem Section.hoistEach_eq (ss : List (Section ι)) (h : Hoisted) :
    Section.hoistEach ss h = ss.foldl (fun h s => s.body.hoist h) h := by
  induction ss generalizing h with
  | nil => rfl
  | cons s ss ih =>
    cases s
    rw [Section.hoistEach, ih, List.foldl_cons]

theorem Block.hoist_eq (b : Block ι) (h : Hoisted) :
    b.hoist h = b.statements.items.foldl (fun h s => s.hoist h) h := by
  obtain ⟨_, _, ss⟩ := b
  rw [Block.hoist, Stmt.hoistEach_eq]

namespace Node

/-- The walk from an object of any kind on. -/
def hoist : Node ι → Hoisted → Hoisted
  | ⟨.stmt, s⟩, h => s.hoist h
  | ⟨.block, b⟩, h => b.hoist h
  | ⟨.stmts, l⟩, h => l.items.foldl (fun h s => s.hoist h) h
  | ⟨.caseSection, s⟩, h => s.body.hoist h
  | ⟨.sections, l⟩, h => l.items.foldl (fun h s => s.body.hoist h) h
  | ⟨.catchClause, c⟩, h => c.body.hoist h
  | ⟨.declaration, d⟩, h => h.var d.name
  | ⟨.declarations, l⟩, h => l.items.foldl (fun h d => h.var d.name) h
  | _, h => h

/-- What an object adds of its own. -/
def introduce (h : Hoisted) (n : Node ι) : Hoisted where
  vars := n.ownVars.foldl addName h.vars
  functions := h.functions || !n.ownFunctions.isEmpty

section Layers

attribute [local simp] own head ExprShape.head StmtShape.head isFunction ownVars ownFunctions parts
  StmtShape.parts ofOption hoist introduce Hoisted.var

theorem stmt_hoist_eq (o : ι) (s : StmtShape ι) (h : Hoisted) :
    s.hoist h = (if isFunction ⟨.stmt, .node o s⟩ then [] else s.parts).foldl
      (fun h c => c.hoist h) (introduce h ⟨.stmt, .node o s⟩) := by
  cases s
  case forIn n x b d => cases d <;> simp [StmtShape.hoist]
  case forLoop i c t b =>
    cases i <;> cases c <;> cases t <;> simp [StmtShape.hoist, Stmt.hoist?]
  case ifElse c t e => cases e <;> simp [StmtShape.hoist, Block.hoist?]
  case tryCatch b h c =>
    rcases h with _ | ⟨_, _, _⟩ <;> cases c <;>
      simp [StmtShape.hoist, CatchClause.hoist?, Block.hoist?]
  case switch d ss =>
    cases ss
    simp [StmtShape.hoist, Section.hoistEach_eq]
  case ret v | yield v => cases v <;> simp [StmtShape.hoist]
  all_goals simp [StmtShape.hoist]

theorem hoist_eq (n : Node ι) (h : Hoisted) : n.hoist h =
    (if n.isFunction then [] else n.parts).foldl (fun h c => c.hoist h) (introduce h n) := by
  obtain ⟨k, x⟩ := n
  cases k
  case expr => rcases x with ⟨_, _ | _⟩ <;> simp [ExprShape.parts]
  case stmt =>
    cases x with
    | block b => simp [Stmt.hoist, Block.hoist_eq]
    | node o s => exact stmt_hoist_eq o s h
  case label => cases x <;> simp
  case declaration => rcases x with ⟨_, _, _ | _⟩ <;> simp
  all_goals simp [List.foldl_map, Block.hoist_eq]

end Layers

/-- The walk comes by the objects outside nested functions in pre-order. -/
theorem hoist_eq_foldl (n : Node ι) (h : Hoisted) : n.hoist h = n.scope.foldl introduce h := by
  induction n using Node.induction generalizing h with
  | step n ih =>
    rw [hoist_eq, scope, preorder_eq, List.foldl_cons]
    cases n.isFunction with
    | true => rfl
    | false =>
      simp only [Bool.not_false, if_true, Bool.false_eq_true, if_false, List.foldl_flatMap]
      exact List.foldl_ext _ _ _ fun h c hc => ih c hc h

theorem foldl_introduce (ns : List (Node ι)) (h : Hoisted) : ns.foldl introduce h =
    ⟨(ns.flatMap ownVars).foldl addName h.vars,
      h.functions || ns.any fun n => !n.ownFunctions.isEmpty⟩ := by
  induction ns generalizing h with
  | nil => simp
  | cons n ns ih =>
    rw [List.foldl_cons, ih, List.flatMap_cons, List.foldl_append, List.any_cons, ← Bool.or_assoc]
    rfl

/-- The object declares the name as a variable of the function around it. -/
inductive DeclaresVar (x : String) : Node ι → Prop
  | declaration {o init} : DeclaresVar x ⟨.declaration, ⟨o, x, init⟩⟩
  | forIn {o e s} : DeclaresVar x ⟨.stmt, .node o (.forIn x e s true)⟩

theorem mem_ownVars_iff {x : String} {n : Node ι} : x ∈ n.ownVars ↔ n.DeclaresVar x := by
  constructor
  · intro h
    obtain ⟨k, y⟩ := n
    cases k <;> try exact absurd h List.not_mem_nil
    case stmt =>
      rcases y with _ | ⟨_, _ | _⟩ <;> try exact absurd h List.not_mem_nil
      case node.forIn name e s declares =>
        cases declares
        · exact absurd h List.not_mem_nil
        · obtain rfl := List.mem_singleton.1 h
          exact .forIn
    case declaration =>
      obtain ⟨o, name, init⟩ := y
      obtain rfl := List.mem_singleton.1 h
      exact .declaration
    case label => cases y <;> exact absurd h List.not_mem_nil
  · rintro (_ | _) <;> exact List.mem_singleton.2 rfl

theorem ownFunctions_ne_nil_iff {n : Node ι} : n.ownFunctions ≠ [] ↔
    ∃ o f ps body, n = ⟨.stmt, .node o (.function f ps body)⟩ := by
  constructor
  · intro h
    obtain ⟨k, y⟩ := n
    cases k <;> try exact absurd rfl h
    case stmt =>
      rcases y with _ | ⟨_, _ | _⟩ <;> try exact absurd rfl h
      exact ⟨_, _, _, _, rfl⟩
    case label => cases y <;> exact absurd rfl h
  · rintro ⟨o, f, ps, body, rfl⟩
    exact List.cons_ne_nil f []

end Node

open Node

namespace Hoisted

theorem of_eq (b : Block ι) : of b =
    ⟨(Node.vars ⟨.block, b⟩).eraseDups,
      (scope ⟨.block, b⟩).any fun n => !n.ownFunctions.isEmpty⟩ := by
  have hwalk : of b = (scope ⟨.block, b⟩).foldl introduce .empty :=
    hoist_eq_foldl ⟨.block, b⟩ .empty
  have hnames := foldl_addName [] (Node.vars ⟨.block, b⟩)
  rw [hwalk, foldl_introduce]
  exact congrArg₂ Hoisted.mk hnames (Bool.false_or _)

theorem mem_vars_iff (b : Block ι) (x : String) :
    x ∈ (of b).vars ↔ ∃ n ∈ scope ⟨.block, b⟩, n.DeclaresVar x := by
  simp only [of_eq, List.mem_eraseDups, Node.vars, List.mem_flatMap, mem_ownVars_iff]

theorem functions_iff (b : Block ι) : (of b).functions ↔
    ∃ n ∈ scope ⟨.block, b⟩, ∃ o f ps body, n = ⟨.stmt, .node o (.function f ps body)⟩ := by
  simp only [of_eq, List.any_eq_true, Bool.not_eq_true', List.isEmpty_eq_false_iff,
    ownFunctions_ne_nil_iff]

/-- Folding hoists from a branch what the walk collects. -/
theorem of_eq_hoisted (b : Block ι) :
    of b = ⟨(Block.varNames? (some b)).eraseDups, Block.declaresFunction? (some b)⟩ := by
  have hvars : Block.varNames? (some b) = Node.vars ⟨.block, b⟩ :=
    (vars_eq_hoistedVars ⟨.block, b⟩).symm
  have hnone : (scope ⟨.block, b⟩).any (fun n => !n.ownFunctions.isEmpty) = false ↔
      b.declaresFunction = false := by
    refine Iff.trans ?_ (functions_eq_nil_iff ⟨.block, b⟩)
    simp [Node.functions]
  have hfunctions : (scope ⟨.block, b⟩).any (fun n => !n.ownFunctions.isEmpty) =
      Block.declaresFunction? (some b) := by
    rw [Bool.eq_iff_iff, ← not_iff_not, Bool.not_eq_true, Bool.not_eq_true]
    exact hnone
  rw [of_eq, hvars, hfunctions]

end Hoisted

namespace Fold

theorem blockStmt_vars (b : Block ι) : Node.vars ⟨.stmt, .block b⟩ = branchVars (some b) := by
  rw [(branch_bindings b).1, vars_of_parts ⟨.stmt, .block b⟩ rfl rfl,
    vars_of_parts ⟨.block, b⟩ rfl rfl]
  rfl

/-- What a branch that is dropped hoists is declared after what the live one declares. -/
theorem Selected.vars {o : Origin} {live dead : Option (Block Origin)} {y : Stmt Origin}
    (h : Selected o live dead y) :
    Node.vars ⟨.stmt, y⟩ = branchVars live ++ (Block.varNames? dead).eraseDups := by
  have hdeclare (names : List String) : Node.vars ⟨.stmt, declare o names⟩ = names :=
    (declare_declares o names).bindings.1
  cases h with
  | live hnone => rw [blockStmt_vars, hnone, List.append_nil]
  | @extended b =>
    rw [blockStmt_vars, (branch_bindings _).1, (block_bindings _).1, List.flatMap_append,
      List.flatMap_singleton, hdeclare, (branch_bindings b).1, (block_bindings b).1]
  | empty hnone =>
    rw [hnone]
    exact vars_eq_hoistedVars _
  | declaration _ => exact hdeclare _

theorem selectBranch_vars (o : Origin) (live : Option (Block Origin)) (dead : Block Origin) :
    (selectBranch o live (some dead)).map (fun s => Node.vars ⟨.stmt, s⟩) =
      if (Hoisted.of dead).functions then none
      else some (branchVars live ++ (Hoisted.of dead).vars) := by
  rw [Hoisted.of_eq_hoisted]
  cases hselect : selectBranch o live (some dead) with
  | none =>
    have hfunction : Block.declaresFunction? (some dead) = true := by
      unfold selectBranch at hselect
      split at hselect
      · assumption
      · exact absurd hselect nofun
    rw [if_pos hfunction]
    rfl
  | some y =>
    obtain ⟨hfunction, hselected⟩ := selectBranch_cases hselect
    rw [if_neg (Bool.eq_false_iff.1 hfunction), Option.map_some, hselected.vars]

end Fold

/-- The walk collects the names of the declarations and of the declaring for-in loops outside nested
functions and no others, each once and in order of first occurrence, and tells whether one of the
objects there is a function statement. This is what folding reads of a branch: it declares each of
these names once where it drops the block, after what stays. -/
theorem hoisted_of (b : Block Origin) :
    let names := Node.vars ⟨.block, b⟩
    let hoisted := Hoisted.of b
    hoisted.vars.Nodup ∧ hoisted.vars = names.eraseDups ∧
      (∀ x, x ∈ hoisted.vars ↔ ∃ n ∈ scope ⟨.block, b⟩, n.DeclaresVar x) ∧
      (hoisted.functions ↔ ∃ n ∈ scope ⟨.block, b⟩, ∃ o f ps body,
        n = ⟨.stmt, .node o (.function f ps body)⟩) ∧
      hoisted = ⟨(Block.varNames? (some b)).eraseDups, Block.declaresFunction? (some b)⟩ ∧
      ∀ o live, (Fold.selectBranch o live (some b)).map (fun s => Node.vars ⟨.stmt, s⟩) =
        if hoisted.functions then none else some (Fold.branchVars live ++ hoisted.vars) := by
  intro names hoisted
  have hvars : hoisted.vars = names.eraseDups := congrArg Hoisted.vars (Hoisted.of_eq b)
  refine ⟨?_, hvars, Hoisted.mem_vars_iff b, Hoisted.functions_iff b, Hoisted.of_eq_hoisted b,
    fun o live => Fold.selectBranch_vars o live b⟩
  rw [hvars]
  exact nodup_eraseDups names

end ScriptTree
