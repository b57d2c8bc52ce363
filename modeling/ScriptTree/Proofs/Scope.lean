import ScriptTree.Hoisting
import ScriptTree.Proofs.Node

namespace ScriptTree

variable {ι κ : Type}

namespace Node

/-- What stands in a nested function binds nothing in the function around it. -/
def isFunction : Node ι → Bool := own fun
  | ⟨.expr, ⟨_, .function ..⟩⟩ | ⟨.stmt, .node _ (.function ..)⟩ => true
  | _ => false

/-- The objects outside nested functions in pre-order; the nested functions themselves are among
them. -/
def scope (n : Node ι) : List (Node ι) := n.preorder fun m => !m.isFunction

def ownVars : Node ι → List String := own fun
  | ⟨.declaration, d⟩ => [d.name]
  | ⟨.stmt, .node _ (.forIn x _ _ declares)⟩ => if declares then [x] else []
  | _ => []

def ownFunctions : Node ι → List String := own fun
  | ⟨.stmt, .node _ (.function f _ _)⟩ => [f]
  | _ => []

/-- The names that declarations and declaring for-in loops introduce, one for each time. -/
def vars (n : Node ι) : List String := n.scope.flatMap ownVars

/-- The names of the function statements. -/
def functions (n : Node ι) : List String := n.scope.flatMap ownFunctions

theorem flatMap_scope {β : Type} (f : Node ι → List β) (n : Node ι) :
    n.scope.flatMap f =
      f n ++ if n.isFunction then [] else n.parts.flatMap fun c => c.scope.flatMap f := by
  rw [scope, preorder_eq, List.flatMap_cons]
  cases n.isFunction <;> simp [scope, List.flatMap_assoc]

theorem vars_eq (n : Node ι) :
    n.vars = n.ownVars ++ if n.isFunction then [] else n.parts.flatMap vars :=
  flatMap_scope _ n

theorem functions_eq (n : Node ι) :
    n.functions = n.ownFunctions ++ if n.isFunction then [] else n.parts.flatMap functions :=
  flatMap_scope _ n

theorem vars_of_parts (n : Node ι) (hfun : n.isFunction = false) (hown : n.ownVars = []) :
    n.vars = n.parts.flatMap vars := by
  rw [vars_eq, hfun, hown]
  rfl

theorem functions_of_parts (n : Node ι) (hfun : n.isFunction = false) (hown : n.ownFunctions = []) :
    n.functions = n.parts.flatMap functions := by
  rw [functions_eq, hfun, hown]
  rfl

/-- Two objects bind the same: the same names, and the same functions in the same order. -/
structure SameBindings (n : Node ι) (n' : Node κ) : Prop where
  vars : ∀ x, x ∈ n.vars ↔ x ∈ n'.vars
  functions : n.functions = n'.functions

theorem SameBindings.refl (n : Node ι) : n.SameBindings n := ⟨fun _ => .rfl, rfl⟩

theorem SameBindings.symm {n : Node ι} {n' : Node κ} (h : n.SameBindings n') :
    n'.SameBindings n :=
  ⟨fun x => (h.vars x).symm, h.functions.symm⟩

theorem SameBindings.trans {τ : Type} {n : Node ι} {n' : Node κ} {n'' : Node τ}
    (h : n.SameBindings n') (h' : n'.SameBindings n'') : n.SameBindings n'' :=
  ⟨fun x => (h.vars x).trans (h'.vars x), h.functions.trans h'.functions⟩

theorem SameBindings.of_parts {n : Node ι} {n' : Node κ} (ha : n.Alike n')
    (h : List.Forall₂ SameBindings n.parts n'.parts) : n.SameBindings n' := by
  have hfun : n.isFunction = n'.isFunction := ha.own_eq _
  have hv : n.ownVars = n'.ownVars := ha.own_eq _
  have hf : n.ownFunctions = n'.ownFunctions := ha.own_eq _
  have hparts : (∀ x, x ∈ n.parts.flatMap Node.vars ↔ x ∈ n'.parts.flatMap Node.vars) ∧
      n.parts.flatMap Node.functions = n'.parts.flatMap Node.functions := by
    generalize n.parts = cs, n'.parts = cs' at h
    induction h with
    | nil => simp
    | cons hc _ ih =>
      simp only [List.flatMap_cons, List.mem_append, hc.vars, ih.1, hc.functions, ih.2,
        implies_true, and_self]
  constructor
  · intro x
    rw [vars_eq, vars_eq n', hv, hfun]
    split
    · rfl
    · simp only [List.mem_append, hparts.1]
  · rw [functions_eq, functions_eq n', hf, hfun, hparts.2]

end Node

theorem Stmt.varNamesEach_eq (ss : List (Stmt ι)) :
    Stmt.varNamesEach ss = ss.flatMap Stmt.varNames := by
  induction ss with
  | nil => rfl
  | cons s ss ih => rw [Stmt.varNamesEach, ih, List.flatMap_cons]

theorem Section.varNamesEach_eq (ss : List (Section ι)) :
    Section.varNamesEach ss = ss.flatMap fun s => s.body.varNames := by
  induction ss with
  | nil => rfl
  | cons s ss ih =>
    cases s
    rw [Section.varNamesEach, ih, List.flatMap_cons]

theorem Block.varNames_eq (b : Block ι) :
    b.varNames = b.statements.items.flatMap Stmt.varNames := by
  obtain ⟨_, _, ss⟩ := b
  rw [Block.varNames, Stmt.varNamesEach_eq]

theorem Stmt.declaresFunctionEach_eq (ss : List (Stmt ι)) :
    Stmt.declaresFunctionEach ss = ss.any Stmt.declaresFunction := by
  induction ss with
  | nil => rfl
  | cons s ss ih => rw [Stmt.declaresFunctionEach, ih, List.any_cons]

theorem Section.declaresFunctionEach_eq (ss : List (Section ι)) :
    Section.declaresFunctionEach ss = ss.any fun s => s.body.declaresFunction := by
  induction ss with
  | nil => rfl
  | cons s ss ih =>
    cases s
    rw [Section.declaresFunctionEach, ih, List.any_cons]

theorem Block.declaresFunction_eq (b : Block ι) :
    b.declaresFunction = b.statements.items.any Stmt.declaresFunction := by
  obtain ⟨_, _, ss⟩ := b
  rw [Block.declaresFunction, Stmt.declaresFunctionEach_eq]

namespace Node

/-- What the hoisting walk lists from an object of any kind on. -/
def hoistedVars : Node ι → List String
  | ⟨.stmt, s⟩ => s.varNames
  | ⟨.block, b⟩ => b.varNames
  | ⟨.stmts, l⟩ => l.items.flatMap Stmt.varNames
  | ⟨.caseSection, s⟩ => s.body.varNames
  | ⟨.sections, l⟩ => l.items.flatMap fun s => s.body.varNames
  | ⟨.catchClause, c⟩ => c.body.varNames
  | ⟨.declaration, d⟩ => [d.name]
  | ⟨.declarations, l⟩ => l.items.map (·.name)
  | _ => []

/-- Whether the hoisting walk finds a function from an object of any kind on. -/
def hoistsFunction : Node ι → Bool
  | ⟨.stmt, s⟩ => s.declaresFunction
  | ⟨.block, b⟩ => b.declaresFunction
  | ⟨.stmts, l⟩ => l.items.any Stmt.declaresFunction
  | ⟨.caseSection, s⟩ => s.body.declaresFunction
  | ⟨.sections, l⟩ => l.items.any fun s => s.body.declaresFunction
  | ⟨.catchClause, c⟩ => c.body.declaresFunction
  | _ => false

section Layers

attribute [local simp] own head ExprShape.head StmtShape.head isFunction ownVars ownFunctions parts
  StmtShape.parts ofOption hoistedVars hoistsFunction

theorem stmt_varNames_eq (o : ι) (s : StmtShape ι) : s.varNames =
    ownVars ⟨.stmt, .node o s⟩ ++
      if isFunction ⟨.stmt, .node o s⟩ then [] else s.parts.flatMap hoistedVars := by
  cases s
  case forLoop i c t b =>
    cases i <;> cases c <;> cases t <;> simp [StmtShape.varNames, Stmt.varNames?]
  case ifElse c t e => cases e <;> simp [StmtShape.varNames, Block.varNames?]
  case tryCatch b h c =>
    rcases h with _ | ⟨_, _, _⟩ <;> cases c <;>
      simp [StmtShape.varNames, CatchClause.varNames?, Block.varNames?]
  case switch d ss =>
    cases ss
    simp [StmtShape.varNames, Section.varNamesEach_eq]
  case ret v | yield v => cases v <;> simp [StmtShape.varNames]
  all_goals simp [StmtShape.varNames]

theorem hoistedVars_eq (n : Node ι) :
    n.hoistedVars = n.ownVars ++ if n.isFunction then [] else n.parts.flatMap hoistedVars := by
  obtain ⟨k, x⟩ := n
  cases k
  case expr => rcases x with ⟨_, _ | _⟩ <;> simp [ExprShape.parts]
  case stmt =>
    cases x with
    | block b => simp [Stmt.varNames, Block.varNames_eq]
    | node o s => exact stmt_varNames_eq o s
  case label => cases x <;> rfl
  case declaration => rcases x with ⟨_, _, _ | _⟩ <;> rfl
  case declarations =>
    simp only [hoistedVars, parts, List.flatMap_map]
    exact List.map_eq_flatMap
  all_goals simp [List.flatMap_map, Block.varNames_eq]

theorem stmt_declaresFunction_eq (o : ι) (s : StmtShape ι) : s.declaresFunction =
    (!(ownFunctions ⟨.stmt, .node o s⟩).isEmpty ||
      !isFunction ⟨.stmt, .node o s⟩ && s.parts.any hoistsFunction) := by
  cases s
  case forLoop i c t b =>
    cases i <;> cases c <;> cases t <;> simp [StmtShape.declaresFunction, Stmt.declaresFunction?]
  case ifElse c t e => cases e <;> simp [StmtShape.declaresFunction, Block.declaresFunction?]
  case tryCatch b h c =>
    rcases h with _ | ⟨_, _, _⟩ <;> cases c <;>
      simp [StmtShape.declaresFunction, CatchClause.declaresFunction?, Block.declaresFunction?,
        Bool.or_assoc]
  case switch d ss =>
    cases ss
    simp [StmtShape.declaresFunction, Section.declaresFunctionEach_eq]
  case ret v | yield v => cases v <;> simp [StmtShape.declaresFunction]
  all_goals simp [StmtShape.declaresFunction]

theorem hoistsFunction_eq (n : Node ι) : n.hoistsFunction =
    (!n.ownFunctions.isEmpty || !n.isFunction && n.parts.any hoistsFunction) := by
  obtain ⟨k, x⟩ := n
  cases k
  case expr => rcases x with ⟨_, _ | _⟩ <;> simp [ExprShape.parts]
  case stmt =>
    cases x with
    | block b => simp [Stmt.declaresFunction, Block.declaresFunction_eq]
    | node o s => exact stmt_declaresFunction_eq o s
  case label => cases x <;> rfl
  case declaration => rcases x with ⟨_, _, _ | _⟩ <;> rfl
  all_goals simp [Function.comp_def, Block.declaresFunction_eq]

end Layers

theorem vars_eq_hoistedVars (n : Node ι) : n.vars = n.hoistedVars := by
  induction n using Node.induction with
  | step n ih => rw [vars_eq, hoistedVars_eq, List.flatMap_congr ih]

theorem functions_eq_nil_iff (n : Node ι) : n.functions = [] ↔ n.hoistsFunction = false := by
  induction n using Node.induction with
  | step n ih =>
    rw [functions_eq, hoistsFunction_eq]
    cases n.isFunction <;> simp +contextual [ih, List.flatMap_eq_nil_iff]

end Node

end ScriptTree
