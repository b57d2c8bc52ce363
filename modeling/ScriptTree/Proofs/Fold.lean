import ScriptTree.Fold
import ScriptTree.Proofs.Scope
import ScriptTree.Proofs.Traversal

namespace ScriptTree.Fold

open Node

section Rules

variable {ι : Type}

/-- What an expression may be answered by: the value of a constant operator, the branch of a choice
that is made, and the comma that evaluates to the expression. -/
inductive ExprRule : Expr ι → Expr ι → Prop
  | binary {op c d v o o₁ o₂ o'} : Fold.binary op c d = some v →
      ExprRule ⟨o, .binary op ⟨o₁, .constant c⟩ ⟨o₂, .constant d⟩⟩ ⟨o', .constant v⟩
  | unary {op c v o o₁ o'} : Fold.unary op c = some v →
      ExprRule ⟨o, .unary op ⟨o₁, .constant c⟩⟩ ⟨o', .constant v⟩
  | whenTrue {o o₁ a b} : ExprRule ⟨o, .conditional ⟨o₁, .constant (.bool true)⟩ a b⟩ a
  | whenFalse {o o₁ a b} : ExprRule ⟨o, .conditional ⟨o₁, .constant (.bool false)⟩ a b⟩ b
  | comma {e o o₁ o₂} : ExprRule e ⟨o, .comma ⟨o₁, [⟨o₂, .constant (.number 0)⟩, e]⟩⟩

/-- The branch of an `if` that runs and the one that does not. -/
def branches (value : Bool) (thenBranch : Block ι) (elseBranch : Option (Block ι)) :
    Option (Block ι) × Option (Block ι) :=
  if value then (some thenBranch, elseBranch) else (elseBranch, some thenBranch)

def branchVars (b : Option (Block ι)) : List String := (ofOption .block b).flatMap vars

def branchFunctions (b : Option (Block ι)) : List String := (ofOption .block b).flatMap functions

/-- A `var` statement that declares the names in order, without values. -/
inductive Declares (names : List String) : Stmt ι → Prop
  | statement {o l} : l.items.map (·.name) = names → (∀ d ∈ l.items, d.init = none) →
      Declares names (.node o (.vars l))

/-- What is left of a branch that does not run: a declaration of the names that it binds, each once,
if it binds any. -/
inductive Leaves (dead : Option (Block ι)) : List (Stmt ι) → Prop
  | nothing : branchVars dead = [] → Leaves dead []
  | declaration {s} : branchVars dead ≠ [] → Declares (branchVars dead).eraseDups s →
      Leaves dead [s]

/-- What an `if` with a known test may be answered by, where the branch that does not run declares
no function. -/
inductive StmtRule : Stmt ι → Stmt ι → Prop
  | live {o o₁ value t e live dead rest b} : branches value t e = (some live, dead) →
      branchFunctions dead = [] → Leaves dead rest →
      b.statements.items = live.statements.items ++ rest →
      StmtRule (.node o (.ifElse ⟨o₁, .constant (.bool value)⟩ t e)) (.block b)
  | declaration {o o₁ value t e dead s} : branches value t e = (none, dead) →
      branchFunctions dead = [] → Leaves dead [s] →
      StmtRule (.node o (.ifElse ⟨o₁, .constant (.bool value)⟩ t e)) s
  | empty {o o₁ value t e dead o'} : branches value t e = (none, dead) →
      branchFunctions dead = [] → Leaves dead [] →
      StmtRule (.node o (.ifElse ⟨o₁, .constant (.bool value)⟩ t e)) (.node o' .empty)

theorem eq_constant {e : Expr ι} {c : Constant} (h : e.asConstant? = some c) :
    e = ⟨e.origin, .constant c⟩ := by
  obtain ⟨o, s⟩ := e
  cases s <;> cases h
  rfl

theorem eq_bool {e : Expr ι} {value : Bool} (h : asBool? e = some value) :
    e = ⟨e.origin, .constant (.bool value)⟩ := by
  unfold asBool? at h
  split at h
  · obtain rfl := Option.some.inj h
    exact eq_constant ‹_›
  · exact absurd h nofun

theorem varNames?_eq (b : Option (Block ι)) : Block.varNames? b = branchVars b := by
  cases b with
  | none => rfl
  | some b =>
    have hsingle : branchVars (some b) = vars ⟨.block, b⟩ := List.flatMap_singleton vars _
    rw [hsingle]
    exact (vars_eq_hoistedVars ⟨.block, b⟩).symm

theorem declaresFunction?_eq_false_iff (b : Option (Block ι)) :
    Block.declaresFunction? b = false ↔ branchFunctions b = [] := by
  cases b with
  | none => exact iff_of_true rfl rfl
  | some b =>
    have hsingle : branchFunctions (some b) = functions ⟨.block, b⟩ :=
      List.flatMap_singleton functions _
    rw [hsingle]
    exact (functions_eq_nil_iff ⟨.block, b⟩).symm

end Rules

/-- The value that stands for an operator with constant operands, and the branch that stands for a
choice with a constant test. -/
inductive Valued : Expr Origin → Expr Origin → Prop
  | binary {op c d v o o₁ o₂} : Fold.binary op c d = some v →
      Valued ⟨o, .binary op ⟨o₁, .constant c⟩ ⟨o₂, .constant d⟩⟩ ⟨o.remade, .constant v⟩
  | unary {op c v o o₁} : Fold.unary op c = some v →
      Valued ⟨o, .unary op ⟨o₁, .constant c⟩⟩ ⟨o.remade, .constant v⟩
  | choice {o o₁ value a b} :
      Valued ⟨o, .conditional ⟨o₁, .constant (.bool value)⟩ a b⟩ (if value then a else b)

theorem value?_valued {z v : Expr Origin} (h : value? z = some v) : Valued z v := by
  obtain ⟨o, s⟩ := z
  cases s <;> simp only [value?, reduceCtorEq, Option.bind_eq_bind, Option.bind_eq_some_iff,
    Option.pure_def, Option.some.injEq] at h
  case binary op l r =>
    obtain ⟨c, hc, d, hd, v, hv, rfl⟩ := h
    rw [eq_constant hc, eq_constant hd]
    exact .binary hv
  case unary op x =>
    obtain ⟨c, hc, v, hv, rfl⟩ := h
    rw [eq_constant hc]
    exact .unary hv
  case conditional c t f =>
    obtain ⟨value, hc, rfl⟩ := h
    rw [eq_bool hc]
    exact .choice

theorem value?_rule {z v : Expr Origin} (h : value? z = some v) : ExprRule z v := by
  cases value?_valued h with
  | binary hv => exact .binary hv
  | unary hv => exact .unary hv
  | @choice _ _ value =>
    cases value
    · exact .whenFalse
    · exact .whenTrue

/-- What folds becomes a constant in its place, or is given up for one of its parts. -/
theorem value?_cases {z v : Expr Origin} (h : value? z = some v) :
    (∃ c, v = ⟨z.origin.remade, .constant c⟩) ∨ (⟨.expr, v⟩ : Node Origin) ∈ parts ⟨.expr, z⟩ := by
  cases value?_valued h with
  | @binary _ _ _ c => exact .inl ⟨c, rfl⟩
  | @unary _ _ c => exact .inl ⟨c, rfl⟩
  | @choice _ _ value =>
    refine .inr ?_
    cases value <;> simp [parts, ExprShape.parts]

theorem declare_declares (o : Origin) (names : List String) : Declares names (declare o names) := by
  apply Declares.statement
  · apply List.ext_getElem <;> simp
  · intro d hd
    obtain ⟨i, hi, rfl⟩ := List.mem_mapIdx.1 hd
    rfl

theorem leaves_of_nil {dead : Option (Block Origin)}
    (h : (Block.varNames? dead).eraseDups = []) : Leaves dead [] := by
  apply Leaves.nothing
  rw [varNames?_eq] at h
  rcases hn : branchVars dead with _ | ⟨x, xs⟩
  · rfl
  · rw [hn, List.eraseDups_cons] at h
    exact absurd h nofun

theorem leaves_declare {dead : Option (Block Origin)} (o : Origin)
    (h : (Block.varNames? dead).eraseDups ≠ []) :
    Leaves dead [declare o (Block.varNames? dead).eraseDups] := by
  rw [varNames?_eq] at h ⊢
  have hne : branchVars dead ≠ [] := by
    intro hn
    rw [hn] at h
    exact h rfl
  exact .declaration hne (declare_declares o _)

/-- What stands for an `if` in the place `o` of which one branch is live and the other dead. -/
inductive Selected (o : Origin) : Option (Block Origin) → Option (Block Origin) → Stmt Origin → Prop
  | live {b dead} : (Block.varNames? dead).eraseDups = [] → Selected o (some b) dead (.block b)
  | extended {b dead} : (Block.varNames? dead).eraseDups ≠ [] →
      Selected o (some b) dead (.block ⟨.made o 0, ⟨.made o 1,
        b.statements.items ++ [declare o (Block.varNames? dead).eraseDups]⟩⟩)
  | empty {dead} : (Block.varNames? dead).eraseDups = [] →
      Selected o none dead (.node (.made o 0) .empty)
  | declaration {dead} : (Block.varNames? dead).eraseDups ≠ [] →
      Selected o none dead (declare o (Block.varNames? dead).eraseDups)

theorem selectBranch_cases {o : Origin} {live dead : Option (Block Origin)} {y : Stmt Origin}
    (h : selectBranch o live dead = some y) :
    Block.declaresFunction? dead = false ∧ Selected o live dead y := by
  unfold selectBranch at h
  split at h
  · exact absurd h nofun
  · refine ⟨Bool.eq_false_iff.2 ‹_›, ?_⟩
    split at h <;> obtain rfl := Option.some.inj h
    · exact .live ‹_›
    · exact .extended ‹_›
    · exact .empty ‹_›
    · exact .declaration ‹_›

theorem selectBranch_rule {o o₁ : Origin} {value : Bool} {t : Block Origin}
    {e live dead : Option (Block Origin)} {y : Stmt Origin}
    (hb : branches value t e = (live, dead)) (h : selectBranch o live dead = some y) :
    StmtRule (.node o (.ifElse ⟨o₁, .constant (.bool value)⟩ t e)) y := by
  obtain ⟨hfunction, h⟩ := selectBranch_cases h
  have hf := (declaresFunction?_eq_false_iff dead).1 hfunction
  cases h with
  | live hnames => exact .live hb hf (leaves_of_nil hnames) (List.append_nil _).symm
  | extended hnames => exact .live hb hf (leaves_declare o hnames) rfl
  | empty hnames => exact .empty hb hf (leaves_of_nil hnames)
  | declaration hnames => exact .declaration hb hf (leaves_declare o hnames)

/-- What a statement that folds looks like, and what is selected of it. -/
theorem branch?_cases {z y : Stmt Origin} (h : branch? z = some y) :
    ∃ o test value t e live dead, z = .node o (.ifElse test t e) ∧ asBool? test = some value ∧
      branches value t e = (live, dead) ∧ selectBranch o live dead = some y := by
  unfold branch? at h
  split at h
  · rename_i o test t e
    obtain ⟨value, hv, h⟩ := Option.bind_eq_some_iff.1 h
    cases value
    · exact ⟨o, test, false, t, e, e, some t, rfl, hv, rfl, h⟩
    · exact ⟨o, test, true, t, e, some t, e, rfl, hv, rfl, h⟩
  · exact absurd h nofun

theorem branch?_of_test {o : Origin} {c : Expr Origin} {value : Bool} (h : asBool? c = some value)
    (t : Block Origin) (e : Option (Block Origin)) :
    branch? (.node o (.ifElse c t e)) =
      selectBranch o (branches value t e).1 (branches value t e).2 := by
  cases value <;> simp [branch?, branches, h]

theorem branch?_rule {z y : Stmt Origin} (h : branch? z = some y) : StmtRule z y := by
  obtain ⟨o, test, value, t, e, live, dead, rfl, hv, hb, h⟩ := branch?_cases h
  rw [eq_bool hv]
  exact selectBranch_rule hb h

theorem mem_parts_of_branches {ι : Type} {o : ι} {c : Expr ι} {value : Bool} {t b : Block ι}
    {e dead : Option (Block ι)} (hb : branches value t e = (some b, dead)) :
    (⟨.block, b⟩ : Node ι) ∈ parts ⟨.stmt, .node o (.ifElse c t e)⟩ := by
  cases value <;> obtain ⟨hlive, -⟩ := Prod.mk.inj hb
  · rw [hlive]
    simp [parts, StmtShape.parts, ofOption]
  · obtain rfl := Option.some.inj hlive
    simp [parts, StmtShape.parts]

theorem visit_expr (e : Expr Origin) (walk : StateM Nat (Expr Origin)) (s : Nat) :
    (transform.visit .expr e walk s).1 =
      (value? (walk s).1).getD (guardCallee e (walk s).1) := by
  rcases hw : walk s with ⟨z, t⟩
  simp only [transform, bind, StateT.bind, hw]
  cases value? z <;> rfl

theorem visit_stmt (x : Stmt Origin) (walk : StateM Nat (Stmt Origin)) (s : Nat) :
    (transform.visit .stmt x walk s).1 = (branch? (walk s).1).getD (walk s).1 := by
  rcases hw : walk s with ⟨z, t⟩
  simp only [transform, bind, StateT.bind, hw]
  cases branch? z <;> rfl

/-- A relation that every step of folding respects relates every object to its folded version; `z`
is an object whose children are folded. -/
theorem relates {R : Node Origin → Node Origin → Prop} (refl : ∀ n, R n n)
    (block : ∀ b b', R ⟨.block, b⟩ ⟨.block, b'⟩ → R ⟨.stmt, .block b⟩ ⟨.stmt, .block b'⟩)
    (aggregate : ∀ n z : Node Origin, n.kind ≠ .expr → n.kind ≠ .stmt → n.Alike z →
      List.Forall₂ R n.parts z.parts → R n z)
    (value : ∀ e z v, Alike ⟨.expr, e⟩ ⟨.expr, z⟩ →
      List.Forall₂ R (parts ⟨.expr, e⟩) (parts ⟨.expr, z⟩) → value? z = some v →
      R ⟨.expr, e⟩ ⟨.expr, v⟩)
    (expr : ∀ e z, Alike ⟨.expr, e⟩ ⟨.expr, z⟩ →
      List.Forall₂ R (parts ⟨.expr, e⟩) (parts ⟨.expr, z⟩) → value? z = none →
      R ⟨.expr, e⟩ ⟨.expr, guardCallee e z⟩)
    (branch : ∀ x z y, Alike ⟨.stmt, x⟩ ⟨.stmt, z⟩ →
      List.Forall₂ R (parts ⟨.stmt, x⟩) (parts ⟨.stmt, z⟩) → branch? z = some y →
      R ⟨.stmt, x⟩ ⟨.stmt, y⟩)
    (stmt : ∀ x z, Alike ⟨.stmt, x⟩ ⟨.stmt, z⟩ →
      List.Forall₂ R (parts ⟨.stmt, x⟩) (parts ⟨.stmt, z⟩) → R ⟨.stmt, x⟩ ⟨.stmt, z⟩)
    (n : Node Origin) (folded : Nat) : R n (transform.node n folded).1 := by
  refine transform.relates refl block ?_ n folded
  intro k x walk hwalk s
  obtain ⟨ha, hp⟩ := hwalk s
  cases k
  case expr =>
    rw [visit_expr]
    cases hv : value? (walk s).1 with
    | some v => exact value x _ v ha hp hv
    | none => exact expr x _ ha hp hv
  case stmt =>
    rw [visit_stmt]
    cases hb : branch? (walk s).1 with
    | some y => exact branch x _ y ha hp hb
    | none => exact stmt x _ ha hp
  all_goals exact aggregate _ _ nofun nofun ha hp

theorem guardCallee_call (o o' : Origin) (c c' : Expr Origin)
    (es es' : NodeList Origin (Expr Origin)) :
    guardCallee ⟨o, .call c es⟩ ⟨o', .call c' es'⟩ =
      if isMemberReference c' && !isMemberReference c then
        ⟨o', .call ⟨.made o 1, .comma ⟨.made o 2, [⟨.made o 3, .constant (.number 0)⟩, c']⟩⟩ es'⟩
      else ⟨o', .call c' es'⟩ :=
  rfl

theorem guardCallee_of_ne_call {e z : Expr Origin} (h : ∀ c es, e.shape ≠ .call c es) :
    guardCallee e z = z := by
  unfold guardCallee
  split
  · exact absurd ‹_› (h _ _)
  · rfl

/-- A guard is put only around a callee that became a member reference. -/
theorem guardCallee_cases (e z : Expr Origin) :
    guardCallee e z = z ∨ ∃ o o' c c' es es', e = ⟨o, .call c es⟩ ∧ z = ⟨o', .call c' es'⟩ ∧
      isMemberReference c' = true ∧ isMemberReference c = false ∧ guardCallee e z =
        ⟨o', .call ⟨.made o 1, .comma ⟨.made o 2, [⟨.made o 3, .constant (.number 0)⟩, c']⟩⟩
          es'⟩ := by
  by_cases hcall : ∃ c es c' es', e.shape = .call c es ∧ z.shape = .call c' es'
  · obtain ⟨o, s⟩ := e
    obtain ⟨o', s'⟩ := z
    obtain ⟨c, es, c', es', rfl, rfl⟩ := hcall
    rw [guardCallee_call]
    split
    · rename_i hguard
      obtain ⟨hnew, hold⟩ := Bool.and_eq_true_iff.1 hguard
      exact .inr ⟨o, o', c, c', es, es', rfl, rfl, hnew, by simpa using hold, rfl⟩
    · exact .inl rfl
  · refine .inl ?_
    unfold guardCallee
    split
    · exact absurd ⟨_, _, _, _, ‹_›, ‹_›⟩ hcall
    · rfl

theorem exists_call_of_alike {ι κ : Type} {o : ι} {c : Expr ι}
    {es : NodeList ι (Expr ι)} {z : Expr κ}
    (h : Alike ⟨.expr, ⟨o, .call c es⟩⟩ ⟨.expr, z⟩) : ∃ o' c' es', z = ⟨o', .call c' es'⟩ := by
  have hs := alike_expr_iff.1 h
  obtain ⟨o', s⟩ := z
  cases s <;> simp only [ExprShape.head, reduceCtorEq] at hs
  exact ⟨_, _, _, rfl⟩

theorem exists_ifElse_of_alike {ι : Type} {o : ι} {c : Expr ι} {t : Block ι}
    {e : Option (Block ι)} {z : Stmt ι}
    (h : Alike ⟨.stmt, .node o (.ifElse c t e)⟩ ⟨.stmt, z⟩) :
    ∃ o c t e, z = .node o (.ifElse c t e) := by
  cases z with
  | block b => exact absurd h nofun
  | node o s =>
    cases s
    case ifElse c t e => exact ⟨_, _, _, _, rfl⟩
    all_goals exact absurd h nofun

section Bindings

variable {ι : Type}

theorem Declares.bindings {names : List String} {s : Stmt ι} (h : Declares names s) :
    vars ⟨.stmt, s⟩ = names ∧ functions ⟨.stmt, s⟩ = [] := by
  cases h with
  | statement hn _ => exact ⟨(vars_eq_hoistedVars _).trans hn, (functions_eq_nil_iff _).2 rfl⟩

theorem Leaves.bindings {dead : Option (Block ι)} {rest : List (Stmt ι)} (h : Leaves dead rest) :
    (∀ x, x ∈ rest.flatMap (fun s => vars ⟨.stmt, s⟩) ↔ x ∈ branchVars dead) ∧
      rest.flatMap (fun s => functions ⟨.stmt, s⟩) = [] := by
  cases h with
  | nothing hn => simp [hn]
  | declaration _ hs =>
    obtain ⟨hv, hf⟩ := hs.bindings
    simp [hv, hf]

theorem block_bindings (b : Block ι) :
    vars ⟨.block, b⟩ = b.statements.items.flatMap (fun s => vars ⟨.stmt, s⟩) ∧
      functions ⟨.block, b⟩ = b.statements.items.flatMap fun s => functions ⟨.stmt, s⟩ := by
  rw [vars_of_parts ⟨.block, b⟩ rfl rfl, functions_of_parts ⟨.block, b⟩ rfl rfl]
  simp only [parts, List.flatMap_singleton]
  rw [vars_of_parts ⟨.stmts, _⟩ rfl rfl, functions_of_parts ⟨.stmts, _⟩ rfl rfl]
  exact ⟨List.flatMap_map _ _ _, List.flatMap_map _ _ _⟩

theorem branch_bindings (b : Block ι) :
    branchVars (some b) = vars ⟨.block, b⟩ ∧ branchFunctions (some b) = functions ⟨.block, b⟩ :=
  ⟨List.flatMap_singleton vars _, List.flatMap_singleton functions _⟩

/-- A block binds what it binds as a statement. -/
theorem block_sameBindings (b : Block ι) : SameBindings ⟨.stmt, .block b⟩ ⟨.block, b⟩ := by
  constructor
  · intro x
    rw [vars_of_parts ⟨.stmt, .block b⟩ rfl rfl, vars_of_parts ⟨.block, b⟩ rfl rfl]
    rfl
  · rw [functions_of_parts ⟨.stmt, .block b⟩ rfl rfl, functions_of_parts ⟨.block, b⟩ rfl rfl]
    rfl

theorem expr_bindings (e : Expr ι) : vars ⟨.expr, e⟩ = [] ∧ functions ⟨.expr, e⟩ = [] :=
  ⟨vars_eq_hoistedVars _, (functions_eq_nil_iff _).2 rfl⟩

theorem ifElse_bindings (o : ι) (test : Expr ι) (t : Block ι) (e : Option (Block ι)) :
    vars ⟨.stmt, .node o (.ifElse test t e)⟩ = branchVars (some t) ++ branchVars e ∧
      functions ⟨.stmt, .node o (.ifElse test t e)⟩ =
        branchFunctions (some t) ++ branchFunctions e := by
  obtain ⟨hv, hf⟩ := expr_bindings test
  rw [vars_of_parts ⟨.stmt, .node o (.ifElse test t e)⟩ rfl rfl,
    functions_of_parts ⟨.stmt, .node o (.ifElse test t e)⟩ rfl rfl]
  simp only [parts, StmtShape.parts, List.flatMap_cons, hv, hf, List.nil_append,
    (branch_bindings t).1, (branch_bindings t).2]
  exact ⟨rfl, rfl⟩

theorem branches_bindings {value : Bool} {o : ι} {c : Expr ι} {t : Block ι}
    {e live dead : Option (Block ι)} (hb : branches value t e = (live, dead))
    (hf : branchFunctions dead = []) :
    (∀ x, x ∈ vars ⟨.stmt, .node o (.ifElse c t e)⟩ ↔
        x ∈ branchVars live ∨ x ∈ branchVars dead) ∧
      functions ⟨.stmt, .node o (.ifElse c t e)⟩ = branchFunctions live := by
  rw [(ifElse_bindings o c t e).1, (ifElse_bindings o c t e).2]
  cases value <;> obtain ⟨rfl, rfl⟩ := Prod.mk.inj hb
  · exact ⟨fun x => List.mem_append.trans or_comm, by rw [hf, List.nil_append]⟩
  · exact ⟨fun x => List.mem_append, by rw [hf, List.append_nil]⟩

theorem StmtRule.sameBindings {z y : Stmt ι} (h : StmtRule z y) :
    SameBindings ⟨.stmt, z⟩ ⟨.stmt, y⟩ := by
  cases h with
  | @live o o₁ value t e live dead rest b hb hf hl hitems =>
    obtain ⟨hv, hf⟩ := branches_bindings (o := o) (c := ⟨o₁, .constant (.bool value)⟩) hb hf
    obtain ⟨hvl, hfl⟩ := hl.bindings
    -- what is left of the dead branch binds its names, and there is no function in either
    apply SameBindings.trans ?_ (block_sameBindings b).symm
    constructor
    · intro x
      rw [hv, (branch_bindings live).1, (block_bindings live).1, (block_bindings b).1, hitems,
        List.flatMap_append, List.mem_append, hvl]
    · rw [hf, (branch_bindings live).2, (block_bindings live).2, (block_bindings b).2, hitems,
        List.flatMap_append, hfl, List.append_nil]
  | @declaration o o₁ value t e dead s hb hf hl =>
    obtain ⟨hv, hf⟩ := branches_bindings (o := o) (c := ⟨o₁, .constant (.bool value)⟩) hb hf
    obtain ⟨hvl, hfl⟩ := hl.bindings
    rw [List.flatMap_singleton] at hfl
    simp only [List.flatMap_singleton] at hvl
    exact ⟨fun x => by simp [hv, hvl, branchVars, ofOption], hf.trans hfl.symm⟩
  | @empty o o₁ value t e dead o' hb hf hl =>
    obtain ⟨hv, hf⟩ := branches_bindings (o := o) (c := ⟨o₁, .constant (.bool value)⟩) hb hf
    cases hl with
    | nothing hn =>
      refine ⟨fun x => ?_, hf.trans ((functions_eq_nil_iff _).2 rfl).symm⟩
      rw [hv, hn, vars_eq_hoistedVars]
      simp [branchVars, ofOption, hoistedVars, Stmt.varNames, StmtShape.varNames]

theorem expr_sameBindings (e e' : Expr ι) : SameBindings ⟨.expr, e⟩ ⟨.expr, e'⟩ := by
  obtain ⟨hv, hf⟩ := expr_bindings e
  obtain ⟨hv', hf'⟩ := expr_bindings e'
  exact ⟨fun x => by rw [hv, hv'], by rw [hf, hf']⟩

end Bindings

/-- Folding keeps the names that each function scope binds, and its functions in order. -/
theorem fold_sameBindings (p : Program Origin) (folded : Nat) :
    SameBindings ⟨.stmts, p⟩ ⟨.stmts, (transform.stmts p folded).1⟩ := by
  refine relates (R := SameBindings) .refl ?_ ?_ ?_ ?_ ?_ ?_ ⟨.stmts, p⟩ folded
  · intro b b' h
    exact (block_sameBindings b).trans (h.trans (block_sameBindings b').symm)
  · intro n z _ _ ha hp
    exact .of_parts ha hp
  -- an expression binds nothing, whatever stands in its place
  · intro e z v _ _ _
    exact expr_sameBindings e v
  · intro e z _ _ _
    exact expr_sameBindings e _
  · intro x z y ha hp hb
    exact (SameBindings.of_parts ha hp).trans (branch?_rule hb).sameBindings
  · intro x z ha hp
    exact .of_parts ha hp

end ScriptTree.Fold
