import ScriptTree.Proofs.FoldNormalForm

namespace ScriptTree

open Node

variable {ι : Type}

mutual

/-- The value that an expression has by the operators over constants and the choices in it. -/
def Expr.evaluate : Expr ι → Option Constant
  | ⟨_, s⟩ => s.evaluate

def ExprShape.evaluate : ExprShape ι → Option Constant
  | .constant c => some c
  | .binary op l r => do Fold.binary op (← l.evaluate) (← r.evaluate)
  | .unary op x => do Fold.unary op (← x.evaluate)
  | .conditional c t f =>
    match c.evaluate with
    | some (.bool value) => if value then t.evaluate else f.evaluate
    | _ => none
  | _ => none

end

namespace Node

def evaluate : Node ι → Option Constant
  | ⟨.expr, e⟩ => e.evaluate
  | _ => none

/-- The parts that are left when an object with a value is given up for it, and one with a test that
has a value for a branch. -/
def lastingParts (n : Node ι) : List (Node ι) :=
  match n with
  | ⟨.expr, ⟨_, .conditional c t f⟩⟩ =>
    match c.evaluate with
    | some (.bool value) => [⟨.expr, if value then t else f⟩]
    | _ => n.parts
  | ⟨.expr, e⟩ => if e.evaluate.isSome then [] else n.parts
  | ⟨.stmt, .node _ (.ifElse c t e)⟩ =>
    match c.evaluate with
    | some (.bool value) =>
      if Block.declaresFunction? (Fold.branches value t e).2 then n.parts
      else ofOption .block (Fold.branches value t e).1
    | _ => n.parts
  | _ => n.parts

theorem mem_parts_of_lasting (n : Node ι) : ∀ c ∈ n.lastingParts, c ∈ n.parts := by
  intro c hc
  unfold lastingParts at hc
  split at hc
  · split at hc
    · rename_i value _
      cases value <;> simp_all [parts, ExprShape.parts]
    · exact hc
  · split at hc
    · exact absurd hc List.not_mem_nil
    · exact hc
  · split at hc
    · split at hc
      · exact hc
      · obtain ⟨b, hb, rfl⟩ := mem_ofOption.1 hc
        exact Fold.mem_parts_of_branches (Prod.ext hb rfl)
    · exact hc
  · exact hc

/-- A choice of parts of every object. -/
structure Selection (ι : Type) where
  parts : Node ι → List (Node ι)
  mem_parts : ∀ n, ∀ c ∈ parts n, c ∈ n.parts

def Selection.all : Selection ι := ⟨Node.parts, fun _ _ => id⟩

def Selection.lasting : Selection ι := ⟨lastingParts, mem_parts_of_lasting⟩

end Node

namespace Node

/-- Neither a function, nor a statement that jumps, yields or has a label. -/
def silent : Node ι → Bool := own fun
  | ⟨.expr, ⟨_, .function ..⟩⟩ | ⟨.stmt, .node _ (.function ..)⟩
  | ⟨.stmt, .node _ (.labelled ..)⟩ | ⟨.stmt, .node _ (.goto _)⟩
  | ⟨.stmt, .node _ (.breakTo _)⟩ | ⟨.stmt, .node _ (.continueTo _)⟩
  | ⟨.stmt, .node _ (.yield _)⟩ => false
  | _ => true

end Node

/-- A way to gather something from a tree: what is found in the parts of an object is joined, and
the object adds to it or closes it off, unless it is silent. -/
structure Gathering (α : Type) where
  join : List α → α
  around : Node Unit → α → α
  join_singleton : ∀ a, join [a] = a
  join_nil_cons : ∀ as, join (join [] :: as) = join as
  join_append_nil : ∀ as, join (as ++ [join []]) = join as
  around_silent : ∀ n, n.silent → around n = id

namespace Gathering

variable {α : Type} (G : Gathering α) {S : Selection ι} {n c : Node ι}

/-- What is found in an object as far as the selected parts go. -/
def gather (S : Selection ι) (n : Node ι) : α :=
  G.around n.head (G.join ((S.parts n).attach.map fun c => gather S c.1))
termination_by n.size
decreasing_by exact size_lt_of_mem_parts (S.mem_parts n _ c.2)

theorem gather_eq (S : Selection ι) (n : Node ι) :
    G.gather S n = G.around n.head (G.join ((S.parts n).map (G.gather S))) := by
  rw [gather]
  simp only [List.map_subtype, List.unattach_attach]

theorem gather_silent (h : n.silent) : G.gather S n = G.join ((S.parts n).map (G.gather S)) := by
  rw [gather_eq, G.around_silent n.head ((own_head _ n).trans h)]
  rfl

theorem gather_single (h : n.silent) (hc : S.parts n = [c]) : G.gather S n = G.gather S c := by
  rw [gather_silent G h, hc]
  exact G.join_singleton _

theorem gather_leaf (h : n.silent) (hparts : S.parts n = []) : G.gather S n = G.join [] := by
  rw [gather_silent G h, hparts]
  rfl

theorem gather_of_silent (h : All (silent · = true) n) : G.gather .all n = G.join [] := by
  induction n using Node.induction with
  | step n ih =>
    have hjoin : ∀ cs ⊆ n.parts, G.join (cs.map (G.gather .all)) = G.join [] := by
      intro cs hcs
      induction cs with
      | nil => rfl
      | cons c cs ihs =>
        obtain ⟨hc, hcs⟩ := List.cons_subset.1 hcs
        rw [List.map_cons, ih c hc (h.part hc), G.join_nil_cons, ihs hcs]
    rw [gather_silent G h.self]
    exact hjoin n.parts (List.Subset.refl _)

end Gathering

namespace Fold

/-- The second object is what folding makes of the first. -/
structure Folds (n n' : Node Origin) : Prop where
  constant : constant? n' = n.evaluate
  bindings : SameBindings n n'
  gather : ∀ {α : Type} (G : Gathering α), G.gather .all n' = G.gather .lasting n

theorem Folds.map_gather {cs cs' : List (Node Origin)} (h : List.Forall₂ Folds cs cs') {α : Type}
    (G : Gathering α) : cs.map (G.gather .lasting) = cs'.map (G.gather .all) :=
  map_eq_map_iff_forall₂.2 (h.imp fun _ _ h => (h.gather G).symm)

theorem Folds.of_parts {n z : Node Origin} (ha : n.Alike z)
    (hp : List.Forall₂ Folds n.parts z.parts) (hconstant : constant? z = n.evaluate)
    (hlasting : n.lastingParts = n.parts) : Folds n z := by
  refine ⟨hconstant, .of_parts ha (hp.imp fun _ _ h => h.bindings), fun G => ?_⟩
  rw [G.gather_eq, G.gather_eq, ← ha]
  change G.around n.head (G.join (z.parts.map _)) =
    G.around n.head (G.join (n.lastingParts.map _))
  rw [hlasting, Folds.map_gather hp]

theorem Folds.evaluate {e e' : Expr Origin} (h : Folds ⟨.expr, e⟩ ⟨.expr, e'⟩) :
    e.evaluate = e'.asConstant? :=
  h.constant.symm

theorem Folds.test {c c' : Expr Origin} (h : Folds ⟨.expr, c⟩ ⟨.expr, c'⟩) (value : Bool) :
    c.evaluate = some (.bool value) ↔ asBool? c' = some value := by
  rw [asBool?_eq_some_iff, h.evaluate]

theorem Folds.block {b b' : Block Origin} (h : Folds ⟨.block, b⟩ ⟨.block, b'⟩) :
    Folds ⟨.stmt, .block b⟩ ⟨.stmt, .block b'⟩ where
  constant := rfl
  bindings := (block_sameBindings b).trans (h.bindings.trans (block_sameBindings b').symm)
  gather G := by
    have hgather := h.gather G
    rw [G.gather_silent rfl, G.gather_silent rfl] at hgather ⊢
    exact hgather

theorem Folds.aggregate {n z : Node Origin} (he : n.kind ≠ .expr) (hs : n.kind ≠ .stmt)
    (ha : n.Alike z) (hp : List.Forall₂ Folds n.parts z.parts) : Folds n z := by
  obtain ⟨k, x⟩ := n
  obtain ⟨k', y⟩ := z
  obtain rfl : k = k' := ha.kind_eq
  cases k
  case expr => exact absurd rfl he
  case stmt => exact absurd rfl hs
  all_goals exact .of_parts ha hp rfl rfl

theorem silent_of_evaluate {e : Expr ι} (h : e.evaluate.isSome) : silent ⟨.expr, e⟩ := by
  obtain ⟨o, s⟩ := e
  cases s <;> first | rfl | exact absurd h nofun

/-- An operator with a value is given up for it. -/
theorem Folds.operator {e : Expr Origin} {o : Origin} {c : Constant} (h : e.evaluate = some c)
    (he : ∀ test t f, e.shape ≠ .conditional test t f) :
    Folds ⟨.expr, e⟩ ⟨.expr, ⟨o, .constant c⟩⟩ := by
  refine ⟨h.symm, expr_sameBindings _ _, fun G => ?_⟩
  have hparts : lastingParts ⟨.expr, e⟩ = [] := by
    obtain ⟨_, s⟩ := e
    cases s
    case conditional test t f => exact absurd rfl (he test t f)
    all_goals simp [lastingParts, h]
  have hsilent := silent_of_evaluate (Option.isSome_of_eq_some h)
  exact (G.gather_leaf rfl rfl).trans (G.gather_leaf hsilent hparts).symm

/-- A choice with a test that has a value is given up for a branch. -/
theorem Folds.choice {o : Origin} {c t f v : Expr Origin} {value : Bool}
    (hc : c.evaluate = some (.bool value))
    (hv : Folds ⟨.expr, if value then t else f⟩ ⟨.expr, v⟩) :
    Folds ⟨.expr, ⟨o, .conditional c t f⟩⟩ ⟨.expr, v⟩ := by
  refine ⟨?_, expr_sameBindings _ v, fun G => ?_⟩
  · refine hv.constant.trans ?_
    simp only [Node.evaluate, Expr.evaluate, ExprShape.evaluate, hc]
    cases value <;> rfl
  · have hparts : Selection.lasting.parts ⟨.expr, ⟨o, .conditional c t f⟩⟩ =
        [⟨.expr, if value then t else f⟩] := by simp only [Selection.lasting, lastingParts, hc]
    exact (hv.gather G).trans (G.gather_single rfl hparts).symm

/-- An expression that folds. -/
theorem Folds.value {e z v : Expr Origin} (ha : Alike ⟨.expr, e⟩ ⟨.expr, z⟩)
    (hp : List.Forall₂ Folds (parts ⟨.expr, e⟩) (parts ⟨.expr, z⟩)) (hv : value? z = some v) :
    Folds ⟨.expr, e⟩ ⟨.expr, v⟩ := by
  obtain ⟨o, s⟩ := e
  have hs := alike_expr_iff.1 ha
  cases value?_valued hv with
  | binary hw =>
    cases s <;> simp only [ExprShape.head, reduceCtorEq] at hs
    case binary op l r =>
      obtain ⟨rfl, -, -⟩ := ExprShape.binary.inj hs
      obtain ⟨hl, hr⟩ : _ ∧ _ := by simpa [parts, ExprShape.parts] using hp
      refine .operator ?_ (by simp)
      simp only [Expr.evaluate, ExprShape.evaluate, hl.evaluate, hr.evaluate]
      exact hw
  | @unary _ c _ _ o₁ hw =>
    cases s <;> simp only [ExprShape.head, reduceCtorEq] at hs
    case unary op x =>
      obtain ⟨rfl, -⟩ := ExprShape.unary.inj hs
      have hx : Folds ⟨.expr, x⟩ ⟨.expr, ⟨o₁, .constant c⟩⟩ := by
        simpa [parts, ExprShape.parts] using hp
      refine .operator ?_ (by simp)
      simp only [Expr.evaluate, ExprShape.evaluate, hx.evaluate]
      exact hw
  | @choice _ _ value =>
    cases s <;> simp only [ExprShape.head, reduceCtorEq] at hs
    case conditional c t f =>
      obtain ⟨hc, ht, hf⟩ : _ ∧ _ ∧ _ := by simpa [parts, ExprShape.parts] using hp
      refine .choice ((hc.test value).2 rfl) ?_
      cases value
      · exact hf
      · exact ht

section Gathered

variable {α : Type} (G : Gathering α)

/-- The comma around a callee adds nothing to what is found in it. -/
theorem comma_gather (o o₁ o₂ : Origin) (c : Expr Origin) :
    G.gather .all ⟨.expr, ⟨o, .comma ⟨o₁, [⟨o₂, .constant (.number 0)⟩, c]⟩⟩⟩ =
      G.gather .all ⟨.expr, c⟩ := by
  have hzero : G.gather .all ⟨.expr, ⟨o₂, .constant (.number 0)⟩⟩ = G.join [] :=
    G.gather_leaf rfl rfl
  have hlist : G.gather .all ⟨.exprs, ⟨o₁, [⟨o₂, .constant (.number 0)⟩, c]⟩⟩ =
      G.gather .all ⟨.expr, c⟩ := by
    rw [G.gather_silent rfl]
    change G.join [G.gather .all ⟨.expr, ⟨o₂, _⟩⟩, _] = _
    rw [hzero, G.join_nil_cons, G.join_singleton]
  exact (G.gather_single rfl rfl).trans hlist

theorem guardCallee_gather (e z : Expr Origin) :
    G.gather .all ⟨.expr, guardCallee e z⟩ = G.gather .all ⟨.expr, z⟩ := by
  obtain hself | ⟨o, o', c, c', es, es', rfl, rfl, -, -, hguard⟩ := guardCallee_cases e z
  · rw [hself]
  · rw [hguard, G.gather_silent rfl, G.gather_silent rfl]
    exact congrArg (fun a => G.join (a :: _)) (comma_gather G _ _ _ c')

end Gathered

theorem guardCallee_constant (e z : Expr Origin) :
    constant? ⟨.expr, guardCallee e z⟩ = constant? ⟨.expr, z⟩ := by
  obtain hself | ⟨o, o', c, c', es, es', rfl, rfl, -, -, hguard⟩ := guardCallee_cases e z
  · rw [hself]
  · rw [hguard]
    rfl

/-- An expression that does not fold. -/
theorem Folds.kept {e z : Expr Origin} (ha : Alike ⟨.expr, e⟩ ⟨.expr, z⟩)
    (hp : List.Forall₂ Folds (parts ⟨.expr, e⟩) (parts ⟨.expr, z⟩)) (hv : value? z = none) :
    Folds ⟨.expr, e⟩ ⟨.expr, z⟩ := by
  obtain ⟨o, s⟩ := e
  obtain ⟨o', t⟩ := z
  have hs := alike_expr_iff.1 ha
  cases s <;> cases t <;> simp only [ExprShape.head, reduceCtorEq] at hs
  case binary.binary op l r op' l' r' =>
    obtain ⟨rfl, -, -⟩ := ExprShape.binary.inj hs
    obtain ⟨hl, hr⟩ : _ ∧ _ := by simpa [parts, ExprShape.parts] using hp
    have hnone : Expr.evaluate ⟨o, .binary op l r⟩ = none := by
      have hop : ∀ c, l'.asConstant? = some c → ∀ d, r'.asConstant? = some d →
          binary op c d = none := by
        refine fun c hc d hd => Option.eq_none_iff_forall_ne_some.2 fun w hw => ?_
        simp [value?, hc, hd, hw] at hv
      simpa [Expr.evaluate, ExprShape.evaluate, hl.evaluate, hr.evaluate] using hop
    exact .of_parts ha hp hnone.symm (by simp [lastingParts, hnone])
  case unary.unary op x op' x' =>
    obtain ⟨rfl, -⟩ := ExprShape.unary.inj hs
    have hx : Folds ⟨.expr, x⟩ ⟨.expr, x'⟩ := by simpa [parts, ExprShape.parts] using hp
    have hnone : Expr.evaluate ⟨o, .unary op x⟩ = none := by
      have hop : ∀ c, x'.asConstant? = some c → unary op c = none := by
        refine fun c hc => Option.eq_none_iff_forall_ne_some.2 fun w hw => ?_
        simp [value?, hc, hw] at hv
      simpa [Expr.evaluate, ExprShape.evaluate, hx.evaluate] using hop
    exact .of_parts ha hp hnone.symm (by simp [lastingParts, hnone])
  case conditional.conditional c t f c' t' f' =>
    obtain ⟨hc, -, -⟩ : _ ∧ _ ∧ _ := by simpa [parts, ExprShape.parts] using hp
    have hnot : ∀ value, c.evaluate ≠ some (.bool value) := by
      intro value h
      simp [value?, (hc.test value).1 h] at hv
    refine .of_parts ha hp ?_ ?_
    · simp only [Node.evaluate, Expr.evaluate, ExprShape.evaluate]
      rfl
    · simp only [lastingParts]
  case constant.constant c c' =>
    obtain rfl := ExprShape.constant.inj hs
    exact .of_parts ha hp rfl rfl
  all_goals exact .of_parts ha hp rfl rfl

theorem Folds.expr {e z : Expr Origin} (ha : Alike ⟨.expr, e⟩ ⟨.expr, z⟩)
    (hp : List.Forall₂ Folds (parts ⟨.expr, e⟩) (parts ⟨.expr, z⟩)) (hv : value? z = none) :
    Folds ⟨.expr, e⟩ ⟨.expr, guardCallee e z⟩ where
  constant := (guardCallee_constant e z).trans (Folds.kept ha hp hv).constant
  bindings := expr_sameBindings _ _
  gather G := (guardCallee_gather G e z).trans ((Folds.kept ha hp hv).gather G)

/-- The branches of an `if` and what they become, whatever its test is. -/
theorem Folds.branches {o o' : Origin} {c c' : Expr Origin} {t t' : Block Origin}
    {e e' : Option (Block Origin)}
    (hp : List.Forall₂ Folds (parts ⟨.stmt, .node o (.ifElse c t e)⟩)
      (parts ⟨.stmt, .node o' (.ifElse c' t' e')⟩)) (value : Bool) :
    Folds ⟨.expr, c⟩ ⟨.expr, c'⟩ ∧
      List.Forall₂ Folds (ofOption .block (Fold.branches value t e).1)
        (ofOption .block (Fold.branches value t' e').1) ∧
      List.Forall₂ Folds (ofOption .block (Fold.branches value t e).2)
        (ofOption .block (Fold.branches value t' e').2) := by
  obtain ⟨hc, hp⟩ := List.forall₂_cons.1 hp
  obtain ⟨ht, he⟩ := List.forall₂_cons.1 hp
  have ht : List.Forall₂ Folds (ofOption .block (some t)) (ofOption .block (some t')) :=
    .cons ht .nil
  cases value
  · exact ⟨hc, he, ht⟩
  · exact ⟨hc, ht, he⟩

theorem declaresFunction?_of_folds {b b' : Option (Block Origin)}
    (h : List.Forall₂ Folds (ofOption .block b) (ofOption .block b')) :
    Block.declaresFunction? b = Block.declaresFunction? b' := by
  have hfunctions : branchFunctions b = branchFunctions b' := by
    rw [branchFunctions, branchFunctions]
    generalize ofOption .block b = cs, ofOption .block b' = cs' at h
    induction h with
    | nil => rfl
    | cons hc _ ih => rw [List.flatMap_cons, List.flatMap_cons, hc.bindings.functions, ih]
  rw [Bool.eq_iff_iff, ← not_iff_not, Bool.not_eq_true, Bool.not_eq_true,
    declaresFunction?_eq_false_iff, declaresFunction?_eq_false_iff, hfunctions]

section Selected

variable {α : Type} (G : Gathering α)

theorem silent_admits : Admits (silent · = true) := by
  constructor <;> intros <;> rfl

theorem block_gather (b : Block ι) :
    G.gather .all ⟨.stmt, .block b⟩ =
      G.join (b.statements.items.map fun s => G.gather .all ⟨.stmt, s⟩) := by
  rw [G.gather_single rfl rfl, G.gather_silent rfl]
  change G.join ((b.statements.items.map (Node.mk .stmt)).map _) = _
  rw [List.map_map]
  rfl

/-- Of what is selected of an `if`, only the live branch adds anything. -/
theorem selectBranch_gather {o : Origin} {live dead : Option (Block Origin)} {y : Stmt Origin}
    (h : selectBranch o live dead = some y) :
    G.gather .all ⟨.stmt, y⟩ = G.join ((ofOption .block live).map (G.gather .all)) := by
  have hdeclare (names : List String) : G.gather .all ⟨.stmt, declare o names⟩ = G.join [] :=
    G.gather_of_silent <| all_of_declares silent_admits.vars silent_admits.declarations
      (declare_declares o names) fun _ _ _ => rfl
  have hblock (b : Block Origin) :
      G.join ((ofOption .block (some b)).map (G.gather .all)) =
        G.gather .all ⟨.stmt, .block b⟩ := by
    rw [G.gather_single (n := ⟨.stmt, .block b⟩) rfl rfl]
    exact (G.join_singleton _).trans (G.gather_single rfl rfl)
  cases (selectBranch_cases h).2 with
  | live => exact (hblock _).symm
  | extended =>
    rw [hblock, block_gather, block_gather, List.map_append, List.map_singleton, hdeclare,
      G.join_append_nil]
  | empty => exact G.gather_leaf rfl rfl
  | declaration => exact hdeclare _

end Selected

theorem Folds.branch {x z y : Stmt Origin} (ha : Alike ⟨.stmt, x⟩ ⟨.stmt, z⟩)
    (hp : List.Forall₂ Folds (parts ⟨.stmt, x⟩) (parts ⟨.stmt, z⟩)) (hb : branch? z = some y) :
    Folds ⟨.stmt, x⟩ ⟨.stmt, y⟩ := by
  refine ⟨rfl, ?_, fun G => ?_⟩
  · have hz : SameBindings ⟨.stmt, x⟩ ⟨.stmt, z⟩ := .of_parts ha (hp.imp fun _ _ h => h.bindings)
    exact hz.trans (branch?_rule hb).sameBindings
  · obtain ⟨o', c', value, t', e', live', dead', rfl, hv, hbranches, hselect⟩ := branch?_cases hb
    obtain ⟨o, c, t, e, rfl⟩ := exists_ifElse_of_alike ha.symm
    obtain ⟨hc, hlive, hdead⟩ := Folds.branches hp value
    rw [hbranches] at hlive hdead
    have hfun : Block.declaresFunction? (Fold.branches value t e).2 = false := by
      rw [declaresFunction?_of_folds hdead]
      exact (selectBranch_cases hselect).1
    have hparts : Selection.lasting.parts ⟨.stmt, .node o (.ifElse c t e)⟩ =
        ofOption .block (Fold.branches value t e).1 := by
      simp [Selection.lasting, lastingParts, (hc.test value).2 hv, hfun]
    rw [selectBranch_gather G hselect, G.gather_silent rfl, hparts, Folds.map_gather hlive]

theorem Folds.stmt {x z : Stmt Origin} (ha : Alike ⟨.stmt, x⟩ ⟨.stmt, z⟩)
    (hp : List.Forall₂ Folds (parts ⟨.stmt, x⟩) (parts ⟨.stmt, z⟩)) (hb : branch? z = none) :
    Folds ⟨.stmt, x⟩ ⟨.stmt, z⟩ := by
  refine .of_parts ha hp rfl ?_
  cases x with
  | block b => rfl
  | node o s =>
    cases s
    case ifElse c t e =>
      obtain ⟨o', c', t', e', rfl⟩ := exists_ifElse_of_alike ha
      simp only [lastingParts]
      split
      · rename_i value hv
        obtain ⟨hc, -, hdead⟩ := Folds.branches hp value
        -- the branch that does not run declares a function, or the statement would have folded
        have hfun : Block.declaresFunction? (Fold.branches value t e).2 = true := by
          rw [declaresFunction?_of_folds hdead, ← Bool.not_eq_false, ← selectBranch_isSome o',
            ← branch?_of_test ((hc.test value).1 hv), hb]
          exact nofun
        rw [if_pos hfun]
      · rfl
    all_goals rfl

theorem folds {n : Node Origin} (hn : Separate n) (folded : Nat) :
    Folds n (transform.node n folded).1 :=
  exact_relates (fun _ _ => .block) (fun _ _ => .aggregate) (fun _ _ _ => .value) (fun _ _ => .expr)
    (fun _ _ _ => .branch) (fun _ _ => .stmt) hn folded

end Fold

end ScriptTree
