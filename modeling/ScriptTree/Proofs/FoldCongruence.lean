import ScriptTree.Proofs.Fold

namespace ScriptTree.Fold

open Node

variable {ι : Type}

/-- Relations on expressions and statements, pointwise on the objects between them. -/
inductive Extension (E : Expr ι → Expr ι → Prop) (S : Stmt ι → Stmt ι → Prop) :
    Node ι → Node ι → Prop
  | expr {e e'} : E e e' → Extension E S ⟨.expr, e⟩ ⟨.expr, e'⟩
  | stmt {s s'} : S s s' → Extension E S ⟨.stmt, s⟩ ⟨.stmt, s'⟩
  | aggregate {n n' : Node ι} : n.kind ≠ .expr → n.kind ≠ .stmt → n.Alike n' →
      List.Forall₂ (Extension E S) n.parts n'.parts → Extension E S n n'

/-- Where both expressions are calls, both callees bind `this` or none does. -/
def SameReceiver (e e' : Expr ι) : Prop :=
  ∀ c es c' es', e.shape = .call c es → e'.shape = .call c' es' →
    isMemberReference c = isMemberReference c'

/-- Equivalences that hold the local rules and relate objects of one variant with the same fields
and related parts, save calls of which only one binds `this`. -/
structure Congruence (E : Expr ι → Expr ι → Prop) (S : Stmt ι → Stmt ι → Prop) : Prop where
  exprs : Equivalence E
  stmts : Equivalence S
  expr_rule : ∀ e e', ExprRule e e' → E e e'
  stmt_rule : ∀ s s', StmtRule s s' → S s s'
  expr_congr : ∀ e e', Alike ⟨.expr, e⟩ ⟨.expr, e'⟩ → SameReceiver e e' →
    List.Forall₂ (Extension E S) (parts ⟨.expr, e⟩) (parts ⟨.expr, e'⟩) → E e e'
  stmt_congr : ∀ s s', Alike ⟨.stmt, s⟩ ⟨.stmt, s'⟩ →
    List.Forall₂ (Extension E S) (parts ⟨.stmt, s⟩) (parts ⟨.stmt, s'⟩) → S s s'

variable {E : Expr ι → Expr ι → Prop} {S : Stmt ι → Stmt ι → Prop}

theorem extension_expr {e e' : Expr ι} : Extension E S ⟨.expr, e⟩ ⟨.expr, e'⟩ ↔ E e e' := by
  refine ⟨fun h => ?_, .expr⟩
  cases h with
  | expr h => exact h
  | aggregate hk _ _ _ => exact absurd rfl hk

theorem extension_parts {n n' : Node ι} (h : Extension E S n n') (hexpr : n.kind ≠ .expr)
    (hstmt : n.kind ≠ .stmt) : List.Forall₂ (Extension E S) n.parts n'.parts := by
  cases h with
  | expr _ => exact absurd rfl hexpr
  | stmt _ => exact absurd rfl hstmt
  | aggregate _ _ _ hp => exact hp

theorem Congruence.extension_refl (h : Congruence E S) (n : Node ι) : Extension E S n n := by
  induction n using Node.induction with
  | step n ih =>
    obtain ⟨k, x⟩ := n
    cases k
    case expr => exact .expr (h.exprs.refl x)
    case stmt => exact .stmt (h.stmts.refl x)
    all_goals exact .aggregate nofun nofun (.refl _) (List.forall₂_same.2 ih)

/-- What the local rules and congruence derive. -/
inductive Justified : Node ι → Node ι → Prop
  | expr_rule {e e' : Expr ι} : ExprRule e e' → Justified ⟨.expr, e⟩ ⟨.expr, e'⟩
  | stmt_rule {s s' : Stmt ι} : StmtRule s s' → Justified ⟨.stmt, s⟩ ⟨.stmt, s'⟩
  | parts {n n' : Node ι} : n.Alike n' →
      (∀ e e', n = ⟨.expr, e⟩ → n' = ⟨.expr, e'⟩ → SameReceiver e e') →
      List.Forall₂ Justified n.parts n'.parts → Justified n n'
  | symm {n n' : Node ι} : Justified n n' → Justified n' n
  | trans {n n' n'' : Node ι} : Justified n n' → Justified n' n'' → Justified n n''

theorem Justified.refl (n : Node ι) : Justified n n := by
  induction n using Node.induction with
  | step n ih =>
    refine .parts (.refl n) ?_ (List.forall₂_same.2 ih)
    rintro e _ rfl ⟨⟩ c es c' es' he he'
    cases he.symm.trans he'
    rfl

def JustifiedExpr (e e' : Expr ι) : Prop := Justified ⟨.expr, e⟩ ⟨.expr, e'⟩

def JustifiedStmt (s s' : Stmt ι) : Prop := Justified ⟨.stmt, s⟩ ⟨.stmt, s'⟩

theorem justified_of_extension {n n' : Node ι}
    (h : Extension JustifiedExpr JustifiedStmt n n') : Justified n n' := by
  induction n using Node.induction generalizing n' with
  | step n ih =>
    cases h with
    | expr h => exact h
    | stmt h => exact h
    | aggregate hexpr _ ha hp =>
      refine .parts ha ?_ ?_
      · rintro e _ rfl
        exact absurd rfl hexpr
      · have hall : ∀ c ∈ n.parts, ∀ c', Extension JustifiedExpr JustifiedStmt c c' →
            Justified c c' :=
          fun c hc c' h => ih c hc h
        exact forall₂_imp_of_mem hp hall

theorem justified_congruence :
    Congruence (JustifiedExpr (ι := ι)) (JustifiedStmt (ι := ι)) where
  exprs := ⟨fun _ => .refl _, .symm, .trans⟩
  stmts := ⟨fun _ => .refl _, .symm, .trans⟩
  expr_rule _ _ := .expr_rule
  stmt_rule _ _ := .stmt_rule
  expr_congr e e' ha hr hp := by
    refine .parts ha ?_ (hp.imp fun _ _ => justified_of_extension)
    rintro _ _ ⟨⟩ ⟨⟩
    exact hr
  stmt_congr s s' ha hp :=
    .parts ha nofun (hp.imp fun _ _ => justified_of_extension)

theorem isMemberReference_head (e : Expr ι) :
    isMemberReference (⟨(), e.shape.head⟩ : Expr Unit) = isMemberReference e := by
  obtain ⟨o, s⟩ := e
  cases s <;> rfl

theorem isMemberReference_of_alike {e z : Expr ι} (h : Alike ⟨.expr, e⟩ ⟨.expr, z⟩) :
    isMemberReference z = isMemberReference e := by
  rw [← isMemberReference_head, ← alike_expr_iff.1 h, isMemberReference_head]

theorem binary_index (c d : Constant) : Fold.binary .index c d = none := by
  cases c <;> cases d <;> rfl

/-- What folds is neither a member reference nor a call. -/
theorem value?_eq_none_of_isMemberReference {z : Expr Origin} (h : isMemberReference z = true) :
    value? z = none := by
  obtain ⟨o, s⟩ := z
  cases s
  case binary op l r =>
    obtain rfl : op = .index := by simpa [isMemberReference] using h
    simp [value?, binary_index]
  case unary | conditional => exact absurd h Bool.false_ne_true
  all_goals rfl

theorem sameReceiver_of_value? {e z v : Expr Origin} (h : value? z = some v) :
    SameReceiver e z := by
  intro c es c' es' _ hz
  simp [value?, hz] at h

/-- An object and a related one, which binds `this` as a callee if the object does. -/
structure Related (E : Expr ι → Expr ι → Prop) (S : Stmt ι → Stmt ι → Prop) (n n' : Node ι) :
    Prop where
  extension : Extension E S n n'
  receiver : ∀ e e', n = ⟨.expr, e⟩ → n' = ⟨.expr, e'⟩ → isMemberReference e = true →
    isMemberReference e' = true

theorem Related.expr {e e' : Expr ι} (h : E e e')
    (hr : isMemberReference e = true → isMemberReference e' = true) :
    Related E S ⟨.expr, e⟩ ⟨.expr, e'⟩ := by
  refine ⟨.expr h, ?_⟩
  rintro _ _ ⟨⟩ ⟨⟩
  exact hr

theorem Related.of_kind {n n' : Node ι} (h : Extension E S n n') (hk : n.kind ≠ .expr) :
    Related E S n n' := by
  refine ⟨h, ?_⟩
  rintro e _ rfl
  exact absurd rfl hk

theorem extensions {ns ns' : List (Node ι)} (h : List.Forall₂ (Related E S) ns ns') :
    List.Forall₂ (Extension E S) ns ns' :=
  h.imp fun _ _ => Related.extension

section Guard

variable {E : Expr Origin → Expr Origin → Prop} {S : Stmt Origin → Stmt Origin → Prop}

theorem Congruence.call (h : Congruence E S) {o o' : Origin} {c c' : Expr Origin}
    {es es' : NodeList Origin (Expr Origin)} (hc : E c c')
    (hes : Extension E S ⟨.exprs, es⟩ ⟨.exprs, es'⟩)
    (hr : isMemberReference c = isMemberReference c') : E ⟨o, .call c es⟩ ⟨o', .call c' es'⟩ := by
  have hparts : List.Forall₂ (Extension E S) [⟨.expr, c⟩, ⟨.exprs, es⟩]
      [⟨.expr, c'⟩, ⟨.exprs, es'⟩] := .cons (.expr hc) (.cons hes .nil)
  refine h.expr_congr _ _ rfl ?_ hparts
  rintro _ _ _ _ ⟨⟩ ⟨⟩
  exact hr

/-- A callee that folding made a member reference is called through the comma, which is none. -/
theorem Congruence.guarded_call (h : Congruence E S) {o o' : Origin} {c c' : Expr Origin}
    {es es' : NodeList Origin (Expr Origin)} (hc : Related E S ⟨.expr, c⟩ ⟨.expr, c'⟩)
    (hes : Related E S ⟨.exprs, es⟩ ⟨.exprs, es'⟩) :
    E ⟨o, .call c es⟩ (guardCallee ⟨o, .call c es⟩ ⟨o', .call c' es'⟩) := by
  have hcc := extension_expr.1 hc.extension
  have hr := hc.receiver c c' rfl rfl
  rw [guardCallee_call]
  split
  · rename_i hguard
    -- the comma keeps the value of the callee, and like the old callee it does not bind `this`
    have hrule {e : Expr Origin} (he : ExprRule c' e) : E c e :=
      h.exprs.trans hcc (h.expr_rule c' e he)
    have hold := (Bool.and_eq_true_iff.1 hguard).2
    apply h.call (hrule .comma) hes.extension
    simpa [isMemberReference] using hold
  · rename_i hguard
    apply h.call hcc hes.extension
    cases hm : isMemberReference c
    · simpa [hm] using hguard
    · exact (hr hm).symm

theorem Congruence.guarded (h : Congruence E S) {e z : Expr Origin}
    (ha : Alike ⟨.expr, e⟩ ⟨.expr, z⟩)
    (hp : List.Forall₂ (Related E S) (parts ⟨.expr, e⟩) (parts ⟨.expr, z⟩)) :
    E e (guardCallee e z) := by
  by_cases hcall : ∃ c es, e.shape = .call c es
  · obtain ⟨o, s⟩ := e
    obtain ⟨c, es, rfl⟩ := hcall
    obtain ⟨o', c', es', rfl⟩ := exists_call_of_alike ha
    obtain ⟨hc, hes, -⟩ : Related E S ⟨.expr, c⟩ ⟨.expr, c'⟩ ∧
        Related E S ⟨.exprs, es⟩ ⟨.exprs, es'⟩ ∧ True := by
      simpa [parts, ExprShape.parts] using hp
    exact h.guarded_call hc hes
  · rw [guardCallee_of_ne_call (by simpa using hcall)]
    refine h.expr_congr e z ha ?_ (extensions hp)
    intro c es _ _ he _
    exact absurd ⟨c, es, he⟩ hcall

end Guard

/-- Any congruence that holds the local rules relates a tree to its folded version. -/
theorem fold_extension {E : Expr Origin → Expr Origin → Prop}
    {S : Stmt Origin → Stmt Origin → Prop} (h : Congruence E S) (n : Node Origin) (folded : Nat) :
    Extension E S n (transform.node n folded).1 := by
  refine (relates (R := Related E S) ?_ ?_ ?_ ?_ ?_ ?_ ?_ n folded).extension
  · intro n
    refine ⟨h.extension_refl n, ?_⟩
    rintro e _ rfl ⟨⟩
    exact id
  · intro b b' hb
    have hp := extension_parts hb.extension nofun nofun
    exact .of_kind (.stmt (h.stmt_congr _ _ rfl hp)) nofun
  · intro n z hexpr hstmt ha hp
    exact .of_kind (.aggregate hexpr hstmt ha (extensions hp)) hexpr
  · intro e z v ha hp hv
    have hz := h.expr_congr e z ha (sameReceiver_of_value? hv) (extensions hp)
    have hrule := h.expr_rule z v (value?_rule hv)
    apply Related.expr (h.exprs.trans hz hrule)
    -- a member reference does not fold
    intro hm
    rw [← isMemberReference_of_alike ha] at hm
    exact absurd ((value?_eq_none_of_isMemberReference hm).symm.trans hv) nofun
  · intro e z ha hp _
    apply Related.expr (h.guarded ha hp)
    intro hm
    rw [guardCallee_of_ne_call, isMemberReference_of_alike ha, hm]
    intro c es he
    rw [isMemberReference, he] at hm
    exact absurd hm nofun
  · intro x z y ha hp hb
    have hz := h.stmt_congr x z ha (extensions hp)
    have hrule := h.stmt_rule z y (branch?_rule hb)
    exact .of_kind (.stmt (h.stmts.trans hz hrule)) nofun
  · intro x z ha hp
    exact .of_kind (.stmt (h.stmt_congr x z ha (extensions hp))) nofun

theorem fold_extension_guarded_call :
    let a : Origin := .given 0
    let c : Expr Origin := ⟨.given 1, .constant (.bool true)⟩
    let f : Expr Origin := ⟨.given 2, .member ⟨.given 3, .this⟩ "f"⟩
    let g : Expr Origin := ⟨.given 4, .identifier "g"⟩
    Extension JustifiedExpr JustifiedStmt
      ⟨.expr, ⟨a, .call ⟨.given 5, .conditional c f g⟩ ⟨.given 6, []⟩⟩⟩
      ⟨.expr, ⟨.made a 0, .call
        ⟨.made a 1, .comma ⟨.made a 2, [⟨.made a 3, .constant (.number 0)⟩, f]⟩⟩
        ⟨.given 6, []⟩⟩⟩ :=
  fold_extension justified_congruence ⟨.expr, _⟩ 0

end ScriptTree.Fold
