import ScriptTree.Proofs.FoldCongruence
import ScriptTree.Proofs.Lasting

namespace ScriptTree

open Node

section Selected

variable {ι : Type}

mutual

/-- The expression that is left of a choice with a test that has a value. -/
def Expr.selected : Expr ι → Expr ι
  | ⟨o, s⟩ => s.selected o

def ExprShape.selected : ExprShape ι → ι → Expr ι
  | .conditional c t f, o =>
    match c.evaluate with
    | some (.bool value) => if value then t.selected else f.selected
    | _ => ⟨o, .conditional c t f⟩
  | s, o => ⟨o, s⟩

end

theorem selected_choice {o : ι} {c t f : Expr ι} {value : Bool}
    (h : c.evaluate = some (.bool value)) :
    Expr.selected ⟨o, .conditional c t f⟩ = (if value then t else f).selected := by
  simp only [Expr.selected, ExprShape.selected, h]
  cases value <;> rfl

theorem selected_self {e : Expr ι}
    (h : ∀ c t f value, e.shape = .conditional c t f → c.evaluate ≠ some (.bool value)) :
    e.selected = e := by
  obtain ⟨o, s⟩ := e
  cases s
  case conditional c t f =>
    simp only [Expr.selected, ExprShape.selected]
    split
    · exact absurd ‹_› (h c t f _ rfl)
    · rfl
  all_goals rfl

end Selected

namespace Fold

section References

variable {ι κ : Type}

/-- An identifier, a member access or an index. -/
def isReference (e : Expr ι) : Bool := e.asIdentifier?.isSome || isMemberReference e

/-- Both are references of one sort, identifiers of one name at that, or neither is one. -/
structure SameReference (e : Expr ι) (e' : Expr κ) : Prop where
  identifier : e'.asIdentifier? = e.asIdentifier?
  member : isMemberReference e' = isMemberReference e

theorem SameReference.isReference {e : Expr ι} {e' : Expr κ} (h : SameReference e e') :
    isReference e' = isReference e := by
  rw [Fold.isReference, Fold.isReference, h.identifier, h.member]

theorem SameReference.trans {τ : Type} {e : Expr ι} {e' : Expr κ} {e'' : Expr τ}
    (h : SameReference e e') (h' : SameReference e' e'') : SameReference e e'' :=
  ⟨h'.identifier.trans h.identifier, h'.member.trans h.member⟩

theorem sameReference_of_alike {e z : Expr ι} (h : Alike ⟨.expr, e⟩ ⟨.expr, z⟩) :
    SameReference e z := by
  refine ⟨?_, isMemberReference_of_alike h⟩
  have hhead (e : Expr ι) :
      (⟨(), e.shape.head⟩ : Expr Unit).asIdentifier? = e.asIdentifier? := by
    obtain ⟨o, s⟩ := e
    cases s <;> rfl
  rw [← hhead, ← alike_expr_iff.1 h, hhead]

end References

/-- What folds is no reference. -/
theorem sameReference_constant {z v : Expr Origin} (h : value? z = some v) (o : Origin)
    (c : Constant) : SameReference z ⟨o, .constant c⟩ := by
  constructor
  · obtain ⟨_, s⟩ := z
    cases s <;> first | rfl | exact absurd h nofun
  · cases hm : isMemberReference z with
    | false => rfl
    | true => exact absurd ((value?_eq_none_of_isMemberReference hm).symm.trans h) nofun

theorem guardCallee_alike (e z : Expr Origin) : Alike ⟨.expr, z⟩ ⟨.expr, guardCallee e z⟩ := by
  obtain hself | ⟨_, _, _, _, _, _, rfl, rfl, -, -, hguard⟩ := guardCallee_cases e z
  · rw [hself]
    exact .refl _
  · rw [hguard]
    rfl

/-- What folding makes of an object, which for an expression is a reference where its choices come
to one. -/
structure Refers (n n' : Node Origin) : Prop extends Folds n n' where
  reference : ∀ e e', n = ⟨.expr, e⟩ → n' = ⟨.expr, e'⟩ → SameReference e.selected e'

theorem Refers.of_kind {n n' : Node Origin} (h : Folds n n') (hk : n.kind ≠ .expr) :
    Refers n n' := by
  refine ⟨h, ?_⟩
  rintro e _ rfl
  exact absurd rfl hk

theorem Refers.of_expr {e e' : Expr Origin} (h : Folds ⟨.expr, e⟩ ⟨.expr, e'⟩)
    (hr : SameReference e.selected e') : Refers ⟨.expr, e⟩ ⟨.expr, e'⟩ := by
  refine ⟨h, ?_⟩
  rintro _ _ ⟨⟩ ⟨⟩
  exact hr

theorem folds_of_refers {ns ns' : List (Node Origin)} (h : List.Forall₂ Refers ns ns') :
    List.Forall₂ Folds ns ns' :=
  h.imp fun _ _ => Refers.toFolds

/-- An expression that folds. -/
theorem Refers.value {e z v : Expr Origin} (ha : Alike ⟨.expr, e⟩ ⟨.expr, z⟩)
    (hp : List.Forall₂ Refers (parts ⟨.expr, e⟩) (parts ⟨.expr, z⟩)) (hv : value? z = some v) :
    SameReference e.selected v := by
  have hz := sameReference_of_alike ha
  obtain ⟨o, s⟩ := e
  have hs := alike_expr_iff.1 ha
  cases value?_valued hv with
  | binary hw =>
    cases s <;> simp only [ExprShape.head, reduceCtorEq] at hs
    exact hz.trans (sameReference_constant hv _ _)
  | unary hw =>
    cases s <;> simp only [ExprShape.head, reduceCtorEq] at hs
    exact hz.trans (sameReference_constant hv _ _)
  | @choice _ _ value =>
    cases s <;> simp only [ExprShape.head, reduceCtorEq] at hs
    case conditional c t f =>
      obtain ⟨hc, ht, hf⟩ : _ ∧ _ ∧ _ := by simpa [parts, ExprShape.parts] using hp
      rw [selected_choice ((hc.toFolds.test value).2 rfl)]
      cases value
      · exact hf.reference f _ rfl rfl
      · exact ht.reference t _ rfl rfl

/-- An expression that does not fold. -/
theorem Refers.expr {e z : Expr Origin} (ha : Alike ⟨.expr, e⟩ ⟨.expr, z⟩)
    (hp : List.Forall₂ Refers (parts ⟨.expr, e⟩) (parts ⟨.expr, z⟩)) (hv : value? z = none) :
    SameReference e.selected (guardCallee e z) := by
  have hself : e.selected = e := by
    obtain ⟨o, s⟩ := e
    apply selected_self
    rintro c t f value rfl hc
    obtain ⟨o', s'⟩ := z
    have hs := alike_expr_iff.1 ha
    cases s' <;> simp only [ExprShape.head, reduceCtorEq] at hs
    case conditional c' t' f' =>
      obtain ⟨hcc, -, -⟩ : _ ∧ _ ∧ _ := by simpa [parts, ExprShape.parts] using hp
      simp [value?, (hcc.toFolds.test value).1 hc] at hv
  rw [hself]
  exact (sameReference_of_alike ha).trans (sameReference_of_alike (guardCallee_alike e z))

/-- Folding answers an expression by a reference of the sort that its choices come to. -/
theorem fold_refers {e : Expr Origin} (he : Separate ⟨.expr, e⟩) (folded : Nat) :
    SameReference e.selected (transform.expr e folded).1 := by
  have h : Refers ⟨.expr, e⟩ (transform.node ⟨.expr, e⟩ folded).1 := by
    refine exact_relates ?_ ?_ ?_ ?_ ?_ ?_ he folded
    · intro b b' h
      exact .of_kind (.block h.toFolds) nofun
    · intro n z hexpr hstmt ha hp
      exact .of_kind (.aggregate hexpr hstmt ha (folds_of_refers hp)) hexpr
    · intro e z v ha hp hv
      exact .of_expr (.value ha (folds_of_refers hp) hv) (Refers.value ha hp hv)
    · intro e z ha hp hv
      exact .of_expr (.expr ha (folds_of_refers hp) hv) (Refers.expr ha hp hv)
    · intro x z y ha hp hb
      exact .of_kind (.branch ha (folds_of_refers hp) hb) nofun
    · intro x z ha hp hb
      exact .of_kind (.stmt ha (folds_of_refers hp) hb) nofun
  exact h.reference e _ rfl rfl

theorem selected_of_isReference {ι : Type} {e : Expr ι} (h : isReference e = true) :
    e.selected = e := by
  obtain ⟨o, s⟩ := e
  apply selected_self
  rintro c t f value rfl
  exact absurd h Bool.false_ne_true

/-- An expression folds as its parts do, and then by itself. -/
theorem fold_expr {e : Expr Origin} (he : Separate ⟨.expr, e⟩) (folded : Nat) :
    ∃ z t, Alike ⟨.expr, e⟩ ⟨.expr, z⟩ ∧
      Threaded transform.Answers (parts ⟨.expr, e⟩) folded (parts ⟨.expr, z⟩) t ∧
      (transform.expr e folded).1 = (value? z).getD (guardCallee e z) := by
  obtain ⟨walk, hw, hwalk⟩ := transform.exact_visits fold_isTame he (transform.expr_visits e)
  have hw : transform.expr e = transform.visit .expr e walk := hw
  obtain ⟨ha, hparts⟩ := hwalk folded
  exact ⟨(walk folded).1, (walk folded).2, ha, hparts, by rw [hw, visit_expr]⟩

theorem fold_exprs_length (es : NodeList Origin (Expr Origin)) (folded : Nat) :
    (transform.exprs es folded).1.items.length = es.items.length := by
  obtain ⟨walk, hw, hwalk⟩ := transform.object_visits ⟨.exprs, es⟩ fun _ => nofun
  have hw : transform.exprs es = walk := hw
  obtain ⟨ns, hns, hr⟩ := hwalk folded
  have hsame : List.Forall₂ (fun _ _ => True) (parts ⟨.exprs, es⟩) ns :=
    hns.forall₂ fun _ _ _ _ _ _ => trivial
  have hlength := hr.length_parts.trans hsame.length_eq.symm
  rw [hw]
  simpa [parts] using hlength

/-- A call folds to one around its folded callee and arguments. -/
theorem fold_call_parts {o : Origin} {c : Expr Origin} {args : NodeList Origin (Expr Origin)}
    (h : Separate ⟨.expr, ⟨o, .call c args⟩⟩) (folded : Nat) :
    ∃ o' args', args'.items.length = args.items.length ∧
      (transform.expr ⟨o, .call c args⟩ folded).1 =
        guardCallee ⟨o, .call c args⟩ ⟨o', .call (transform.expr c folded).1 args'⟩ := by
  obtain ⟨z, t, ha, hparts, hz⟩ := fold_expr h folded
  obtain ⟨o', c', args', rfl⟩ := exists_call_of_alike ha
  obtain _ | @⟨_, _, _, t, _, _, _, hc, _ | ⟨hargs, _⟩⟩ := hparts
  have hc : transform.expr c folded = (c', t) := hc.object_eq
  have hargs : transform.exprs args t = (args', _) := hargs.object_eq
  refine ⟨o', args', ?_, ?_⟩
  · rw [← fold_exprs_length args t, hargs]
  · rw [hz, hc]
    rfl

/-- A call folds to a call that binds `this` as it did. Its callee is the folded one, by itself or,
where only folding made that a member reference, behind a comma. -/
theorem fold_call (start : Nat) (k : Kind) (x : Object Unit k) (folded : Nat) {o : Origin}
    {c : Expr Origin} {args : NodeList Origin (Expr Origin)}
    (h : ⟨.expr, ⟨o, .call c args⟩⟩ ∈
      (Node.mk k (Object.number start k x).1).preorder fun _ => true) :
    let c' := (transform.expr c folded).1
    ∃ o' d args', (transform.expr ⟨o, .call c args⟩ folded).1 = ⟨o', .call d args'⟩ ∧
      args'.items.length = args.items.length ∧
      isMemberReference d = isMemberReference c ∧
      isMemberReference c' = isMemberReference c.selected ∧
      d = if isMemberReference c' && !isMemberReference c then
          ⟨.made o 1, .comma ⟨.made o 2, [⟨.made o 3, .constant (.number 0)⟩, c']⟩⟩
        else c' := by
  intro c'
  have hcall : Separate ⟨.expr, ⟨o, .call c args⟩⟩ := (number_separate start k x).all _ h
  have hc : SameReference c.selected c' := fold_refers (hcall.part List.mem_cons_self) folded
  obtain ⟨o', args', hlength, hfold⟩ := fold_call_parts hcall folded
  rw [guardCallee_call] at hfold
  refine ⟨o', _, args', ?_, hlength, ?_, hc.member, rfl⟩
  · rw [hfold, ← apply_ite (fun d => (⟨o', .call d args'⟩ : Expr Origin))]
  · split
    · rename_i hguard
      obtain ⟨-, hold⟩ := Bool.and_eq_true_iff.1 hguard
      simpa [isMemberReference] using hold
    · rename_i hguard
      cases hm : isMemberReference c with
      | true =>
        -- the callee is no choice, and so it stays a member reference
        rw [hc.member, selected_of_isReference (by simp [Fold.isReference, hm]), hm]
      | false => simpa [hm] using hguard

/-- A choice comes to a member access, which the call does not bind. -/
theorem fold_call_choice :
    let e : Expr Unit := ⟨(), .call ⟨(), .conditional ⟨(), .constant (.bool true)⟩
      ⟨(), .member ⟨(), .identifier "o"⟩ "m"⟩ ⟨(), .identifier "f"⟩⟩ ⟨(), []⟩⟩
    let member : Expr Origin := ⟨.given 3, .member ⟨.given 4, .identifier "o"⟩ "m"⟩
    ∃ o args, (transform.expr (Object.number 0 .expr e).1 0).1 =
      ⟨o, .call ⟨.made (.given 0) 1, .comma ⟨.made (.given 0) 2,
        [⟨.made (.given 0) 3, .constant (.number 0)⟩, member]⟩⟩ args⟩ ∧ args.items = [] := by
  intro e member
  obtain ⟨o, d, args, hfold, hlength, -, -, hd⟩ := fold_call 0 .expr e 0 (mem_preorder_self _ _)
  refine ⟨o, args, hfold.trans ?_, List.eq_nil_of_length_eq_zero hlength⟩
  rw [hd]
  rfl

theorem exists_unary_of_alike {ι : Type} {o : ι} {op : UnaryOp} {e z : Expr ι}
    (h : Alike ⟨.expr, ⟨o, .unary op e⟩⟩ ⟨.expr, z⟩) : ∃ o' e', z = ⟨o', .unary op e'⟩ := by
  have hs := alike_expr_iff.1 h
  obtain ⟨o', s⟩ := z
  cases s <;> simp only [ExprShape.head, reduceCtorEq] at hs
  cases hs
  exact ⟨_, _, rfl⟩

/-- The operand of `delete` or `typeof` is folded in its place, and is a reference where its choices
come to one. -/
theorem fold_operand (start : Nat) (k : Kind) (x : Object Unit k) (folded : Nat) {o : Origin}
    {op : UnaryOp} {e : Expr Origin} (hop : op = .delete ∨ op = .typeOf)
    (h : ⟨.expr, ⟨o, .unary op e⟩⟩ ∈
      (Node.mk k (Object.number start k x).1).preorder fun _ => true) :
    let e' := (transform.expr e folded).1
    ∃ o', (transform.expr ⟨o, .unary op e⟩ folded).1 = ⟨o', .unary op e'⟩ ∧
      isReference e' = isReference e.selected ∧ (isReference e → isReference e') := by
  intro e'
  have hunary : Separate ⟨.expr, ⟨o, .unary op e⟩⟩ := (number_separate start k x).all _ h
  have he : SameReference e.selected e' := fold_refers (hunary.part List.mem_cons_self) folded
  obtain ⟨z, t, ha, hparts, hz⟩ := fold_expr hunary folded
  obtain ⟨o', x', rfl⟩ := exists_unary_of_alike ha
  obtain _ | ⟨hx, _⟩ := hparts
  have hx : transform.expr e folded = (x', _) := hx.object_eq
  refine ⟨o', ?_, he.isReference, fun hr => ?_⟩
  · have hx : e' = x' := congrArg Prod.fst hx
    have hvalue : value? ⟨o', .unary op x'⟩ = none := by
      obtain rfl | rfl := hop <;> simp [value?, Fold.unary]
    rw [hz, hvalue, hx]
    rfl
  · rw [he.isReference, selected_of_isReference hr, hr]

/-- An index stays one when its key folds. -/
theorem fold_operand_index :
    let e : Expr Unit := ⟨(), .unary .delete ⟨(), .binary .index ⟨(), .identifier "o"⟩
      ⟨(), .conditional ⟨(), .constant (.bool true)⟩ ⟨(), .constant (.string "m")⟩
        ⟨(), .identifier "f"⟩⟩⟩⟩
    ∃ o e', (transform.expr (Object.number 0 .expr e).1 0).1 = ⟨o, .unary .delete e'⟩ ∧
      isReference e' := by
  intro e
  obtain ⟨o, hfold, -, he⟩ := fold_operand 0 .expr e 0 (.inl rfl) (mem_preorder_self _ _)
  exact ⟨o, _, hfold, he rfl⟩

/-- The operand becomes a reference where a choice comes to one, and what `delete` does changes. -/
theorem fold_operand_becomes_reference :
    let e : Expr Unit := ⟨(), .conditional ⟨(), .constant (.bool true)⟩
      ⟨(), .member ⟨(), .identifier "o"⟩ "m"⟩ ⟨(), .identifier "f"⟩⟩
    isReference e = false ∧
      ∃ o e', (transform.expr (Object.number 0 .expr ⟨(), .unary .delete e⟩).1 0).1 =
        ⟨o, .unary .delete e'⟩ ∧ isReference e' := by
  intro e
  exact ⟨rfl, _, _, rfl, rfl⟩

end Fold

end ScriptTree
