import ScriptTree.Proofs.References
import ScriptTree.Proofs.SettledForm

namespace ScriptTree

open Node Fold

variable {ι : Type}

/-- Whether an expression is a member reference once the templates around it are collapsed, by what
it holds itself and by what its parts tell; a list tells it of each item. -/
def exposesAt : Node Unit → List (List Bool) → List Bool
  | ⟨.expr, ⟨_, .literal format _⟩⟩, args =>
    [((Collapse.sole? format).bind fun i => args.flatten[i]?).getD false]
  | ⟨.expr, e⟩, _ => [isMemberReference e]
  | ⟨.exprs, _⟩, items => items.flatten
  | _, _ => []

theorem exposesAt_mono {head : Node Unit} {bss bss' : List (List Bool)}
    (h : List.Forall₂ (List.Forall₂ fun b b' : Bool => b → b') bss bss') :
    List.Forall₂ (fun b b' : Bool => b → b') (exposesAt head bss) (exposesAt head bss') := by
  unfold exposesAt
  split
  · refine .cons ?_ .nil
    cases hi : Collapse.sole? _ with
    | none => exact nofun
    | some i =>
      obtain ⟨hn, -⟩ | ⟨b, b', hb, hb', himp⟩ := Collapse.forall₂_getElem? (List.rel_flatten h) i
      · simp [hn]
      · simpa [hb, hb'] using himp
  · exact .cons id .nil
  · exact List.rel_flatten h
  · exact .nil

namespace Node

def exposes (n : Node ι) : List Bool :=
  exposesAt n.head (n.parts.attach.map fun c => exposes c.1)
termination_by n.size
decreasing_by exact size_lt_of_mem_parts c.2

theorem exposes_eq (n : Node ι) : n.exposes = exposesAt n.head (n.parts.map exposes) := by
  rw [exposes]
  simp only [List.map_subtype, List.unattach_attach]

theorem exposes_local : Local (exposes (ι := Origin)) := by
  intro n z ha hp
  rw [exposes_eq, exposes_eq z, ha, hp]

theorem exposes_mono {n z : Node Origin} (ha : n.Alike z)
    (hp : List.Forall₂ (fun c c' => List.Forall₂ (fun b b' : Bool => b → b') c.exposes c'.exposes)
      n.parts z.parts) :
    List.Forall₂ (fun b b' : Bool => b → b') n.exposes z.exposes := by
  rw [exposes_eq, exposes_eq z, ha]
  apply exposesAt_mono
  rw [List.forall₂_map_left_iff, List.forall₂_map_right_iff]
  exact hp

theorem exposes_stmt (s : Stmt ι) : exposes ⟨.stmt, s⟩ = [] := by
  rw [exposes_eq]
  cases s <;> rfl

end Node

/-- The expression is a member reference once the templates around it are collapsed. -/
def Expr.isExposed (e : Expr ι) : Bool := (exposes ⟨.expr, e⟩).any id

namespace Node

theorem exposes_expr (e : Expr ι) : exposes ⟨.expr, e⟩ = [e.isExposed] := by
  have hsingle : ∃ b, exposes ⟨.expr, e⟩ = [b] := by
    rw [exposes_eq]
    obtain ⟨o, s⟩ := e
    cases s <;> exact ⟨_, rfl⟩
  obtain ⟨b, hb⟩ := hsingle
  simp [Expr.isExposed, hb]

theorem exposes_exprs (l : NodeList ι (Expr ι)) :
    exposes ⟨.exprs, l⟩ = l.items.map Expr.isExposed := by
  have hparts : (parts ⟨.exprs, l⟩).map exposes = l.items.map fun e => [e.isExposed] := by
    rw [parts, List.map_map]
    exact List.map_congr_left fun e _ => exposes_expr e
  rw [exposes_eq, hparts]
  exact List.flatMap_pure_eq_map _ _

end Node

namespace Expr

/-- An expression that is no template is exposed if it is a member reference itself. -/
theorem isExposed_of_ne_literal {e : Expr ι} (h : ∀ format args, e.shape ≠ .literal format args) :
    e.isExposed = isMemberReference e := by
  rw [← List.singleton_inj, ← exposes_expr, exposes_eq]
  obtain ⟨o, s⟩ := e
  cases s
  case literal format args => exact absurd rfl (h format args)
  all_goals rfl

theorem isExposed_literal (o : ι) (format : String) (args : NodeList ι (Expr ι)) :
    isExposed ⟨o, .literal format args⟩ =
      ((Collapse.sole? format).bind fun i => (args.items.map isExposed)[i]?).getD false := by
  rw [← List.singleton_inj, ← exposes_expr, exposes_eq, ← exposes_exprs]
  have hparts : (parts ⟨.expr, ⟨o, .literal format args⟩⟩).map exposes =
    [exposes ⟨.exprs, args⟩] := rfl
  rw [hparts]
  simp [exposesAt, head, ExprShape.head]

theorem isExposed_of_isMemberReference {e : Expr ι} (h : isMemberReference e = true) :
    e.isExposed = true := by
  rw [isExposed_of_ne_literal, h]
  rintro format args hs
  rw [isMemberReference, hs] at h
  exact absurd h Bool.false_ne_true

/-- A literal that is settled stands for no argument. -/
theorem isExposed_of_settledNode {e : Expr ι} (h : Collapse.SettledNode ⟨.expr, e⟩) :
    e.isExposed = isMemberReference e := by
  by_cases hliteral : ∃ format args, e.shape = .literal format args
  · obtain ⟨o, s⟩ := e
    obtain ⟨format, args, rfl⟩ := hliteral
    have hsole : Collapse.sole? format = none := h.2
    rw [isExposed_literal, hsole]
    rfl
  · exact isExposed_of_ne_literal fun format args hs => hliteral ⟨format, args, hs⟩

end Expr

theorem exposes_of_chosen? {n a : Node ι} (h : n.chosen? = some a) : n.exposes = a.exposes := by
  obtain ⟨o, format, args, i, e, rfl, hlone, hbound, he, rfl⟩ := chosen?_eq_some_iff.1 h
  have hsole := Collapse.sole?_eq_some_iff.2 (Template.parse_eq_argument_iff.2 ⟨hlone, hbound⟩)
  rw [exposes_expr, exposes_expr, Expr.isExposed_literal, hsole]
  simp [he]

/-- Collapse of the templates in an expression does not change what they expose. -/
theorem exposes_collapse (n : Node Origin) (t : Collapse.Tally) :
    n.exposes = (Collapse.transform.node n t).1.exposes := by
  refine Collapse.transform.relates (R := fun n n' => n.exposes = n'.exposes) (fun _ => rfl)
    (fun b b' _ => ?_) ?_ n t
  · rw [exposes_stmt, exposes_stmt]
  · intro k x walk hwalk t
    obtain ⟨ha, hp⟩ := hwalk t
    have hz := exposes_local _ _ ha (map_eq_map_iff_forall₂.2 hp)
    rw [Collapse.visit_fst]
    cases h : chosen? ⟨k, (walk t).1⟩ with
    | none => exact hz
    | some a => exact hz.trans (exposes_of_chosen? h)

theorem exposes_guardCallee (e z : Expr Origin) :
    exposes ⟨.expr, guardCallee e z⟩ = exposes ⟨.expr, z⟩ := by
  have hcall (o : Origin) (c : Expr Origin) (args : NodeList Origin (Expr Origin)) :
      exposes ⟨.expr, ⟨o, .call c args⟩⟩ = [false] := exposes_eq _
  obtain hself | ⟨_, _, _, _, _, _, rfl, rfl, -, -, hguard⟩ := guardCallee_cases e z
  · rw [hself]
  · rw [hguard, hcall, hcall]

theorem exposes_of_value? {z v : Expr Origin} (h : value? z = some v) :
    exposes ⟨.expr, z⟩ = [false] := by
  rw [exposes_expr, Expr.isExposed_of_ne_literal]
  · cases hm : isMemberReference z with
    | false => rfl
    | true => exact absurd ((value?_eq_none_of_isMemberReference hm).symm.trans h) nofun
  · intro format args hs
    obtain ⟨o, s⟩ := z
    cases hs
    exact absurd h nofun

/-- What is exposed in an expression is exposed in its folded version. -/
theorem exposes_fold (n : Node Origin) (folded : Nat) :
    List.Forall₂ (fun b b' : Bool => b → b') n.exposes (transform.node n folded).1.exposes := by
  have refl (bs : List Bool) : List.Forall₂ (fun b b' : Bool => b → b') bs bs :=
    List.forall₂_same.2 fun _ _ => id
  refine relates (R := fun n n' => List.Forall₂ (fun b b' : Bool => b → b') n.exposes n'.exposes)
    (fun n => refl _) ?_ ?_ ?_ ?_ ?_ ?_ n folded
  · intro b b' _
    rw [exposes_stmt, exposes_stmt]
    exact .nil
  · intro n z _ _ ha hp
    exact exposes_mono ha hp
  · intro e z v ha hp hv
    have hz := exposes_mono ha hp
    rw [exposes_of_value? hv, exposes_expr] at hz
    rw [exposes_expr, exposes_expr]
    obtain _ | ⟨hz, _⟩ := hz
    exact .cons (fun he => absurd (hz he) Bool.false_ne_true) .nil
  · intro e z ha hp _
    rw [exposes_guardCallee]
    exact exposes_mono ha hp
  · intro x z y _ _ _
    rw [exposes_stmt, exposes_stmt]
    exact .nil
  · intro x z _ _
    rw [exposes_stmt, exposes_stmt]
    exact .nil

theorem Expr.isExposed_fold {c c' : Expr Origin} {folded : Nat}
    (h : (transform.node ⟨.expr, c⟩ folded).1 = ⟨.expr, c'⟩) (hc : c.isExposed = true) :
    c'.isExposed = true := by
  have hexposes := exposes_fold ⟨.expr, c⟩ folded
  rw [h, exposes_expr, exposes_expr] at hexposes
  obtain _ | ⟨hexposes, _⟩ := hexposes
  exact hexposes hc

theorem Expr.isExposed_collapse {c c' : Expr Origin} {t : Collapse.Tally}
    (h : (Collapse.transform.node ⟨.expr, c⟩ t).1 = ⟨.expr, c'⟩) : c.isExposed = c'.isExposed := by
  have hexposes := exposes_collapse ⟨.expr, c⟩ t
  rw [h, exposes_expr, exposes_expr] at hexposes
  exact List.singleton_inj.1 hexposes

/-- Folding turns no template into a member reference. -/
theorem Expr.not_isExposed_of_fold {c c' : Expr Origin} {folded : Nat} (hc : Separate ⟨.expr, c⟩)
    (h : (transform.node ⟨.expr, c⟩ folded).1 = ⟨.expr, c'⟩) (hnew : isMemberReference c' = true)
    (hold : isMemberReference c = false) : c.isExposed = false := by
  rw [isExposed_of_ne_literal, hold]
  intro format args hs
  have hself : c.selected = c :=
    selected_self fun _ _ _ _ hchoice => absurd (hs.symm.trans hchoice) nofun
  have hfold : (transform.expr c folded).1 = c' := eq_of_heq (Node.mk.inj h).2
  have hsame := (fold_refers hc folded).member
  rw [hfold, hself, hnew, hold] at hsame
  exact Bool.false_ne_true hsame.symm

variable {r : Bool → Bool → Prop} {n : Node Origin}

/-- Folding guards only callees that are not exposed. -/
theorem fold_unexposed (hn : Separate n) (folded : Nat) :
    (n.residue fun c => !c.isExposed).Matches (fun g g' => g' → g)
      ((transform.node n folded).1.residue fun c => !c.isExposed) := by
  refine fold_residue (fun _ => id) (fun c c' s hc h => ?_) hn folded
  intro hguard
  obtain hguard | hc' := Bool.or_eq_true_iff.1 hguard
  · obtain ⟨hnew, hold⟩ := Bool.and_eq_true_iff.1 hguard
    rw [Bool.not_eq_true'] at hold ⊢
    exact Expr.not_isExposed_of_fold hc h hnew hold
  · cases hexposed : c.isExposed with
    | false => rfl
    | true =>
      rw [Expr.isExposed_fold h hexposed] at hc'
      exact absurd hc' Bool.false_ne_true

/-- Template collapse exposes no callee that was not exposed. -/
theorem collapse_unexposed (hr : ∀ g, r g g) (hn : Separate n) (t : Collapse.Tally) :
    (n.residue fun c => !c.isExposed).Matches r
      ((Collapse.transform.node n t).1.residue fun c => !c.isExposed) := by
  refine Collapse.collapse_residue hr (fun c c' _ _ h => ?_) hn t
  rw [Expr.isExposed_collapse h]
  exact hr _

/-- Folding guards every callee that is no member reference and becomes one. -/
theorem fold_bare (hn : Separate n) (folded : Nat) :
    (n.residue fun c => !isMemberReference c).Matches (fun g g' => g → g')
      ((transform.node n folded).1.residue fun c => !isMemberReference c) := by
  refine fold_residue (fun _ => id) (fun c c' _ _ _ hc => ?_) hn folded
  rw [hc, Bool.and_true, Bool.or_not_self]

theorem residue_of_collapsed (h : All Collapse.SettledNode n) :
    (n.residue fun c => !c.isExposed) = n.residue fun c => !isMemberReference c :=
  residue_congr (fun _ hc => congrArg (!·) (Expr.isExposed_of_settledNode hc)) h

end ScriptTree
