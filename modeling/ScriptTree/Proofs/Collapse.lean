import ScriptTree.Collapse
import ScriptTree.Proofs.Traversal

namespace ScriptTree.Collapse

/-- What is wrong with a literal of so many arguments. -/
def faults (format : String) (available : Nat) : List Error :=
  match Template.parse format with
  | .error e => [e]
  | .ok segments => missing format available segments

/-- The placeholder that is all of a format. -/
def sole? (format : String) : Option Nat :=
  match Template.parse format with
  | .ok [.argument i] => some i
  | _ => none

/-- The literal is valid and stands for more than one of its arguments. -/
def Settled (format : String) (available : Nat) : Prop :=
  faults format available = [] ∧ sole? format = none

variable {format : String} {args : List (Expr Origin)} {t : Tally}

theorem sole?_eq_some_iff {i : Nat} :
    sole? format = some i ↔ Template.parse format = .ok [.argument i] := by
  unfold sole?
  split
  · rename_i j h
    rw [h]
    simp
  · rename_i h
    exact iff_of_false nofun fun hi => h i hi

theorem sole?_eq_none {segments : List Template.Segment}
    (hp : Template.parse format = .ok segments) (hs : ∀ i, segments ≠ [.argument i]) :
    sole? format = none := by
  rw [Option.eq_none_iff_forall_ne_some]
  intro i hi
  rw [sole?_eq_some_iff, hp] at hi
  exact hs i (Except.ok.inj hi)

theorem literal_of_ne_argument {segments : List Template.Segment}
    (hp : Template.parse format = .ok segments) (hs : ∀ i, segments ≠ [.argument i])
    (args : List (Expr Origin)) (t : Tally) :
    literal format args t = (none, { t with errors := t.errors ++ faults format args.length }) := by
  unfold literal faults
  simp only [hp]
  split
  · exact absurd rfl (hs _)
  · rename_i h
    rw [h, Array.appendList_nil]
  · rfl

/-- A literal reports errors, or stays silently, or is replaced by an argument. -/
theorem literal_cases (format : String) (args : List (Expr Origin)) (t : Tally) :
    (faults format args.length ≠ [] ∧ (literal format args t).1 = none) ∨
      (Settled format args.length ∧ literal format args t = (none, t)) ∨
      ∃ i e, faults format args.length = [] ∧ sole? format = some i ∧ args[i]? = some e ∧
        literal format args t = (some e, { t with
          collapsed := t.collapsed + 1
          log := t.log.push (.collapsed format i) }) := by
  cases hp : Template.parse format with
  | error e => simp [literal, faults, hp]
  | ok segments =>
    have hfaults : faults format args.length = missing format args.length segments := by
      simp [faults, hp]
    rw [hfaults]
    cases hm : missing format args.length segments with
    | cons f fs => simp [literal, hp, hm]
    | nil =>
      by_cases hs : ∃ i, segments = [.argument i]
      · obtain ⟨i, rfl⟩ := hs
        -- a placeholder without an argument would have been reported
        have hi : i < args.length := by
          by_contra hi
          simp [missing, hi] at hm
        have hsole := sole?_eq_some_iff.2 hp
        refine .inr (.inr ⟨i, args[i], rfl, hsole, List.getElem?_eq_getElem hi, ?_⟩)
        simp only [literal, hp, hm, List.getElem?_eq_getElem hi]
      · have hs : ∀ i, segments ≠ [.argument i] := not_exists.1 hs
        refine .inr (.inl ⟨⟨hfaults.trans hm, sole?_eq_none hp hs⟩, ?_⟩)
        rw [literal_of_ne_argument hp hs, hfaults.trans hm, Array.appendList_nil]

theorem literal_errors (format : String) (args : List (Expr Origin)) (t : Tally) :
    (literal format args t).2.errors = t.errors ++ faults format args.length := by
  unfold literal faults
  cases Template.parse format with
  | error e => simp
  | ok segments =>
    dsimp only
    split
    · rename_i i h
      rw [h]
      cases args[i]? <;> simp
    · rename_i h
      rw [h]
      simp
    · simp

theorem visit_literal {e z : Expr Origin} {walk : StateM Tally (Expr Origin)} {t t' : Tally}
    {args : NodeList Origin (Expr Origin)} (hwalk : walk t = (z, t'))
    (hz : z.shape = .literal format args) :
    transform.visit .expr e walk t =
      ((literal format args.items t').1.getD z, (literal format args.items t').2) := by
  simp only [transform, bind, StateT.bind, hwalk, hz]
  rfl

theorem visit_of_ne_literal {e z : Expr Origin} {walk : StateM Tally (Expr Origin)} {t t' : Tally}
    (hwalk : walk t = (z, t')) (hz : ∀ format args, z.shape ≠ .literal format args) :
    transform.visit .expr e walk t = (z, t') := by
  simp only [transform, bind, StateT.bind, hwalk]
  rfl

/-- An expression is answered by itself or by one of its arguments. -/
theorem visit_expr_cases (e : Expr Origin) (walk : StateM Tally (Expr Origin)) (t : Tally) :
    (transform.visit .expr e walk t).1 = (walk t).1 ∨
      ∃ format args, (walk t).1.shape = .literal format args ∧
        (transform.visit .expr e walk t).1 ∈ args.items := by
  rcases hw : walk t with ⟨z, t'⟩
  by_cases hz : ∃ format args, z.shape = .literal format args
  · obtain ⟨format, args, hz⟩ := hz
    rw [visit_literal hw hz]
    obtain ⟨-, h⟩ | ⟨-, h⟩ | ⟨i, e', -, -, hi, h⟩ := literal_cases format args.items t'
    · exact .inl (by rw [h]; rfl)
    · exact .inl (by rw [h]; rfl)
    · refine .inr ⟨format, args, hz, ?_⟩
      rw [h]
      exact List.mem_of_getElem? hi
  · rw [visit_of_ne_literal hw (by simpa using hz)]
    exact .inl rfl

end ScriptTree.Collapse
