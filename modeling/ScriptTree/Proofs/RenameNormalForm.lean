import ScriptTree.Proofs.NormalForm
import ScriptTree.Proofs.PassIdentity

namespace ScriptTree.Rename

open Node

/-- No name that occurs at the object is an old one. -/
def Unrenamed {ι : Type} (names : Names) (n : Node ι) : Prop := ∀ x ∈ n.names, names.isKey x = false

/-- Renaming answers a tree without old names by itself, and counts and logs nothing. -/
theorem rename_of_normal {names : Names} {n : Node Origin} (h : All (Unrenamed names) n)
    (t : Tally) : (transform names).node n t = (n, t) := by
  refine (transform names).fixes (fun _ _ => nofun) ?_ h t
  intro k x walk t hx hwalk
  exact visit_of_not_isKey names k x walk hwalk hx

theorem unrenamed_apply {names : Names}
    (hnames : ∀ x v, names.lookup x = some v → names.lookup v = none) (x : String) :
    names.isKey (names.apply x) = false := by
  rw [Names.isKey, Names.apply]
  cases h : names.lookup x with
  | none => simp [h]
  | some v => simp [hnames x v h]

theorem unrenamed_of_any {names : Names} {n : Node Origin}
    (h : ¬n.names.any names.isKey) : Unrenamed names n := by
  simpa [Unrenamed] using h

/-- No old name is left in a renamed tree, if no new name is an old one. -/
theorem rename_normal {names : Names}
    (hnames : ∀ x v, names.lookup x = some v → names.lookup v = none) {n : Node Origin}
    (hn : Separate n) (t : Tally) : All (Unrenamed names) ((transform names).node n t).1 := by
  refine ((transform names).exact_induction (rename_isTame names)
    (P := fun _ _ n' _ => All (Unrenamed names) n') ?_ ?_ n hn t).2
  · intro _ _ _ _ h
    exact (all_block fun _ => ⟨nofun, nofun⟩).2 h
  · intro k x walk _ hwalk t
    have hparts := (hwalk t).2.forall_right fun _ _ _ _ h => h
    rw [visit_fst]
    split
    · apply All.intro
      · intro x hx
        rw [rename_names] at hx
        obtain ⟨y, -, rfl⟩ := List.mem_map.1 hx
        exact unrenamed_apply hnames y
      · rw [rename_parts]
        exact hparts
    · exact .intro (unrenamed_of_any ‹_›) hparts

/-- Renaming keeps a property of all objects that does not depend on their names. -/
theorem rename_keeps {α : Type} {f : Node Origin → α} {P : Node Origin → Prop} {names : Names}
    (hf : Local f) (hP : Transfers f P) (hblock : ∀ b, P ⟨.block, b⟩ ∧ P ⟨.stmt, .block b⟩)
    (hfblock : ∀ b, f ⟨.stmt, .block b⟩ = f ⟨.block, b⟩)
    (hfrename : ∀ n, f (n.rename names) = f n) (hrename : ∀ n, P n → P (n.rename names))
    {n : Node Origin} (h : All P n) (t : Tally) : All P ((transform names).node n t).1 := by
  refine ((transform names).relates (R := Keeps f P) .refl ?_ ?_ n t).1 h
  · intro b b'
    exact Keeps.block hblock hfblock
  · intro k x walk hwalk t
    have hz := Keeps.of_parts hf hP (hwalk t).1 (hwalk t).2
    rw [visit_fst]
    split
    · refine ⟨fun hx => ?_, by rw [hfrename, hz.2]⟩
      have hall : All P ⟨k, (walk t).1⟩ := hz.1 hx
      apply All.intro (hrename _ hall.self)
      rw [rename_parts]
      exact fun _ => hall.part
    · exact hz

section Names

variable {ι : Type}

theorem ownVars_subset_names (n : Node ι) : n.ownVars ⊆ n.names := by
  obtain ⟨k, x⟩ := n
  cases k <;> try exact List.nil_subset _
  case stmt =>
    rcases x with _ | ⟨_, _ | _⟩ <;> try exact List.nil_subset _
    rename_i declares
    cases declares
    · exact List.nil_subset _
    · exact List.Subset.refl _
  case declaration => exact List.Subset.refl _
  case label => cases x <;> exact List.nil_subset _

/-- What holds of every name that occurs in a tree holds of those that it binds. -/
theorem of_mem_vars {Q : String → Prop} {n : Node ι} (h : All (fun m => ∀ x ∈ m.names, Q x) n)
    {x : String} (hx : x ∈ n.vars) : Q x := by
  induction n using Node.induction with
  | step n ih =>
    rw [vars_eq] at hx
    obtain hx | hx := List.mem_append.1 hx
    · exact h.self x (ownVars_subset_names n hx)
    · split at hx
      · exact absurd hx List.not_mem_nil
      · obtain ⟨c, hc, hx⟩ := List.mem_flatMap.1 hx
        exact ih c hc (h.part hc) hx

theorem names_of_alike {κ : Type} {Q : String → Prop} {n : Node ι} {z : Node κ} (ha : n.Alike z)
    (h : ∀ x ∈ n.names, Q x) : ∀ x ∈ z.names, Q x := by
  have hnames : n.names = z.names := ha.own_eq _
  rwa [← hnames]

end Names

end ScriptTree.Rename
