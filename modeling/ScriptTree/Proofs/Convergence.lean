import ScriptTree.Proofs.Numbering
import ScriptTree.Proofs.Runs

namespace ScriptTree

open Node

/-- The pass makes the second program of the first in a run that reports no error. -/
def Pass.Makes (names : Rename.Names) (pass : Pass) (p p' : Program Origin) : Prop :=
  ∃ w : Workspace, w.names = names ∧ (pass.run p w).1 = p' ∧ (pass.run p w).2.errors = #[]

namespace Pass.Makes

variable {names : Rename.Names} {pass other : Pass} {p p' : Program Origin}

theorem separate (h : pass.Makes names p p') (hp : Separate ⟨.stmts, p⟩) :
    Separate ⟨.stmts, p'⟩ := by
  obtain ⟨w, -, rfl, -⟩ := h
  exact run_separate hp

theorem eq_of_normal (h : pass.Makes names p p') (hp : Normal names p pass) : p' = p := by
  obtain ⟨w, rfl, rfl, -⟩ := h
  exact run_of_normal hp

/-- After a pass it has nothing to do, and neither has another that had nothing; for folding after
template collapse that takes a program without templates to collapse. -/
theorem normal (hnames : ∀ x v, names.lookup x = some v → names.lookup v = none)
    (h : pass.Makes names p p') (hp : Separate ⟨.stmts, p⟩)
    (hother : other = pass ∨ Normal names p other)
    (hfold : other = .fold → pass = .inlineCode → Normal names p .inlineCode) :
    Normal names p' other := by
  obtain rfl | hother := hother
  · obtain ⟨w, rfl, rfl, herr⟩ := h
    exact run_normal hnames hp herr
  · by_cases hne : pass = .inlineCode → other ≠ .fold
    · obtain ⟨w, rfl, rfl, -⟩ := h
      exact run_keeps hother hne
    -- there is nothing to collapse, and the program stays
    · obtain ⟨hpass, hother'⟩ := Classical.not_imp.1 hne
      rw [h.eq_of_normal (hpass ▸ hfold (not_not.1 hother') hpass)]
      exact hother

end Pass.Makes

namespace Pipeline

/-- The passes, one after another, make the second program of the first without an error. -/
inductive Makes (names : Rename.Names) : List Pass → Program Origin → Program Origin → Prop
  | nil (p) : Makes names [] p p
  | cons {pass passes p q r} : pass.Makes names p q → Makes names passes q r →
      Makes names (pass :: passes) p r

namespace Makes

variable {names : Rename.Names} {passes : List Pass} {pass : Pass} {p p' : Program Origin}

theorem separate (h : Makes names passes p p') (hp : Separate ⟨.stmts, p⟩) :
    Separate ⟨.stmts, p'⟩ := by
  induction h with
  | nil p => exact hp
  | cons h _ ih => exact ih (h.separate hp)

theorem eq_of_normal (h : Makes names passes p p')
    (hp : ∀ pass ∈ passes, pass.Normal names p) : p' = p := by
  induction h with
  | nil p => rfl
  | cons h _ ih =>
    obtain ⟨hpass, hpasses⟩ := List.forall_mem_cons.1 hp
    obtain rfl := h.eq_of_normal hpass
    exact ih hpasses

variable (hnames : ∀ x v, names.lookup x = some v → names.lookup v = none)
include hnames

/-- After the passes each of them has nothing to do, and neither has another one that had nothing
before; for folding that takes a program without templates to collapse. -/
theorem normal (h : Makes names passes p p') (hp : Separate ⟨.stmts, p⟩)
    (hpass : pass ∈ passes ∨ pass.Normal names p)
    (hfold : pass = .fold → .inlineCode ∈ passes → Pass.inlineCode.Normal names p) :
    pass.Normal names p' := by
  induction h with
  | nil p => exact hpass.resolve_left List.not_mem_nil
  | @cons head passes p q r h _ ih =>
    refine ih (h.separate hp) ?_ ?_
    · rw [List.mem_cons, or_assoc, or_left_comm] at hpass
      refine hpass.imp_right fun hpass => h.normal hnames hp hpass fun hf hi => ?_
      exact hfold hf (hi ▸ List.mem_cons_self)
    · intro hf hi
      have hinline := hfold hf (List.mem_cons_of_mem head hi)
      exact h.normal hnames hp (.inr hinline) nofun

/-- Folding has nothing to do after a list in which no template collapse follows the last fold. -/
theorem fold_normal (h : Makes names passes p p') (hp : Separate ⟨.stmts, p⟩)
    (hlast : ∀ before after, passes = before ++ .fold :: after → .fold ∉ after →
      .inlineCode ∉ after) (hfold : .fold ∈ passes) : Pass.fold.Normal names p' := by
  induction h with
  | nil p => exact absurd hfold List.not_mem_nil
  | @cons head passes p q r h hs ih =>
    -- this is the last fold unless there is one among the others
    by_cases hmem : .fold ∈ passes
    · refine ih (h.separate hp) (fun before after heq => ?_) hmem
      exact hlast (head :: before) after (congrArg (head :: ·) heq)
    · obtain rfl : .fold = head := (List.mem_cons.1 hfold).resolve_right hmem
      have hq := h.normal hnames hp (.inl rfl) nofun
      refine hs.normal hnames (h.separate hp) (.inr hq) fun _ hi => ?_
      exact absurd hi (hlast [] passes rfl hmem)

end Makes

/-- The iteration after `k` others changes nothing, if none of them reports an error. -/
def SettlesAfter (names : Rename.Names) (passes : List Pass) : Nat → Program Origin → Prop
  | 0, p => ∀ p', Makes names passes p p' → p' = p
  | k + 1, p => ∀ p', Makes names passes p p' → SettlesAfter names passes k p'

section SettlesAfter

variable {names : Rename.Names} {passes : List Pass} {p : Program Origin}

theorem settlesAfter_zero (h : ∀ pass ∈ passes, pass.Normal names p) :
    SettlesAfter names passes 0 p :=
  fun _ hp' => hp'.eq_of_normal h

variable (hnames : ∀ x v, names.lookup x = some v → names.lookup v = none)
include hnames

theorem settlesAfter_one (hp : Separate ⟨.stmts, p⟩)
    (hlast : .fold ∉ passes ∨ ∀ before after, passes = before ++ .fold :: after →
      .fold ∉ after → .inlineCode ∉ after) : SettlesAfter names passes 1 p := by
  refine fun p' h => settlesAfter_zero fun pass hpass => ?_
  by_cases hf : pass = .fold
  · subst hf
    exact h.fold_normal hnames hp (hlast.resolve_left (not_not.2 hpass)) hpass
  · exact h.normal hnames hp (.inl hpass) fun hf' => absurd hf' hf

/-- The first iteration leaves no template to collapse, and so the second one nothing at all. -/
theorem settlesAfter_two (hp : Separate ⟨.stmts, p⟩) : SettlesAfter names passes 2 p := by
  refine fun q hq r hr => settlesAfter_zero fun pass hpass => ?_
  refine hr.normal hnames (hq.separate hp) (.inl hpass) fun _ hi => ?_
  exact hq.normal hnames hp (.inl hi) nofun

end SettlesAfter

section Runs

variable {names : Rename.Names} {passes : List Pass} {p p' : Program Origin} {w w' : Workspace}

theorem runPass_makes {i : Nat} {pass : Pass} (h : (runPass i pass p).run w = (.ok p', w')) :
    pass.Makes w.names p p' ∧ w'.names = w.names := by
  obtain ⟨rfl, herr, rfl⟩ := runPass_ok h
  exact ⟨⟨w, rfl, rfl, herr⟩, Pass.run_names⟩

theorem runPasses_makes {i : Nat} (h : (runPasses i passes p).run w = (.ok p', w')) :
    Makes w.names passes p p' ∧ w'.names = w.names := by
  induction passes generalizing p w with
  | nil =>
    cases h
    exact ⟨.nil p', rfl⟩
  | cons pass passes ih =>
    obtain ⟨q, v, hq, h⟩ := run_bind h
    obtain ⟨hmakes, hv⟩ := runPass_makes hq
    obtain ⟨hrest, hw'⟩ := ih h
    exact ⟨.cons hmakes (hv ▸ hrest), hw'.trans hv⟩

/-- The loop ends with the iteration that changes nothing, if it gets there. -/
theorem iterate_settles {left done k n : Nat} {converged : Bool}
    (hk : SettlesAfter w.names passes k p)
    (h : (iterate passes left done p).run w = (.ok (p', n, converged), w')) :
    n ≤ done + k + 1 ∧ (k < left → converged = true) := by
  induction left generalizing done k p w with
  | zero =>
    cases h
    exact ⟨by omega, nofun⟩
  | succ left ih =>
    obtain ⟨q, v, hq, h⟩ := run_bind h
    obtain ⟨hmakes, hv⟩ := runPasses_makes hq
    cases hsame : same q p
    · rw [hsame] at h
      cases k with
      | zero =>
        rw [hk q hmakes, same_self] at hsame
        exact absurd hsame nofun
      | succ k =>
        obtain ⟨hn, hconv⟩ := ih (hv ▸ hk q hmakes) h
        exact ⟨by omega, fun hlt => hconv (Nat.lt_of_succ_lt_succ hlt)⟩
    · rw [hsame] at h
      cases h
      exact ⟨by omega, fun _ => rfl⟩

theorem run_of_settlesAfter {P : Pipeline} {k : Nat} {r : Outcome} {log : List Record}
    (hk : SettlesAfter P.names P.passes k p) (h : P.run p = (.ok r, log)) :
    r.iterations ≤ k + 1 ∧ (k < P.maxIterations → r.converged = true) := by
  obtain ⟨v, -, hv, -⟩ := run_ok h
  obtain ⟨hn, hconv⟩ := iterate_settles (w := Workspace.new P.names) hk hv
  exact ⟨by omega, hconv⟩

end Runs

/-- A run without an error makes at most three iterations and settles if three are allowed, provided
that no new name is an old one; where no template collapse follows the last fold, two do. -/
theorem run_settles (P : Pipeline) (start : Nat) (p : Program Unit)
    (hnames : ∀ x v, P.names.lookup x = some v → P.names.lookup v = none)
    {r : Outcome} {log : List Record} (h : P.run (Object.number start .stmts p).1 = (.ok r, log)) :
    (r.iterations ≤ 3 ∧ (3 ≤ P.maxIterations → r.converged = true)) ∧
      ((.fold ∉ P.passes ∨ ∀ before after, P.passes = before ++ .fold :: after →
          .fold ∉ after → .inlineCode ∉ after) →
        r.iterations ≤ 2 ∧ (2 ≤ P.maxIterations → r.converged = true)) := by
  have hseparate := number_separate start .stmts p
  refine ⟨run_of_settlesAfter (settlesAfter_two hnames hseparate) h, fun hlast => ?_⟩
  exact run_of_settlesAfter (settlesAfter_one hnames hseparate hlast) h

/-- A template that is collapsed after the only fold leaves one to the second iteration, and the
third changes nothing. -/
theorem run_settles_negated_template :
    let P : Pipeline := ⟨[.fold, .inlineCode], [("a", "b")], 3⟩
    let p : Program Unit := ⟨(), [.node () (.expression ⟨(), .unary .not
      ⟨(), .literal "{0}" ⟨(), [⟨(), .constant (.bool true)⟩]⟩⟩⟩)]⟩
    ∃ r log, P.run (Object.number 0 .stmts p).1 = (.ok r, log) ∧ r.iterations = 3 ∧
      r.converged = true := by
  intro P p
  have hnames : ∀ x v, P.names.lookup x = some v → P.names.lookup v = none := by
    intro x v h
    have hv : v = "b" := by
      simp only [P, List.lookup_cons, List.lookup_nil] at h
      split at h
      · exact (Option.some.inj h).symm
      · exact absurd h nofun
    rw [hv]
    rfl
  have hiterations :
      (P.run (Object.number 0 .stmts p).1).1.toOption.map (·.iterations) = some 3 := by
    decide +kernel
  rcases hrun : P.run (Object.number 0 .stmts p).1 with ⟨e | r, log⟩ <;> rw [hrun] at hiterations
  · exact absurd hiterations nofun
  · have hconverged := (run_settles P 0 p hnames hrun).1.2 (Nat.le_refl 3)
    exact ⟨r, log, rfl, Option.some.inj hiterations, hconverged⟩

end Pipeline

end ScriptTree
