import ScriptTree.Proofs.Numbering
import ScriptTree.Proofs.Runs

namespace ScriptTree

open Node

variable {ι : Type}

/-- A literal whose format is refused, or has a placeholder without an argument. -/
inductive Node.Invalid : Node ι → Prop
  | malformed {o format args e} : Template.parse format = .error e →
      Invalid ⟨.expr, ⟨o, .literal format args⟩⟩
  | missing {o format args segments i} : Template.parse format = .ok segments →
      .argument i ∈ segments → args.items.length ≤ i → Invalid ⟨.expr, ⟨o, .literal format args⟩⟩

theorem Node.mem_faults_of_missing {n : Node ι} {format : String} {available i : Nat}
    {segments : List Template.Segment} (ht : n.template? = some (format, available))
    (hp : Template.parse format = .ok segments) (hi : .argument i ∈ segments)
    (hle : available ≤ i) : .templateArgument format i available ∈ n.faults := by
  unfold Node.faults
  simp only [ht, hp]
  exact List.mem_filterMap.2 ⟨.argument i, hi, if_pos hle⟩

/-- The invalid literals are those with something wrong about them. -/
theorem Node.faults_ne_nil_iff {n : Node ι} : n.faults ≠ [] ↔ n.Invalid := by
  constructor
  · intro h
    cases ht : n.template? with
    | none => exact absurd (by simp [Node.faults, ht]) h
    | some template =>
      obtain ⟨o, args, rfl, hargs⟩ := template?_eq_some_iff.1 ht
      cases hp : Template.parse template.1 with
      | error e => exact .malformed hp
      | ok segments =>
        obtain ⟨e, he⟩ := List.exists_mem_of_ne_nil _ h
        unfold Node.faults at he
        simp only [ht, hp] at he
        obtain ⟨segment, hmem, he⟩ := List.mem_filterMap.1 he
        cases segment with
        | text content => cases he
        | argument i =>
          by_cases hi : template.2 ≤ i
          · exact .missing hp hmem (hargs ▸ hi)
          · simp [hi] at he
  · rintro (hp | ⟨hp, hi, hle⟩)
    · simp [Node.faults, template?, hp]
    · exact List.ne_nil_of_mem (mem_faults_of_missing rfl hp hi hle)

namespace Pipeline

section Valid

variable {names : Rename.Names} {passes : List Pass} {p : Program Origin}

theorem faults_of_normal (h : Pass.inlineCode.Normal names p) : Pass.inlineCode.faults p = [] := by
  have hrun := Pass.run_errors .inlineCode p (.new names)
  have htally := congrArg Prod.snd (Collapse.collapse_of_normal h ⟨0, #[], #[]⟩)
  have herrors := congrArg Collapse.Tally.errors htally
  exact (Collapse.errors_of_append (hrun.symm.trans herrors)).2

theorem separate_foldl (hp : Separate ⟨.stmts, p⟩) :
    Separate ⟨.stmts, passes.foldl (Pass.apply names) p⟩ := by
  induction passes generalizing p with
  | nil => exact hp
  | cons pass passes ih => exact ih (Pass.run_separate hp)

variable (names)

/-- Template collapse leaves nothing to collapse of a program without invalid literals. -/
theorem normal_apply (hp : Separate ⟨.stmts, p⟩) (h : Pass.inlineCode.faults p = []) :
    Pass.inlineCode.Normal names (Pass.inlineCode.apply names p) := by
  have herrors : (Pass.inlineCode.run p (.new names)).2.errors = #[] := by
    rw [Pass.run_errors, h]
    rfl
  exact Collapse.collapse_normal hp herrors

/-- Whatever passes follow report nothing of a program without templates to collapse. -/
theorem normal_safe (passes : List Pass) :
    Safe names passes fun p => Pass.inlineCode.Normal names p := by
  intro pass _ p hp
  refine ⟨?_, Pass.run_keeps (w := .new names) hp nofun⟩
  cases pass
  case inlineCode => exact faults_of_normal hp
  all_goals rfl

theorem safe_of_not_mem (h : .inlineCode ∉ passes) : Safe names passes fun _ => True := by
  intro pass hpass p _
  refine ⟨?_, trivial⟩
  cases pass
  case inlineCode => exact absurd hpass h
  all_goals rfl

theorem exists_first_collapse (h : .inlineCode ∈ passes) :
    ∃ after, passes = passes.takeWhile (· ≠ Pass.inlineCode) ++ .inlineCode :: after := by
  obtain ⟨before, after, rfl, hbefore⟩ := List.eq_append_cons_of_mem h
  have hne : ∀ pass ∈ before, decide (pass ≠ Pass.inlineCode) := by
    intro pass hpass
    exact decide_eq_true fun h => hbefore (h ▸ hpass)
  refine ⟨after, ?_⟩
  rw [List.takeWhile_append_of_pos hne]
  simp

end Valid

/-- A run is ended by the first error of its first template collapse, or by none. -/
theorem run_cases {P : Pipeline} (hP : 1 ≤ P.maxIterations) {p : Program Origin}
    (hp : Separate ⟨.stmts, p⟩) :
    let before := P.passes.takeWhile (· ≠ Pass.inlineCode)
    let q := before.foldl (Pass.apply P.names) p
    (.inlineCode ∈ P.passes ∧ ∃ e es, Pass.inlineCode.faults q = e :: es ∧
        (P.run p).1 = .error e ∧
        (P.run p).2.filterMap Record.pass? = (before ++ [Pass.inlineCode]).map (1, ·)) ∨
      (.inlineCode ∈ P.passes → Pass.inlineCode.faults q = []) ∧ ∃ r, (P.run p).1 = .ok r := by
  intro before q
  have hbefore : .inlineCode ∉ before := by
    intro h
    simpa using List.mem_takeWhile_imp h
  obtain ⟨hfirst, -⟩ := (safe_of_not_mem P.names hbefore).foldlM_step (p := p) trivial
  by_cases hmem : .inlineCode ∈ P.passes
  · obtain ⟨after, hpasses⟩ := exists_first_collapse hmem
    cases hfaults : Pass.inlineCode.faults q with
    | cons e es =>
      have hstep : Pass.inlineCode.step P.names q = .error e := by rw [Pass.step, hfaults]
      exact .inl ⟨hmem, e, es, rfl, run_error hP hpasses hfirst hstep⟩
    | nil =>
      have hstep : Pass.inlineCode.step P.names q = .ok (Pass.inlineCode.apply P.names q) := by
        rw [Pass.step, hfaults]
      -- from here on there are no templates to collapse
      have hnormal := normal_apply P.names (separate_foldl hp) hfaults
      obtain ⟨hrest, hend⟩ := (normal_safe P.names after).foldlM_step hnormal
      refine .inr ⟨fun _ => rfl, run_of_safe ?_ (normal_safe P.names P.passes) hend⟩
      have hlast : (.inlineCode :: after).foldlM (Pass.step P.names) q =
          .ok (after.foldl (Pass.apply P.names) (Pass.inlineCode.apply P.names q)) := by
        rw [List.foldlM_cons, hstep]
        exact hrest
      rw [hpasses, List.foldlM_append, hfirst]
      exact hlast
  · obtain ⟨hall, -⟩ := (safe_of_not_mem P.names hmem).foldlM_step (p := p) trivial
    exact .inr ⟨fun h => absurd h hmem, run_of_safe hall (safe_of_not_mem P.names hmem) trivial⟩

/-- A run fails exactly when the first template collapse of its first iteration finds an invalid
literal, and then there, with what is wrong with the first such literal; after a first collapse that
finds none no pass reports anything. -/
theorem run_error_iff_invalid (P : Pipeline) (hP : 1 ≤ P.maxIterations) (start : Nat)
    (p : Program Unit) :
    let p₀ := (Object.number start .stmts p).1
    let before := P.passes.takeWhile (· ≠ Pass.inlineCode)
    let q := before.foldl (Pass.apply P.names) p₀
    let objects := (Node.mk .stmts q).postorder
    ((∃ e, (P.run p₀).1 = .error e) ↔ .inlineCode ∈ P.passes ∧ ∃ m ∈ objects, m.Invalid) ∧
      (∀ e, (P.run p₀).1 = .error e → (objects.flatMap Node.faults).head? = some e ∧
        (P.run p₀).2.filterMap Record.pass? = (before ++ [Pass.inlineCode]).map (1, ·)) ∧
      ((∀ m ∈ objects, ¬m.Invalid) → ∀ (later : List Pass) (pass : Pass) (w : Workspace),
        let made := later.foldl (Pass.apply P.names) (Pass.inlineCode.apply P.names q)
        (pass.run made w).2.errors = w.errors) := by
  intro p₀ before q objects
  have hp : Separate ⟨.stmts, p₀⟩ := number_separate start .stmts p
  have hinvalid : (∃ m ∈ objects, m.Invalid) ↔ Pass.inlineCode.faults q ≠ [] := by
    have h : Pass.inlineCode.faults q = [] ↔ ∀ m ∈ objects, m.faults = [] :=
      List.flatMap_eq_nil_iff
    simp only [ne_eq, h, ← faults_ne_nil_iff, not_forall, exists_prop]
  refine ⟨?_, fun e he => ?_, fun h later pass w => ?_⟩
  · obtain ⟨hmem, e, es, hfaults, hrun, -⟩ | ⟨hnone, r, hr⟩ := run_cases hP hp
    · exact iff_of_true ⟨e, hrun⟩ ⟨hmem, hinvalid.2 (hfaults ▸ nofun)⟩
    · refine iff_of_false ?_ fun ⟨hmem, hm⟩ => hinvalid.1 hm (hnone hmem)
      rintro ⟨e, he⟩
      exact absurd (hr.symm.trans he) nofun
  · obtain ⟨-, e', es, hfaults, hrun, hlog⟩ | ⟨-, r, hr⟩ := run_cases hP hp
    · obtain rfl : e' = e := Except.error.inj (hrun.symm.trans he)
      exact ⟨congrArg List.head? hfaults, hlog⟩
    · exact absurd (hr.symm.trans he) nofun
  · intro made
    have hnone : Pass.inlineCode.faults q = [] := by
      by_contra hne
      obtain ⟨m, hm, hinv⟩ := hinvalid.2 hne
      exact h m hm hinv
    have hnormal := normal_apply P.names (separate_foldl hp) hnone
    obtain ⟨-, hmade⟩ := (normal_safe P.names later).foldlM_step hnormal
    obtain ⟨hfaults, -⟩ := normal_safe P.names [pass] pass List.mem_cons_self _ hmade
    rw [Pass.run_errors, hfaults]
    exact Array.appendList_nil

/-- Folding drops the first of two invalid literals, so that the run fails with the second. -/
theorem run_error_after_fold :
    let P : Pipeline := ⟨[.fold, .inlineCode, .rename], [], 2⟩
    let literal (format : String) : Stmt Unit := .node () (.expression ⟨(), .literal format .blank⟩)
    let p : Program Unit := ⟨(), [.node () (.ifElse ⟨(), .constant (.bool false)⟩
      ⟨(), ⟨(), [literal "{0}"]⟩⟩ none), literal "\x7b"]⟩
    let r := P.run (Object.number 0 .stmts p).1
    r.1 = .error (.malformedTemplate "\x7b" 0) ∧
      r.2.filterMap Record.pass? = [(1, .fold), (1, .inlineCode)] := by
  intro P literal p r
  have herror : (match r.1 with | .error e => some e | .ok _ => none) =
      some (.malformedTemplate "\x7b" 0) := by decide +kernel
  have hr : r.1 = .error (.malformedTemplate "\x7b" 0) := by
    split at herror
    · rename_i e he
      rw [he, Option.some.inj herror]
    · exact absurd herror nofun
  exact ⟨hr, ((run_error_iff_invalid P (by decide) 0 p).2.1 _ hr).2⟩

end Pipeline

end ScriptTree
