import Mathlib.Algebra.GroupWithZero.Nat
import Mathlib.Logic.Function.Iterate
import ScriptTree.Proofs.Counting

namespace ScriptTree

open Node

namespace Pass

/-- The pass's own counter. -/
def count : Pass → Workspace → Nat
  | .rename, w => w.renamed
  | .fold, w => w.folded
  | .inlineCode, w => w.collapsed

@[simp]
theorem count_log (pass : Pass) (w : Workspace) (log : Array Record) :
    pass.count { w with log := log } = pass.count w := by
  cases pass <;> rfl

/-- What the pass counts in a program. -/
def gain (names : Rename.Names) (p : Program Origin) (pass : Pass) : Nat :=
  pass.count (pass.run p (.new names)).2

theorem count_run (pass : Pass) (p : Program Origin) (w : Workspace) :
    pass.count (pass.run p w).2 = pass.count w + pass.gain w.names p := by
  cases pass
  case rename =>
    have h := Rename.rename_tally w.names ⟨.stmts, p⟩
    have hcount := congrArg Rename.Tally.renamed (h ⟨w.renamed, w.log⟩)
    have hgain := congrArg Rename.Tally.renamed (h ⟨0, #[]⟩)
    simp only [Rename.count, Nat.zero_add] at hcount hgain
    change (Rename.Tally.renamed _) = w.renamed + Rename.Tally.renamed _
    exact hcount.trans (congrArg _ hgain.symm)
  case fold => exact ((Fold.transform_respects w.folded).node (s := 0) ⟨.stmts, p⟩ rfl).2
  case inlineCode =>
    have h := Collapse.collapse_tally ⟨.stmts, p⟩
    have hcount := congrArg Collapse.Tally.collapsed (h ⟨w.collapsed, w.errors, w.log⟩)
    have hgain := congrArg Collapse.Tally.collapsed (h ⟨0, #[], #[]⟩)
    simp only [Collapse.tally, Nat.zero_add] at hcount hgain
    exact hcount.trans (congrArg _ hgain.symm)

/-- Renaming counts the occurrences of old names. -/
theorem gain_rename (names : Rename.Names) (p : Program Origin) : gain names p .rename =
    ((Node.bare ⟨.stmts, p⟩).occurrences.filter names.isKey).length := by
  have hcount := congrArg Rename.Tally.renamed (Rename.rename_tally names ⟨.stmts, p⟩ ⟨0, #[]⟩)
  exact hcount.trans (Nat.zero_add _)

/-- A pass leaves the counters of the others. -/
theorem count_run_of_ne {pass other : Pass} (h : other ≠ pass) (p : Program Origin)
    (w : Workspace) : other.count (pass.run p w).2 = other.count w := by
  cases pass <;> cases other <;> first | rfl | exact absurd rfl h

/-- A pass that counts nothing answers the program itself, and one that does answers another. -/
theorem apply_cases (names : Rename.Names) (pass : Pass) {p : Program Origin}
    (hp : Separate ⟨.stmts, p⟩) :
    pass.gain names p = 0 ∧ pass.apply names p = p ∨
      0 < pass.gain names p ∧ Fresh ⟨.stmts, p⟩ ⟨.stmts, pass.apply names p⟩ := by
  have htotal : (pass.run p (.new names)).2.total = pass.gain names p := by
    generalize hv : (pass.run p (.new names)).2 = v
    have hother (other : Pass) (h : other ≠ pass) : other.count v = 0 := by
      rw [← hv, count_run_of_ne h]
      cases other <;> rfl
    rw [gain, hv]
    change count .rename v + count .fold v + count .inlineCode v = pass.count v
    cases pass
    case rename => rw [hother .fold nofun, hother .inlineCode nofun, Nat.add_zero]
    case fold => rw [hother .rename nofun, hother .inlineCode nofun, Nat.zero_add, Nat.add_zero]
    case inlineCode => rw [hother .rename nofun, hother .fold nofun, Nat.zero_add]
  generalize hq : pass.apply names p = q
  have hprogress : Workspace.Progress p (.new names) q (pass.run p (.new names)).2 :=
    hq ▸ pass.run_progress (.new names) hp
  cases hprogress with
  | none hcount => exact .inl ⟨htotal.symm.trans hcount, rfl⟩
  | some hfresh hcount => exact .inr ⟨htotal ▸ hcount, hfresh⟩

theorem same_apply (names : Rename.Names) (pass : Pass) {p : Program Origin}
    (hp : Separate ⟨.stmts, p⟩) :
    (!same (pass.apply names p) p) = decide (0 < pass.gain names p) := by
  obtain ⟨hgain, heq⟩ | ⟨hgain, hfresh⟩ := apply_cases names pass hp
  · rw [heq, hgain, same_self]
    rfl
  · have hne : same (pass.apply names p) p = false :=
      decide_eq_false (hfresh.place_ne hp nofun)
    rw [hne, decide_eq_true hgain]
    rfl

end Pass

/-- A pass that was run: in which iteration, and on which program. -/
structure Execution where
  iteration : Nat
  pass : Pass
  given : Program Origin

namespace Execution

/-- What the pass counted. -/
def gain (names : Rename.Names) (e : Execution) : Nat := e.pass.gain names e.given

/-- What the run logs of it. -/
def record (names : Rename.Names) (e : Execution) : Record :=
  .passRan e.iteration e.pass (0 < e.gain names)

end Execution

namespace Pipeline

/-- The passes in order, each on the program that the one before it made. -/
def executed (names : Rename.Names) (iteration : Nat) : List Pass → Program Origin → List Execution
  | [], _ => []
  | pass :: passes, p =>
    ⟨iteration, pass, p⟩ :: executed names iteration passes (pass.apply names p)

theorem executed_passes (names : Rename.Names) (i : Nat) (passes : List Pass)
    (p : Program Origin) : (executed names i passes p).map (·.pass) = passes ∧
      ∀ e ∈ executed names i passes p, e.iteration = i := by
  induction passes generalizing p with
  | nil => exact ⟨rfl, nofun⟩
  | cons pass passes ih =>
    obtain ⟨hpasses, hiteration⟩ := ih (pass.apply names p)
    exact ⟨congrArg (pass :: ·) hpasses, List.forall_mem_cons.2 ⟨rfl, hiteration⟩⟩

/-- What one iteration makes of a program. -/
def iteration (P : Pipeline) (p : Program Origin) : Program Origin :=
  P.passes.foldl (Pass.apply P.names) p

/-- The passes of the iterations after the first `done`, in order. -/
def executions (P : Pipeline) (done n : Nat) (p : Program Origin) : List Execution :=
  (List.range n).flatMap fun i => executed P.names (done + i + 1) P.passes (P.iteration^[i] p)

theorem executions_succ (P : Pipeline) (done n : Nat) (p : Program Origin) :
    P.executions done (n + 1) p = executed P.names (done + 1) P.passes p ++
      P.executions (done + 1) n (P.iteration p) := by
  rw [executions, List.range_succ_eq_map, List.flatMap_cons, List.flatMap_map]
  refine congrArg₂ _ rfl (List.flatMap_congr fun i _ => ?_)
  have hnumber : done + i.succ + 1 = done + 1 + i + 1 := by omega
  rw [hnumber]
  rfl

section Changes

variable {names : Rename.Names} {p : Program Origin}

/-- Passes that count nothing answer the program itself, and passes of which one does answer
another: none of them undoes what one before it did. -/
theorem executed_cases (i : Nat) (passes : List Pass) (hp : Separate ⟨.stmts, p⟩) :
    (¬∃ e ∈ executed names i passes p, 0 < e.gain names) ∧
        passes.foldl (Pass.apply names) p = p ∨
      (∃ e ∈ executed names i passes p, 0 < e.gain names) ∧
        Fresh ⟨.stmts, p⟩ ⟨.stmts, passes.foldl (Pass.apply names) p⟩ := by
  induction passes generalizing p with
  | nil => exact .inl ⟨nofun, rfl⟩
  | cons pass passes ih =>
    rw [List.foldl_cons, executed, List.exists_mem_cons_iff]
    obtain ⟨hgain, heq⟩ | ⟨hgain, hfresh⟩ := pass.apply_cases names hp
    · rw [heq]
      have hnone : ¬0 < Execution.gain names ⟨i, pass, p⟩ := Nat.not_lt.2 (Nat.le_of_eq hgain)
      rw [or_iff_right hnone]
      exact ih hp
    · refine .inr ⟨.inl hgain, ?_⟩
      obtain ⟨-, heq⟩ | ⟨-, hfresh'⟩ := ih hfresh.separate
      · rwa [heq]
      · exact Tame.fresh_trans (.inr hfresh) hfresh'

end Changes

end Pipeline

/-- The executed passes leave what they counted, one record for each, and otherwise only records of
single renames and collapses. -/
structure Workspace.Reports (w : Workspace) (ran : List Execution) (w' : Workspace) : Prop where
  names : w'.names = w.names
  count : ∀ pass : Pass, pass.count w' =
    pass.count w + ((ran.filter (·.pass = pass)).map (·.gain w.names)).sum
  log : w'.log.toList.filter (·.level ≠ .trace) =
    w.log.toList.filter (·.level ≠ .trace) ++ ran.map (·.record w.names)

namespace Workspace.Reports

variable {w w' w'' : Workspace} {ran ran' : List Execution}

theorem refl (w : Workspace) : w.Reports [] w where
  names := rfl
  count _ := rfl
  log := (List.append_nil _).symm

theorem trans (h : w.Reports ran w') (h' : w'.Reports ran' w'') :
    w.Reports (ran ++ ran') w'' where
  names := h'.names.trans h.names
  count pass := by
    rw [h'.count, h.count, h.names, List.filter_append, List.map_append, List.sum_append,
      Nat.add_assoc]
  log := by rw [h'.log, h.log, h.names, List.map_append, List.append_assoc]

end Workspace.Reports

namespace Pipeline

section Runs

variable {passes : List Pass} {p p' : Program Origin} {w w' : Workspace} {i : Nat}

theorem runPass_reports {pass : Pass} (hp : Separate ⟨.stmts, p⟩)
    (h : (runPass i pass p).run w = (.ok p', w')) :
    p' = pass.apply w.names p ∧ w.Reports [⟨i, pass, p⟩] w' := by
  obtain ⟨rfl, herrors, rfl⟩ := runPass_ok h
  have hfaults : pass.faults p = [] := by
    rw [Pass.run_errors] at herrors
    have happend := congrArg Array.toList herrors
    rw [Array.toList_appendList] at happend
    exact (List.append_eq_nil_iff.1 happend).2
  refine ⟨pass.run_fst p w, Pass.run_names, fun other => ?_, ?_⟩
  · by_cases hother : other = pass
    · subst hother
      have hcount := Pass.count_run other p w
      simpa [Execution.gain] using hcount
    · have hcount := Pass.count_run_of_ne hother p w
      simpa [Ne.symm hother] using hcount
  · obtain ⟨records, hlog, hrecords⟩ := pass.run_logs p w
    have hnone : records.filter (·.level ≠ .trace) = [] := by
      rw [List.filter_eq_nil_iff]
      intro record hrecord
      simp [(hrecords record hrecord).2 hfaults]
    have hrecord : Record.passRan i pass (!same (pass.run p w).1 p) =
        Execution.record w.names ⟨i, pass, p⟩ := by
      rw [pass.run_fst, pass.same_apply w.names hp]
      rfl
    have hlevel : (Execution.record w.names ⟨i, pass, p⟩).level = .debug := rfl
    rw [hrecord, hlog, Array.toList_push, Array.toList_appendList, List.filter_append,
      List.filter_append, hnone, List.append_nil]
    simp [hlevel]

theorem runPasses_reports (hp : Separate ⟨.stmts, p⟩)
    (h : (runPasses i passes p).run w = (.ok p', w')) :
    p' = passes.foldl (Pass.apply w.names) p ∧ w.Reports (executed w.names i passes p) w' := by
  induction passes generalizing p w with
  | nil =>
    cases h
    exact ⟨rfl, .refl _⟩
  | cons pass passes ih =>
    obtain ⟨q, v, hq, h⟩ := run_bind h
    obtain ⟨rfl, hreports⟩ := runPass_reports hp hq
    have hq : Separate ⟨.stmts, pass.apply w.names p⟩ := by
      rw [← pass.run_fst]
      exact Pass.run_separate hp
    obtain ⟨hprogram, hrest⟩ := ih hq h
    rw [hreports.names] at hprogram hrest
    exact ⟨hprogram, hreports.trans hrest⟩

/-- The loop runs the passes until an iteration changes nothing or none is left. -/
theorem iterate_reports {P : Pipeline} {left done n : Nat} {converged : Bool}
    (hw : w.names = P.names) (hp : Separate ⟨.stmts, p⟩)
    (h : (iterate P.passes left done p).run w = (.ok (p', n, converged), w')) :
    ∃ k, n = done + k ∧ k ≤ left ∧ w.Reports (P.executions done k p) w' ∧
      p' = P.iteration^[k] p ∧ (converged = false → k = left) ∧
      (converged = true → 1 ≤ k ∧ p' = P.iteration^[k - 1] p) ∧
      ∀ j < k, (∃ e ∈ executed P.names (done + j + 1) P.passes (P.iteration^[j] p),
        0 < e.gain P.names) ↔ ¬(j + 1 = k ∧ converged = true) := by
  induction left generalizing done p w with
  | zero =>
    cases h
    exact ⟨0, rfl, Nat.le_refl 0, .refl _, rfl, fun _ => rfl, nofun, nofun⟩
  | succ left ih =>
    obtain ⟨q, v, hq, h⟩ := run_bind h
    obtain ⟨hprogram, hreports⟩ := runPasses_reports hp hq
    rw [hw] at hprogram hreports
    obtain ⟨hnone, heq⟩ | ⟨hsome, hfresh⟩ := executed_cases (done + 1) P.passes hp
    · obtain rfl : q = p := hprogram.trans heq
      rw [if_pos (same_self q)] at h
      cases h
      refine ⟨1, rfl, Nat.le_add_left 1 left, ?_, heq.symm, nofun, fun _ => ⟨Nat.le_refl 1, rfl⟩,
        fun j hj => ?_⟩
      · have hone : P.executions done 1 p' = executed P.names (done + 1) P.passes p' :=
          (P.executions_succ done 0 p').trans (List.append_nil _)
        rwa [hone]
      · obtain rfl : j = 0 := by omega
        exact iff_of_false hnone (not_not.2 ⟨rfl, rfl⟩)
    · rw [← hprogram] at hfresh
      have hne : same q p = false := decide_eq_false (hfresh.place_ne hp nofun)
      rw [hne] at h
      obtain ⟨k, rfl, hk, hrest, hend, hlimit, hsettled, hchanged⟩ :=
        ih (hreports.names.trans hw) hfresh.separate h
      have hq : P.iteration p = q := hprogram.symm
      refine ⟨k + 1, by omega, by omega, ?_, ?_, fun hc => congrArg (· + 1) (hlimit hc),
        fun hc => ⟨by omega, ?_⟩, fun j hj => ?_⟩
      · rw [executions_succ, hq]
        exact hreports.trans hrest
      · rw [Function.iterate_succ_apply, hq]
        exact hend
      · obtain ⟨hk, hsame⟩ := hsettled hc
        obtain ⟨k, rfl⟩ := Nat.exists_eq_add_of_le' hk
        rw [Nat.add_sub_cancel, Function.iterate_succ_apply, hq]
        exact hsame
      · cases j with
        | zero =>
          refine iff_of_true hsome ?_
          rintro ⟨hlast, hc⟩
          have hk := (hsettled hc).1
          omega
        | succ j =>
          have hnumber : done + (j + 1) + 1 = done + 1 + j + 1 := by omega
          rw [Function.iterate_succ_apply, hq, hnumber, Nat.add_right_cancel_iff (n := 1)]
          exact hchanged j (Nat.lt_of_succ_lt_succ hj)

end Runs

/-- The counter of the pass in the report. -/
def Outcome.count (r : Outcome) : Pass → Nat
  | .rename => r.renamed
  | .fold => r.folded
  | .inlineCode => r.collapsed

section OnePass

variable {P : Pipeline} {pass : Pass} {p : Program Origin} {r : Outcome} {log : List Record}

theorem iteration_separate (hp : Separate ⟨.stmts, p⟩) (n : Nat) :
    Separate ⟨.stmts, P.iteration^[n] p⟩ := by
  induction n with
  | zero => exact hp
  | succ n ih =>
    rw [Function.iterate_succ_apply']
    obtain ⟨-, heq⟩ | ⟨-, hfresh⟩ := @executed_cases P.names _ 0 P.passes ih
    · rwa [iteration, heq]
    · exact hfresh.separate

theorem executed_single (names : Rename.Names) (i : Nat) (pass : Pass) (p : Program Origin) :
    (∃ e ∈ executed names i [pass] p, 0 < e.gain names) ↔ 0 < pass.gain names p := by
  rw [executed, List.exists_mem_cons_iff]
  exact or_iff_left nofun

theorem executions_single (hP : P.passes = [pass]) (n : Nat) (p : Program Origin) :
    (((P.executions 0 n p).filter (·.pass = pass)).map (·.gain P.names)).sum =
      ((List.range n).map fun i => pass.gain P.names (P.iteration^[i] p)).sum := by
  rw [executions, hP]
  simp only [executed, ← List.map_eq_flatMap]
  rw [List.filter_eq_self.2 (by simp), List.map_map]
  rfl

/-- A run logs that it did not settle exactly when it stopped at a limit above one. -/
theorem unsettled_mem_iff (hp : Separate ⟨.stmts, p⟩) (h : P.run p = (.ok r, log)) (n : Nat) :
    .unsettled n ∈ log ↔ r.converged = false ∧ 1 < P.maxIterations ∧ n = r.iterations := by
  obtain ⟨v, w', hv, hw', rfl, -⟩ := run_ok h
  obtain ⟨k, -, -, hreports, -⟩ := iterate_reports (w := .new P.names) rfl hp hv
  have hnone : .unsettled n ∉ v.log.toList := by
    intro hmem
    have hwarned : (Record.unsettled n).level ≠ .trace := nofun
    have hreported : .unsettled n ∈ v.log.toList.filter (·.level ≠ .trace) :=
      List.mem_filter.2 ⟨hmem, decide_eq_true hwarned⟩
    rw [hreports.log] at hreported
    obtain ⟨_, -, heq⟩ := List.mem_map.1 hreported
    exact absurd heq nofun
  rw [hw']
  by_cases hlimit : (!r.converged && 1 < P.maxIterations) = true
  · have hstopped : r.converged = false ∧ 1 < P.maxIterations := by simpa using hlimit
    simp [hstopped, hnone]
  · have hsettled : ¬(r.converged = false ∧ 1 < P.maxIterations) := by simpa using hlimit
    rw [if_neg hlimit, ← and_assoc]
    exact iff_of_false hnone fun hstopped => hsettled hstopped.1

/-- A loop of at most `limit` rounds, which settles in the first that changes nothing. -/
structure Repeated (changes : Nat → Prop) (limit rounds : Nat) (settled : Bool) : Prop where
  changes_iff : ∀ i < rounds, changes i ↔ ¬(i + 1 = rounds ∧ settled = true)
  exhausted : settled = false → rounds = limit
  pos : settled = true → 1 ≤ rounds
  le : rounds ≤ limit

/-- A single pass is repeated until it counts nothing, and what the run ends with is what all the
iterations that the limit allows would make. -/
theorem run_single (hP : P.passes = [pass]) (hp : Separate ⟨.stmts, p⟩)
    (h : P.run p = (.ok r, log)) :
    Repeated (fun i => 0 < pass.gain P.names (P.iteration^[i] p)) P.maxIterations r.iterations
        r.converged ∧
      r.program = P.iteration^[P.maxIterations] p ∧
      r.count pass = ((List.range r.iterations).map fun i =>
        pass.gain P.names (P.iteration^[i] p)).sum := by
  obtain ⟨v, w', hv, hw', -, hrenamed, hfolded, hcollapsed⟩ := run_ok h
  obtain ⟨k, hk, hle, hreports, hprogram, hlimit, hsettled, hchanged⟩ :=
    iterate_reports (w := .new P.names) rfl hp hv
  obtain rfl : r.iterations = k := hk.trans (Nat.zero_add k)
  refine ⟨⟨fun j hj => ?_, hlimit, fun hc => (hsettled hc).1, hle⟩, ?_, ?_⟩
  · rw [← hchanged j hj, hP, executed_single]
  · cases hc : r.converged with
    | false => rw [hprogram, hlimit hc]
    | true =>
      obtain ⟨hpos, hbefore⟩ := hsettled hc
      have hfixed : P.iteration r.program = r.program := by
        calc
          P.iteration r.program = P.iteration (P.iteration^[r.iterations - 1] p) := by rw [hbefore]
          _ = P.iteration^[r.iterations - 1 + 1] p := (Function.iterate_succ_apply' ..).symm
          _ = r.program := by rw [Nat.sub_add_cancel hpos, hprogram]
      obtain ⟨left, hleft⟩ := Nat.exists_eq_add_of_le' hle
      rw [hleft, Function.iterate_add_apply, ← hprogram, Function.iterate_fixed hfixed]
  · rw [← executions_single hP]
    have hsum := hreports.count pass
    have hcount : pass.count w' = pass.count v := by
      rw [hw']
      split <;> simp
    rw [← hcount] at hsum
    cases pass
    case rename => exact hrenamed.trans (hsum.trans (Nat.zero_add _))
    case fold => exact hfolded.trans (hsum.trans (Nat.zero_add _))
    case inlineCode => exact hcollapsed.trans (hsum.trans (Nat.zero_add _))

end OnePass

/-- The report of a run without an error: one record for each executed pass, the passes in order
once for each iteration; changes in every iteration but the last of a run that settled; and the sums
of what the passes counted. -/
theorem run_report (P : Pipeline) (start : Nat) (p : Program Unit) {r : Outcome}
    {log : List Record} (h : P.run (Object.number start .stmts p).1 = (.ok r, log)) :
    let p₀ := (Object.number start .stmts p).1
    let iteration := fun i => executed P.names (i + 1) P.passes (P.iteration^[i] p₀)
    let ran := (List.range r.iterations).flatMap iteration
    log.filter (·.level ≠ .trace) = ran.map (·.record P.names) ++
        (if r.converged = false ∧ 1 < P.maxIterations then [.unsettled r.iterations] else []) ∧
      (∀ i, (iteration i).map (·.pass) = P.passes ∧ ∀ e ∈ iteration i, e.iteration = i + 1) ∧
      (∀ (pass : Pass) q (w : Workspace), w.names = P.names →
        (pass.run q w).1 = pass.apply P.names q ∧ ∀ other : Pass, other.count (pass.run q w).2 =
          other.count w + if other = pass then pass.gain P.names q else 0) ∧
      (∀ i < r.iterations, (∃ e ∈ iteration i, 0 < e.gain P.names) ↔
        ¬(i + 1 = r.iterations ∧ r.converged = true)) ∧
      (r.converged = false → r.iterations = P.maxIterations) ∧
      (r.converged = true → 1 ≤ r.iterations ∧ r.iterations ≤ P.maxIterations) ∧
      r.program = P.iteration^[r.iterations] p₀ ∧
      (r.converged = true → r.program = P.iteration^[r.iterations - 1] p₀) ∧
      ∀ pass, r.count pass = ((ran.filter (·.pass = pass)).map (·.gain P.names)).sum := by
  intro p₀ iteration ran
  have hp : Separate ⟨.stmts, p₀⟩ := number_separate start .stmts p
  obtain ⟨v, w', hv, hw', rfl, hrenamed, hfolded, hcollapsed⟩ := run_ok h
  obtain ⟨k, hk, hle, hreports, hprogram, hlimit, hsettled, hchanged⟩ :=
    iterate_reports (w := .new P.names) rfl hp hv
  obtain rfl : r.iterations = k := hk.trans (Nat.zero_add k)
  have hran : P.executions 0 r.iterations p₀ = ran := by
    simp only [executions, Nat.zero_add]
    rfl
  rw [hran] at hreports
  have hcount : ∀ pass : Pass, pass.count w' = pass.count v := by
    intro pass
    rw [hw']
    split <;> simp
  refine ⟨?_, ?_, ?_, ?_, hlimit, ?_, hprogram, ?_, ?_⟩
  · have hlog : v.log.toList.filter (·.level ≠ .trace) = ran.map (·.record P.names) :=
      hreports.log
    have hlimit : (!r.converged && 1 < P.maxIterations) = true ↔
        r.converged = false ∧ 1 < P.maxIterations := by simp
    rw [hw']
    by_cases hstopped : r.converged = false ∧ 1 < P.maxIterations
    · rw [if_pos (hlimit.2 hstopped), if_pos hstopped, Array.toList_push, List.filter_append, hlog]
      rfl
    · rw [if_neg (mt hlimit.1 hstopped), if_neg hstopped, hlog, List.append_nil]
  · exact fun i => executed_passes P.names (i + 1) P.passes _
  · intro pass q w hw
    refine ⟨hw ▸ pass.run_fst q w, fun other => ?_⟩
    split
    · subst other
      rw [pass.count_run, hw]
    · exact Pass.count_run_of_ne ‹_› q w
  · intro i hi
    have hi := hchanged i hi
    rwa [Nat.zero_add] at hi
  · exact fun hc => ⟨(hsettled hc).1, hle⟩
  · exact fun hc => (hsettled hc).2
  · intro pass
    have hsum := hreports.count pass
    rw [← hcount] at hsum
    cases pass
    case rename => exact hrenamed.trans (hsum.trans (Nat.zero_add _))
    case fold => exact hfolded.trans (hsum.trans (Nat.zero_add _))
    case inlineCode => exact hcollapsed.trans (hsum.trans (Nat.zero_add _))

/-- A negation is folded in the first iteration, and the second changes nothing. -/
theorem run_report_negation :
    let P : Pipeline := ⟨[.rename, .fold], [("a", "b")], 3⟩
    let p : Program Unit := ⟨(), [.node () (.expression ⟨(), .unary .not
      ⟨(), .constant (.bool true)⟩⟩)]⟩
    ∃ r log, P.run (Object.number 0 .stmts p).1 = (.ok r, log) ∧
      log.filter (·.level ≠ .trace) = [.passRan 1 .rename false, .passRan 1 .fold true,
        .passRan 2 .rename false, .passRan 2 .fold false] ∧ r.folded = 1 := by
  intro P p
  have hsettles : (P.run (Object.number 0 .stmts p).1).1.toOption.map
      (fun r => (r.iterations, r.converged)) = some (2, true) := by decide +kernel
  rcases hrun : P.run (Object.number 0 .stmts p).1 with ⟨e | r, log⟩ <;> rw [hrun] at hsettles
  · exact absurd hsettles nofun
  · obtain ⟨hiterations, hconverged⟩ := Prod.mk.inj (Option.some.inj hsettles)
    obtain ⟨hlog, -, -, -, -, -, -, -, hcount⟩ := run_report P 0 p hrun
    have hfolded := hcount .fold
    rw [hiterations, hconverged] at hlog
    rw [hiterations] at hfolded
    refine ⟨r, log, rfl, hlog.trans ?_, hfolded.trans ?_⟩
    · decide +kernel
    · decide +kernel

end Pipeline

end ScriptTree
