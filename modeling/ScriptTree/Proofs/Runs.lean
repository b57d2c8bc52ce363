import ScriptTree.Pipeline
import ScriptTree.Proofs.PassEffect

namespace ScriptTree

namespace Pass

/-- The program that the pass makes of another, or the first error that it reports. -/
def step (names : Rename.Names) (p : Program Origin) (pass : Pass) :
    Except Error (Program Origin) :=
  match pass.faults p with
  | [] => .ok (apply names p pass)
  | e :: _ => .error e

end Pass

/-- What the passes that ran leave in the workspace to those that follow, and that they ran. -/
structure Workspace.Follows (w : Workspace) (ran : List (Nat × Pass)) (w' : Workspace) : Prop where
  names : w'.names = w.names
  errors : w'.errors = #[]
  ran : w'.log.toList.filterMap Record.pass? = w.log.toList.filterMap Record.pass? ++ ran

theorem Workspace.Follows.trans {w w' w'' : Workspace} {ran ran' : List (Nat × Pass)}
    (h : w.Follows ran w') (h' : w'.Follows ran' w'') : w.Follows (ran ++ ran') w'' where
  names := h'.names.trans h.names
  errors := h'.errors
  ran := by rw [h'.ran, h.ran, List.append_assoc]

namespace Pipeline

section Runs

variable {passes : List Pass} {pass : Pass} {p q : Program Origin} {w v : Workspace} {i : Nat}
  {e : Error}

theorem run_bind_ok {α β : Type} {x : Run α} {a : α} (h : x.run w = (.ok a, v)) (f : α → Run β) :
    (x >>= f).run w = (f a).run v := by
  rw [ExceptT.run_bind]
  simp only [bind, StateT.bind, h]

theorem run_bind_error {α β : Type} {x : Run α} (h : x.run w = (.error e, v)) (f : α → Run β) :
    (x >>= f).run w = (.error e, v) := by
  rw [ExceptT.run_bind]
  simp only [bind, StateT.bind, h]
  rfl

theorem run_bind {α β : Type} {x : Run α} {f : α → Run β} {b : β} {w' : Workspace}
    (h : (x >>= f).run w = (.ok b, w')) :
    ∃ a v, x.run w = (.ok a, v) ∧ (f a).run v = (.ok b, w') := by
  rcases hx : x.run w with ⟨_ | a, v⟩
  · rw [run_bind_error hx] at h
    exact absurd h nofun
  · rw [run_bind_ok hx] at h
    exact ⟨a, v, rfl, h⟩

theorem record_run (r : Record) (w : Workspace) :
    (liftM (Workspace.record r) : Run Unit).run w = (.ok (), { w with log := w.log.push r }) := rfl

theorem run_forM_fault (es : List Error) (w : Workspace) :
    (es.forM fun e => (liftM (Workspace.record (.fault e)) : Run PUnit)).run w =
      (.ok (), { w with log := w.log ++ es.map Record.fault }) := by
  induction es generalizing w with
  | nil =>
    show (Except.ok (), w) = _
    simp
  | cons e es ih =>
    rw [List.forM, run_bind_ok (record_run (.fault e) w), ih]
    simp

/-- One pass of a run answers its program, or fails with the first error that it reports. -/
theorem runPass_run (i : Nat) (pass : Pass) (p : Program Origin) (hw : w.errors = #[]) :
    ∃ w', (runPass i pass p).run w = (pass.step w.names p, w') ∧ w.Follows [(i, pass)] w' := by
  have hpass : (liftM (pass.run p) : Run (Program Origin)).run w =
      (.ok (pass.run p w).1, (pass.run p w).2) := rfl
  unfold runPass
  rw [run_bind_ok hpass, run_bind_ok (record_run _ _)]
  -- the workspace in which the errors are looked for
  generalize hv : ({ (pass.run p w).2 with
    log := (pass.run p w).2.log.push (.passRan i pass !same (pass.run p w).1 p) } : Workspace) = v
  have hget : (get : Run Workspace).run v = (.ok v, v) := rfl
  have hnames : v.names = w.names := by
    rw [← hv]
    exact Pass.run_names
  have herrors : v.errors = (pass.faults p).toArray := by
    rw [← hv]
    simp [Pass.run_errors, hw]
  have hran : v.log.toList.filterMap Record.pass? =
      w.log.toList.filterMap Record.pass? ++ [(i, pass)] := by
    rw [← hv, ← Pass.run_log pass p w]
    simp [Record.pass?]
  rw [run_bind_ok hget, herrors]
  unfold Pass.step
  cases hf : pass.faults p with
  | nil =>
    rw [hf] at herrors
    rw [Pass.run_fst]
    exact ⟨v, rfl, hnames, herrors, hran⟩
  | cons e es =>
    dsimp only
    rw [run_bind_ok (run_forM_fault es v)]
    refine ⟨_, rfl, hnames, rfl, ?_⟩
    simp [hran, Function.comp_def, Record.pass?]

theorem runPasses_append (i : Nat) (passes passes' : List Pass) (p : Program Origin) :
    runPasses i (passes ++ passes') p = runPasses i passes p >>= runPasses i passes' := by
  induction passes generalizing p with
  | nil => exact (pure_bind p _).symm
  | cons pass passes ih =>
    show runPass i pass p >>= runPasses i (passes ++ passes') = _
    rw [funext ih]
    exact (bind_assoc _ _ _).symm

/-- Passes that report nothing run to the end. -/
theorem runPasses_run (i : Nat) (hw : w.errors = #[])
    (h : passes.foldlM (Pass.step w.names) p = .ok q) :
    ∃ w', (runPasses i passes p).run w = (.ok q, w') ∧ w.Follows (passes.map (i, ·)) w' := by
  induction passes generalizing p w with
  | nil =>
    cases h
    exact ⟨w, rfl, rfl, hw, (List.append_nil _).symm⟩
  | cons pass passes ih =>
    rw [List.foldlM_cons] at h
    obtain ⟨v, hv, hfollows⟩ := runPass_run i pass p hw
    cases hstep : pass.step w.names p with
    | error e =>
      rw [hstep] at h
      exact absurd h nofun
    | ok r =>
      rw [hstep] at h hv
      obtain ⟨w', hw', hfollows'⟩ := ih hfollows.errors (hfollows.names ▸ h)
      exact ⟨w', (run_bind_ok hv _).trans hw', hfollows.trans hfollows'⟩

/-- A pass that reports something ends the run there. -/
theorem runPasses_error (i : Nat) (after : List Pass) (hw : w.errors = #[])
    (hbefore : passes.foldlM (Pass.step w.names) p = .ok q)
    (hpass : pass.step w.names q = .error e) :
    ∃ w', (runPasses i (passes ++ pass :: after) p).run w = (.error e, w') ∧
      w.Follows ((passes ++ [pass]).map (i, ·)) w' := by
  obtain ⟨v, hv, hfollows⟩ := runPasses_run i hw hbefore
  obtain ⟨w', hw', hfollows'⟩ := runPass_run i pass q hfollows.errors
  rw [hfollows.names, hpass] at hw'
  refine ⟨w', ?_, ?_⟩
  · rw [runPasses_append, run_bind_ok hv]
    exact run_bind_error hw' _
  · rw [List.map_append]
    exact hfollows.trans hfollows'

/-- The passes report nothing of the programs of a class, and do not leave it. -/
def Safe (names : Rename.Names) (passes : List Pass) (I : Program Origin → Prop) : Prop :=
  ∀ pass ∈ passes, ∀ p, I p → pass.faults p = [] ∧ I (pass.apply names p)

variable {names : Rename.Names} {I : Program Origin → Prop}

theorem Safe.foldlM_step (h : Safe names passes I) (hp : I p) :
    passes.foldlM (Pass.step names) p = .ok (passes.foldl (Pass.apply names) p) ∧
      I (passes.foldl (Pass.apply names) p) := by
  induction passes generalizing p with
  | nil => exact ⟨rfl, hp⟩
  | cons pass passes ih =>
    obtain ⟨hpass, hpasses⟩ := List.forall_mem_cons.1 h
    obtain ⟨hfaults, hq⟩ := hpass p hp
    have hstep : pass.step names p = .ok (pass.apply names p) := by
      rw [Pass.step, hfaults]
    rw [List.foldlM_cons, hstep]
    exact ih hpasses hq

theorem iterate_run (h : Safe w.names passes I) (hp : I p) (hw : w.errors = #[])
    (left done : Nat) : ∃ r w', (iterate passes left done p).run w = (.ok r, w') := by
  induction left generalizing done p w with
  | zero => exact ⟨_, w, rfl⟩
  | succ left ih =>
    obtain ⟨hfold, hq⟩ := h.foldlM_step hp
    obtain ⟨v, hv, hfollows⟩ := runPasses_run (done + 1) hw hfold
    rw [iterate, run_bind_ok hv]
    split
    · exact ⟨_, v, rfl⟩
    · exact ih (hfollows.names ▸ h) hq hfollows.errors (done + 1)

variable {P : Pipeline}

theorem outcome_error (h : (iterate P.passes P.maxIterations 0 p).run w = (.error e, v)) :
    (P.outcome p).run w = (.error e, v) := run_bind_error h _

theorem outcome_of_iterate {r : Program Origin × Nat × Bool}
    (h : (iterate P.passes P.maxIterations 0 p).run w = (.ok r, v)) :
    ∃ r w', (P.outcome p).run w = (.ok r, w') := by
  rw [outcome, run_bind_ok h]
  dsimp only
  split
  · exact ⟨_, _, rfl⟩
  · exact ⟨_, _, rfl⟩

/-- The first iteration fails the run where one of its passes reports something. -/
theorem run_error (hP : 1 ≤ P.maxIterations) {before after : List Pass}
    (hpasses : P.passes = before ++ pass :: after)
    (hbefore : before.foldlM (Pass.step P.names) p = .ok q)
    (hpass : pass.step P.names q = .error e) :
    (P.run p).1 = .error e ∧
      (P.run p).2.filterMap Record.pass? = (before ++ [pass]).map (1, ·) := by
  obtain ⟨v, hv, hfollows⟩ :=
    runPasses_error (w := .new P.names) 1 after rfl hbefore hpass
  obtain ⟨left, hleft⟩ := Nat.exists_eq_add_of_le' hP
  have hiterate : (iterate P.passes P.maxIterations 0 p).run (.new P.names) = (.error e, v) := by
    rw [hleft, iterate, hpasses]
    exact run_bind_error hv _
  have hrun : P.run p = (.error e, v.log.toList) := by
    rw [run, outcome_error hiterate]
  rw [hrun]
  exact ⟨rfl, hfollows.ran⟩

/-- A run whose first iteration reports nothing ends without an error, if its passes report nothing
of what that iteration makes. -/
theorem run_of_safe (hfirst : P.passes.foldlM (Pass.step P.names) p = .ok q)
    (h : Safe P.names P.passes I) (hq : I q) : ∃ r, (P.run p).1 = .ok r := by
  have hiterate : ∃ r v,
      (iterate P.passes P.maxIterations 0 p).run (.new P.names) = (.ok r, v) := by
    cases P.maxIterations with
    | zero => exact ⟨_, _, rfl⟩
    | succ left =>
      obtain ⟨v, hv, hfollows⟩ := runPasses_run (w := .new P.names) 1 rfl hfirst
      rw [iterate, run_bind_ok hv]
      split
      · exact ⟨_, v, rfl⟩
      · exact iterate_run (hfollows.names ▸ h) hq hfollows.errors left 1
  obtain ⟨_, _, hiterate⟩ := hiterate
  obtain ⟨r, w', h⟩ := outcome_of_iterate hiterate
  exact ⟨r, by rw [run, h]⟩

end Runs

/-- The programs and workspaces that records and some of the passes lead to. -/
inductive Reaches (passes : List Pass) (p : Program Origin) (w : Workspace) :
    Program Origin → Workspace → Prop
  | start : Reaches passes p w p w
  | pass {q v pass} : pass ∈ passes → Reaches passes p w q v →
      Reaches passes p w (pass.run q v).1 (pass.run q v).2
  | record {q v} (r : Record) : Reaches passes p w q v →
      Reaches passes p w q { v with log := v.log.push r }

section Reaches

variable {p p' q : Program Origin} {w w' v : Workspace} {passes ran : List Pass}

theorem Reaches.trans (h : Reaches passes p w q v) (h' : Reaches passes q v p' w') :
    Reaches passes p w p' w' := by
  induction h' with
  | start => exact h
  | pass hpass _ ih => exact .pass hpass ih
  | record r _ ih => exact .record r ih

/-- A pass that does not fail the run reports no error, and only its record follows it. -/
theorem runPass_ok {i : Nat} {pass : Pass} (h : (runPass i pass p).run w = (.ok p', w')) :
    p' = (pass.run p w).1 ∧ (pass.run p w).2.errors = #[] ∧
      w' = { (pass.run p w).2 with
        log := (pass.run p w).2.log.push (.passRan i pass !same p' p) } := by
  obtain ⟨q, v, hq, h⟩ := run_bind h
  obtain ⟨rfl, rfl⟩ : (pass.run p w).1 = q ∧ (pass.run p w).2 = v := by
    obtain ⟨hok, hv⟩ := Prod.mk.inj hq
    exact ⟨Except.ok.inj hok, hv⟩
  obtain ⟨_, _, hlog, h⟩ := run_bind h
  obtain ⟨_, _, hget, h⟩ := run_bind h
  cases hlog
  cases hget
  split at h
  · rename_i herr
    cases h
    exact ⟨rfl, Array.toList_eq_nil_iff.1 herr, rfl⟩
  · obtain ⟨_, _, _, h⟩ := run_bind h
    obtain ⟨_, _, _, h⟩ := run_bind h
    exact absurd h nofun

theorem runPasses_reaches {i : Nat} (hran : ran ⊆ passes)
    (h : (runPasses i ran p).run w = (.ok p', w')) : Reaches passes p w p' w' := by
  induction ran generalizing p w with
  | nil =>
    cases h
    exact .start
  | cons pass ran ih =>
    obtain ⟨hpass, hran⟩ := List.cons_subset.1 hran
    obtain ⟨q, v, hq, h⟩ := run_bind h
    obtain ⟨rfl, -, rfl⟩ := runPass_ok hq
    exact (Reaches.record _ (.pass hpass .start)).trans (ih hran h)

theorem iterate_reaches {left done n : Nat} {converged : Bool}
    (h : (iterate passes left done p).run w = (.ok (p', n, converged), w')) :
    Reaches passes p w p' w' := by
  induction left generalizing done p w with
  | zero =>
    cases h
    exact .start
  | succ left ih =>
    obtain ⟨q, v, hq, h⟩ := run_bind h
    have hreaches := runPasses_reaches (List.Subset.refl passes) hq
    split at h
    · cases h
      exact hreaches
    · exact hreaches.trans (ih h)

/-- The outcome is that of the loop, with the counters that it leaves. -/
theorem outcome_ok {P : Pipeline} {r : Outcome} (h : (P.outcome p).run w = (.ok r, w')) :
    (∃ v, (iterate P.passes P.maxIterations 0 p).run w =
        (.ok (r.program, r.iterations, r.converged), v) ∧
      w' = if !r.converged && 1 < P.maxIterations
        then { v with log := v.log.push (.unsettled r.iterations) } else v) ∧
      r.renamed = w'.renamed ∧ r.folded = w'.folded ∧ r.collapsed = w'.collapsed := by
  obtain ⟨⟨q, n, converged⟩, v, hq, h⟩ := run_bind h
  dsimp only at h
  split at h
  · rename_i hlimit
    obtain ⟨_, _, hlog, h⟩ := run_bind h
    obtain ⟨_, _, hget, h⟩ := run_bind h
    cases hlog
    cases hget
    cases h
    exact ⟨⟨v, hq, (if_pos hlimit).symm⟩, rfl, rfl, rfl⟩
  · rename_i hlimit
    obtain ⟨_, _, hget, h⟩ := run_bind h
    cases hget
    cases h
    exact ⟨⟨_, hq, (if_neg hlimit).symm⟩, rfl, rfl, rfl⟩

/-- A run without an error answers what the loop does, and logs whether it stopped at its limit. -/
theorem run_ok {P : Pipeline} {r : Outcome} {log : List Record} (h : P.run p = (.ok r, log)) :
    ∃ v w', (iterate P.passes P.maxIterations 0 p).run (.new P.names) =
        (.ok (r.program, r.iterations, r.converged), v) ∧
      (w' = if !r.converged && 1 < P.maxIterations
        then { v with log := v.log.push (.unsettled r.iterations) } else v) ∧
      log = w'.log.toList ∧
      r.renamed = w'.renamed ∧ r.folded = w'.folded ∧ r.collapsed = w'.collapsed := by
  obtain ⟨hok, hlog⟩ := Prod.mk.inj h
  obtain ⟨⟨v, hv, hw'⟩, hcounters⟩ := outcome_ok (Prod.ext hok rfl)
  exact ⟨v, _, hv, hw', hlog.symm, hcounters⟩

/-- A run without an error ends in a state that its passes lead to, and answers that program and
those counters. -/
theorem run_reaches {P : Pipeline} {r : Outcome} {log : List Record}
    (h : P.run p = (.ok r, log)) :
    ∃ v, Reaches P.passes p (.new P.names) r.program v ∧
      r.renamed = v.renamed ∧ r.folded = v.folded ∧ r.collapsed = v.collapsed := by
  obtain ⟨v, w', hv, hw', -, hcounters⟩ := run_ok h
  refine ⟨w', ?_, hcounters⟩
  have hreaches := iterate_reaches hv
  split at hw' <;> subst hw'
  · exact .record _ hreaches
  · exact hreaches

end Reaches

end Pipeline

end ScriptTree
