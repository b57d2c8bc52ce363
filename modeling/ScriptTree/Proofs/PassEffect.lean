import ScriptTree.Proofs.PassOrder
import ScriptTree.Proofs.Replacement
import ScriptTree.Proofs.Substitution

namespace ScriptTree

open Node

theorem Rename.transform_stateless (names : Names) : (transform names).Stateless :=
  .of_visit (fun n => if n.names.any names.isKey then n.rename names else n) (visit_fst names)

theorem Fold.transform_stateless : transform.Stateless := by
  intro k x walk walk' s s' h
  cases k
  case expr => rw [visit_expr, visit_expr, h]
  case stmt => rw [visit_stmt, visit_stmt, h]
  all_goals exact h

/-- Folding counts on from what was counted before. -/
theorem Fold.transform_respects (before : Nat) :
    transform.Respects fun s s' => s' = before + s := by
  intro k x walk walk' s s' h hcount
  refine ⟨Fold.transform_stateless k x walk walk' s s' h, ?_⟩
  rcases hw : walk s with ⟨z, t⟩
  rcases hw' : walk' s' with ⟨z', t'⟩
  rw [hw, hw'] at h hcount
  obtain rfl : z = z' := h
  obtain rfl : t' = before + t := hcount
  cases k
  case expr =>
    simp only [transform, bind, StateT.bind, hw, hw']
    cases value? z <;> rfl
  case stmt =>
    simp only [transform, bind, StateT.bind, hw, hw']
    cases branch? z <;> rfl
  all_goals
    simp only [transform, hw, hw']

theorem Collapse.transform_stateless : transform.Stateless :=
  .of_visit (fun n => n.chosen?.getD n) visit_fst

theorem Transform.stmts_fst {σ : Type} {T : Transform σ} (hT : T.Stateless) (p : Program Origin)
    (s s' : σ) : (T.stmts p s).1 = (T.stmts p s').1 :=
  eq_of_heq (Node.mk.inj (node_fst hT ⟨.stmts, p⟩ s s')).2

theorem Node.faults_bare {ι : Type} (n : Node ι) : n.bare.faults = n.faults := by
  rw [Node.faults, Node.faults, template?_bare]

/-- The pass that the record tells to have run, and in which iteration. -/
def Record.pass? : Record → Option (Nat × Pass)
  | .passRan iteration pass _ => some (iteration, pass)
  | _ => none

theorem Record.pass?_of_mem_collapseLog {ι : Type} {n : Node ι} {record : Record}
    (h : record ∈ n.collapseLog) : record.pass? = none := by
  unfold Node.collapseLog at h
  split at h
  · exact absurd h List.not_mem_nil
  · split at h
    · rw [List.mem_singleton.1 h]
      rfl
    · obtain ⟨i, -, rfl⟩ := List.mem_map.1 h
      rfl

/-- A literal with nothing wrong about it only logs that it was collapsed. -/
theorem Record.level_of_mem_collapseLog {ι : Type} {n : Node ι} {record : Record}
    (hfaults : n.faults = []) (h : record ∈ n.collapseLog) : record.level = .trace := by
  unfold Node.collapseLog at h
  split at h
  · exact absurd h List.not_mem_nil
  · rename_i heq
    split at h
    · rename_i hparse
      simp [Node.faults, heq, hparse] at hfaults
    · obtain ⟨i, -, rfl⟩ := List.mem_map.1 h
      rfl

namespace Pass

/-- The program that the pass makes of another. -/
def apply (names : Rename.Names) (p : Program Origin) (pass : Pass) : Program Origin :=
  (pass.run p (.new names)).1

/-- The errors that the pass reports of a program. -/
def faults (p : Program Origin) : Pass → List Error
  | .inlineCode => (Node.mk .stmts p).postorder.flatMap Node.faults
  | .rename | .fold => []

variable (pass : Pass) (p : Program Origin) (w : Workspace)

theorem run_fst : (pass.run p w).1 = apply w.names p pass := by
  cases pass
  case rename => exact Transform.stmts_fst (Rename.transform_stateless w.names) p _ _
  case fold => exact Transform.stmts_fst Fold.transform_stateless p _ _
  case inlineCode => exact Transform.stmts_fst Collapse.transform_stateless p _ _

theorem run_errors : (pass.run p w).2.errors = w.errors ++ pass.faults p := by
  cases pass
  case rename | fold => exact Array.appendList_nil.symm
  case inlineCode =>
    have h := Collapse.collapse_tally ⟨.stmts, p⟩ ⟨w.collapsed, w.errors, w.log⟩
    rw [postorder_bare] at h
    have herrors := congrArg Collapse.Tally.errors h
    simp only [Collapse.tally, List.flatMap_map, faults_bare] at herrors
    exact herrors

/-- What a pass logs of its own is appended to the log. -/
theorem run_logs : ∃ records : List Record, (pass.run p w).2.log = w.log ++ records ∧
    ∀ record ∈ records, record.pass? = none ∧ (pass.faults p = [] → record.level = .trace) := by
  cases pass
  case rename =>
    have h := Rename.rename_tally w.names ⟨.stmts, p⟩ ⟨w.renamed, w.log⟩
    refine ⟨_, congrArg Rename.Tally.log h, fun record hrecord => ?_⟩
    obtain ⟨name, -, rfl⟩ := List.mem_map.1 hrecord
    exact ⟨rfl, fun _ => rfl⟩
  case fold => exact ⟨[], Array.appendList_nil.symm, nofun⟩
  case inlineCode =>
    have h := Collapse.collapse_tally ⟨.stmts, p⟩ ⟨w.collapsed, w.errors, w.log⟩
    rw [postorder_bare] at h
    refine ⟨_, congrArg Collapse.Tally.log h, fun record hrecord => ?_⟩
    obtain ⟨b, hb, hrecord⟩ := List.mem_flatMap.1 hrecord
    obtain ⟨m, hm, rfl⟩ := List.mem_map.1 hb
    refine ⟨Record.pass?_of_mem_collapseLog hrecord, fun hfaults => ?_⟩
    have hnone : m.bare.faults = [] := by
      rw [faults_bare]
      exact List.flatMap_eq_nil_iff.1 hfaults m hm
    exact Record.level_of_mem_collapseLog hnone hrecord

theorem run_log : (pass.run p w).2.log.toList.filterMap Record.pass? =
    w.log.toList.filterMap Record.pass? := by
  obtain ⟨records, hlog, hrecords⟩ := run_logs pass p w
  have hnone : records.filterMap Record.pass? = [] :=
    List.filterMap_eq_nil_iff.2 fun record hrecord => (hrecords record hrecord).1
  rw [hlog, Array.toList_appendList, List.filterMap_append, hnone, List.append_nil]

end Pass

end ScriptTree
