import ScriptTree.Proofs.CollapseNormalForm
import ScriptTree.Proofs.FoldNormalForm
import ScriptTree.Proofs.RenameNormalForm
import ScriptTree.Workspace

namespace ScriptTree

open Node

theorem reading_rename (names : Rename.Names) (n : Node Origin) :
    Fold.reading (n.rename names) = Fold.reading n := by
  obtain ⟨k, x⟩ := n
  cases k
  case expr => rcases x with ⟨_, _ | _⟩ <;> rfl
  case stmt => rcases x with _ | ⟨_, _ | _⟩ <;> rfl
  all_goals rfl

theorem foldable_rename_iff {names : Rename.Names} {n : Node Origin} :
    Fold.Foldable (n.rename names) ↔ Fold.Foldable n := by
  rw [Fold.foldable_iff, Fold.foldable_iff n, rename_parts]
  obtain ⟨k, x⟩ := n
  cases k
  case expr => rcases x with ⟨_, _ | _⟩ <;> rfl
  case stmt => rcases x with _ | ⟨_, _ | _⟩ <;> rfl
  all_goals rfl

theorem settledNode_rename {names : Rename.Names} {n : Node Origin}
    (h : Collapse.SettledNode n) : Collapse.SettledNode (n.rename names) := by
  obtain ⟨k, x⟩ := n
  cases k
  case expr => rcases x with ⟨_, _ | _⟩ <;> exact h
  case stmt => rcases x with _ | ⟨_, _ | _⟩ <;> exact h
  all_goals exact h

theorem width_rename (names : Rename.Names) (n : Node Origin) :
    width (n.rename names) = width n := by
  rw [width, width, rename_kind, rename_parts]

theorem rename_keeps_folded {names : Rename.Names} {n : Node Origin} (h : All (¬Fold.Foldable ·) n)
    (t : Rename.Tally) : All (¬Fold.Foldable ·) ((Rename.transform names).node n t).1 := by
  refine Rename.rename_keeps Fold.reading_local Fold.foldable_transfers ?_ (fun b => ?_)
    (reading_rename names) (fun n => mt foldable_rename_iff.1) h t
  · exact fun b => ⟨Fold.not_foldable_admits.block b, Fold.not_foldable_admits.blockStmt b⟩
  · simp [Fold.reading, Fold.constant?, hoistsFunction, Stmt.declaresFunction]

theorem rename_keeps_settled {names : Rename.Names} {n : Node Origin}
    (h : All Collapse.SettledNode n) (t : Rename.Tally) :
    All Collapse.SettledNode ((Rename.transform names).node n t).1 :=
  Rename.rename_keeps width_local Collapse.settledNode_transfers (fun _ => ⟨trivial, trivial⟩)
    (fun _ => rfl) (width_rename names) (fun _ => settledNode_rename) h t

/-- Folding makes no names, so that it keeps what holds of every one. -/
theorem fold_keeps_names {Q : String → Prop} {n : Node Origin}
    (h : All (fun m => ∀ x ∈ m.names, Q x) n) (folded : Nat) :
    All (fun m => ∀ x ∈ m.names, Q x) (Fold.transform.node n folded).1 := by
  refine Fold.fold_keeps ?_ (fun _ _ ha _ => Rename.names_of_alike ha) ?_ h folded
  · constructor <;> intros <;> exact absurd ‹_ ∈ _› List.not_mem_nil
  -- what a declaration made by folding binds was bound before
  · intro n hn o x hx y hy
    obtain rfl := List.mem_singleton.1 hy
    exact Rename.of_mem_vars hn hx

theorem fold_keeps_settled {n : Node Origin} (h : All Collapse.SettledNode n) (folded : Nat) :
    All Collapse.SettledNode (Fold.transform.node n folded).1 := by
  refine Fold.fold_keeps ?_ Collapse.settledNode_transfers (fun _ _ _ _ _ => trivial) h folded
  constructor <;> intros <;> trivial

theorem collapse_keeps_unrenamed {names : Rename.Names} {n : Node Origin}
    (h : All (Rename.Unrenamed names) n) (t : Collapse.Tally) :
    All (Rename.Unrenamed names) (Collapse.transform.node n t).1 :=
  Collapse.collapse_keeps (fun _ _ => Rename.names_of_alike) (fun _ => ⟨nofun, nofun⟩) h t

namespace Pass

/-- The pass finds nothing to do in the program. -/
def Normal (names : Rename.Names) (p : Program Origin) : Pass → Prop
  | .rename => All (Rename.Unrenamed names) ⟨.stmts, p⟩
  | .fold => All (¬Fold.Foldable ·) ⟨.stmts, p⟩
  | .inlineCode => All Collapse.SettledNode ⟨.stmts, p⟩

variable {pass other : Pass} {p : Program Origin} {w : Workspace}

theorem run_names : (pass.run p w).2.names = w.names := by
  cases pass <;> rfl

theorem run_separate (hp : Separate ⟨.stmts, p⟩) : Separate ⟨.stmts, (pass.run p w).1⟩ := by
  cases pass
  case rename => exact (Rename.transform w.names).node_separate (rename_isTame w.names) hp _
  case fold => exact Fold.transform.node_separate fold_isTame hp _
  case inlineCode => exact Collapse.transform.node_separate collapse_isTame hp _

theorem run_of_normal (h : Normal w.names p pass) : (pass.run p w).1 = p := by
  have heq {T : Type} {x : Node Origin × T} {t : T} (hx : x = (⟨.stmts, p⟩, t))
      {q : Program Origin} (hq : x.1 = ⟨.stmts, q⟩) : q = p := by
    rw [hx] at hq
    cases hq
    rfl
  cases pass
  case rename => exact heq (Rename.rename_of_normal h _) rfl
  case fold => exact heq (Fold.fold_of_normal h _) rfl
  case inlineCode => exact heq (Collapse.collapse_of_normal h _) rfl

/-- A pass that reports no error leaves itself nothing to do. -/
theorem run_normal (hnames : ∀ x v, w.names.lookup x = some v → w.names.lookup v = none)
    (hp : Separate ⟨.stmts, p⟩) (h : (pass.run p w).2.errors = #[]) :
    Normal w.names (pass.run p w).1 pass := by
  cases pass
  case rename => exact Rename.rename_normal hnames hp _
  case fold => exact Fold.fold_normal hp _
  case inlineCode => exact Collapse.collapse_normal hp h

/-- A pass leaves another that has nothing to do nothing to do, but template collapse may leave
something to fold. -/
theorem run_keeps (h : Normal w.names p other) (hne : pass = .inlineCode → other ≠ .fold) :
    Normal w.names (pass.run p w).1 other := by
  cases pass <;> cases other
  case rename.rename | fold.fold | inlineCode.inlineCode => rwa [run_of_normal h]
  case rename.fold => exact rename_keeps_folded h _
  case rename.inlineCode => exact rename_keeps_settled h _
  case fold.rename => exact fold_keeps_names h _
  case fold.inlineCode => exact fold_keeps_settled h _
  case inlineCode.rename => exact collapse_keeps_unrenamed h _
  case inlineCode.fold => exact absurd rfl (hne rfl)

end Pass

end ScriptTree
