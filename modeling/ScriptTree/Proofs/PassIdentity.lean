import ScriptTree.Proofs.Collapse
import ScriptTree.Proofs.Fold
import ScriptTree.Proofs.Identity
import ScriptTree.Proofs.Rename

namespace ScriptTree

open Node

theorem rename_fresh {names : Rename.Names} {n : Node Origin} (hn : Separate n)
    (h : n.names ≠ []) : Fresh n (n.rename names) := by
  have hk : n.kind ≠ .label := by
    obtain ⟨k, x⟩ := n
    rintro rfl
    exact h (names_label x)
  obtain ⟨o, ho⟩ := exists_origin? hk
  have hslot : Slotted n o 0 (n.rename names) := by
    refine .object hn ho ?_ ?_
    · rw [rename_origin? h, ho]
      rfl
    · intro c hc
      rw [rename_parts] at hc
      exact .of_part hc (hn.part hc) fun _ hp => hp
  exact hslot.fresh ho

theorem rename_isTame (names : Rename.Names) : (Rename.transform names).IsTame := by
  intro k x walk hx hwalk t
  have hz : Tame ⟨k, x⟩ ⟨k, (walk t).1⟩ := hwalk.tame hx t
  rw [Rename.visit_fst]
  split
  · rename_i hkey
    have hnames : Node.names ⟨k, (walk t).1⟩ ≠ [] := by
      intro hnil
      rw [hnil] at hkey
      exact absurd hkey Bool.false_ne_true
    have hfresh : Fresh ⟨k, (walk t).1⟩ (Node.rename names ⟨k, (walk t).1⟩) :=
      rename_fresh (hz.separate hx) hnames
    exact .inr (hz.fresh_trans hfresh)
  · exact hz

theorem collapse_isTame : Collapse.transform.IsTame := by
  intro k x walk hx hwalk t
  have hz : Tame ⟨k, x⟩ ⟨k, (walk t).1⟩ := hwalk.tame hx t
  cases k
  case expr =>
    obtain h | ⟨format, args, hs, hmem⟩ := Collapse.visit_expr_cases x walk t
    · rw [h]
      exact hz
    · have hargs : (⟨.exprs, args⟩ : Node Origin) ∈ parts ⟨.expr, (walk t).1⟩ := by
        rw [parts, hs]
        exact List.mem_cons_self
      have harg := List.mem_map_of_mem (f := Node.mk Kind.expr) hmem
      exact .inr (hz.fresh_trans (fresh_of_mem_parts (hz.separate hx) rfl hargs harg))
  all_goals exact hz

namespace Fold

theorem value?_fresh {z v : Expr Origin} (hz : Separate ⟨.expr, z⟩) (h : value? z = some v) :
    Fresh ⟨.expr, z⟩ ⟨.expr, v⟩ := by
  obtain ⟨c, rfl⟩ | hv := value?_cases h
  · exact (Slotted.leaf (i := 0) hz rfl rfl rfl).fresh rfl
  · exact fresh_of_part hz rfl hv

theorem declare_slotted {n : Node Origin} {o : Origin} (hn : Separate n) (ho : n.origin? = some o)
    (names : List String) : Slotted n o 2 ⟨.stmt, declare o names⟩ := by
  refine .object hn ho rfl fun l hl => ?_
  obtain rfl := List.mem_singleton.1 hl
  refine .object hn ho rfl fun d hd => ?_
  obtain ⟨d', hd', rfl⟩ := List.mem_map.1 hd
  obtain ⟨i, hi, rfl⟩ := List.mem_mapIdx.1 hd'
  exact (Slotted.leaf hn ho rfl rfl).mono (Nat.le_add_left 4 i)

theorem selectBranch_slotted {n : Node Origin} {o : Origin} {live dead : Option (Block Origin)}
    {y : Stmt Origin} (hn : Separate n) (ho : n.origin? = some o)
    (hlive : ∀ b, live = some b → ⟨.block, b⟩ ∈ n.parts) (h : selectBranch o live dead = some y) :
    Slotted n o 0 ⟨.stmt, y⟩ := by
  cases (selectBranch_cases h).2 with
  | live =>
    have hb := hlive _ rfl
    exact .of_part hb (separate_block.2 (hn.part hb)) fun _ => region_block.1
  | @extended live _ =>
    have hb := hlive _ rfl
    refine .object hn ho rfl fun l hl => ?_
    obtain rfl := List.mem_singleton.1 hl
    refine .object hn ho rfl fun s hs => ?_
    obtain ⟨s', hs', rfl⟩ := List.mem_map.1 hs
    obtain hs' | hs' := List.mem_append.1 hs'
    · have hl : (⟨.stmts, live.statements⟩ : Node Origin) ∈ parts ⟨.block, live⟩ :=
        List.mem_cons_self
      have hs' := List.mem_map_of_mem (f := Node.mk Kind.stmt) hs'
      have hseparate : Separate ⟨.stmt, s'⟩ := ((hn.part hb).part hl).part hs'
      exact .of_part hb hseparate fun _ hp => .part hl (.part hs' hp)
    · obtain rfl := List.mem_singleton.1 hs'
      exact declare_slotted hn ho _
  | empty => exact .leaf hn ho rfl rfl
  | declaration => exact (declare_slotted hn ho _).mono (Nat.zero_le 2)

theorem branch?_fresh {z y : Stmt Origin} (hz : Separate ⟨.stmt, z⟩) (h : branch? z = some y) :
    Fresh ⟨.stmt, z⟩ ⟨.stmt, y⟩ := by
  obtain ⟨o, test, value, t, e, live, dead, rfl, -, hb, h⟩ := branch?_cases h
  refine (selectBranch_slotted hz rfl ?_ h).fresh rfl
  rintro b rfl
  exact mem_parts_of_branches hb

theorem guarded_slotted {n : Node Origin} {o : Origin} {c : Expr Origin}
    {args : NodeList Origin (Expr Origin)} (hn : Separate n) (ho : n.origin? = some o)
    (hc : Slotted n o 4 ⟨.expr, c⟩) (hargs : Slotted n o 4 ⟨.exprs, args⟩) :
    Slotted n o 0 ⟨.expr, ⟨.made o 0, .call
      ⟨.made o 1, .comma ⟨.made o 2, [⟨.made o 3, .constant (.number 0)⟩, c]⟩⟩ args⟩⟩ := by
  -- the numbers grow from the call down to the constant
  have hzero : Slotted n o 3 ⟨.expr, ⟨.made o 3, .constant (.number 0)⟩⟩ := .leaf hn ho rfl rfl
  have hlist : Slotted n o 2
      ⟨.exprs, ⟨.made o 2, [⟨.made o 3, .constant (.number 0)⟩, c]⟩⟩ := by
    refine .object hn ho rfl ?_
    exact List.forall_mem_cons.2 ⟨hzero, List.forall_mem_singleton.2 (hc.mono (by omega))⟩
  have hcomma : Slotted n o 1
      ⟨.expr, ⟨.made o 1, .comma ⟨.made o 2, [⟨.made o 3, .constant (.number 0)⟩, c]⟩⟩⟩ :=
    .object hn ho rfl (List.forall_mem_singleton.2 hlist)
  refine .object hn ho rfl ?_
  exact List.forall_mem_cons.2 ⟨hcomma, List.forall_mem_singleton.2 (hargs.mono (by omega))⟩

theorem guardCallee_tame {e z : Expr Origin} (he : Separate ⟨.expr, e⟩)
    (hns : List.Forall₂ Tame (parts ⟨.expr, e⟩) (parts ⟨.expr, z⟩))
    (hr : Rebuilt ⟨.expr, e⟩ (parts ⟨.expr, z⟩) ⟨.expr, z⟩) :
    Tame ⟨.expr, e⟩ ⟨.expr, guardCallee e z⟩ := by
  obtain hself | ⟨o, o', c, c', es, es', rfl, rfl, hnew, hold, hguard⟩ := guardCallee_cases e z
  · rw [hself]
    exact hr.tame he hns
  · rw [hguard]
    have hslot : ∀ d ∈ parts ⟨.expr, ⟨o', .call c' es'⟩⟩,
        Slotted ⟨.expr, ⟨o, .call c es⟩⟩ o 4 d := by
      intro d hd
      obtain ⟨d', hd', h⟩ := exists_of_mem_right hns hd
      exact .of_part hd' (h.separate (he.part hd')) fun _ => h.region
    -- a guard is only put where the callee changed, and there the call was rebuilt
    cases hr with
    | kept _ => exact absurd (hold.symm.trans hnew) nofun
    | remade _ _ _ ho =>
      obtain rfl := Option.some.inj ho
      have hcallee := hslot ⟨.expr, c'⟩ List.mem_cons_self
      have hargs := hslot ⟨.exprs, es'⟩ (List.mem_cons_of_mem _ List.mem_cons_self)
      exact .inr ((guarded_slotted he rfl hcallee hargs).fresh rfl)

end Fold

theorem fold_isTame : Fold.transform.IsTame := by
  intro k x walk hx hwalk t
  have hz : Tame ⟨k, x⟩ ⟨k, (walk t).1⟩ := hwalk.tame hx t
  obtain ⟨ns, hns, hr⟩ := hwalk t
  have hns := hns.forall₂ fun _ _ _ _ _ h => h
  cases k
  case expr =>
    rw [Fold.visit_expr]
    cases hv : Fold.value? (walk t).1 with
    | some v => exact .inr (hz.fresh_trans (Fold.value?_fresh (hz.separate hx) hv))
    | none =>
      obtain rfl := hr.parts_eq hx hns
      exact Fold.guardCallee_tame hx hns hr
  case stmt =>
    rw [Fold.visit_stmt]
    cases hb : Fold.branch? (walk t).1 with
    | some y => exact .inr (hz.fresh_trans (Fold.branch?_fresh (hz.separate hx) hb))
    | none => exact hz
  all_goals exact hz

/-- On a separate tree the parts of every object are folded before it, so that a relation need not
hold of an object and itself. -/
theorem Fold.exact_relates {R : Node Origin → Node Origin → Prop}
    (block : ∀ b b', R ⟨.block, b⟩ ⟨.block, b'⟩ → R ⟨.stmt, .block b⟩ ⟨.stmt, .block b'⟩)
    (aggregate : ∀ n z : Node Origin, n.kind ≠ .expr → n.kind ≠ .stmt → n.Alike z →
      List.Forall₂ R n.parts z.parts → R n z)
    (value : ∀ e z v, Alike ⟨.expr, e⟩ ⟨.expr, z⟩ →
      List.Forall₂ R (parts ⟨.expr, e⟩) (parts ⟨.expr, z⟩) → value? z = some v →
      R ⟨.expr, e⟩ ⟨.expr, v⟩)
    (expr : ∀ e z, Alike ⟨.expr, e⟩ ⟨.expr, z⟩ →
      List.Forall₂ R (parts ⟨.expr, e⟩) (parts ⟨.expr, z⟩) → value? z = none →
      R ⟨.expr, e⟩ ⟨.expr, guardCallee e z⟩)
    (branch : ∀ x z y, Alike ⟨.stmt, x⟩ ⟨.stmt, z⟩ →
      List.Forall₂ R (parts ⟨.stmt, x⟩) (parts ⟨.stmt, z⟩) → branch? z = some y →
      R ⟨.stmt, x⟩ ⟨.stmt, y⟩)
    (stmt : ∀ x z, Alike ⟨.stmt, x⟩ ⟨.stmt, z⟩ →
      List.Forall₂ R (parts ⟨.stmt, x⟩) (parts ⟨.stmt, z⟩) → branch? z = none →
      R ⟨.stmt, x⟩ ⟨.stmt, z⟩)
    {n : Node Origin} (hn : Separate n) (folded : Nat) : R n (transform.node n folded).1 := by
  refine (transform.exact_induction fold_isTame (P := fun n _ n' _ => R n n')
    (fun b _ b' _ => block b b') ?_ n hn folded).2
  intro k x walk _ hwalk s
  obtain ⟨ha, hparts⟩ := hwalk s
  have hp := hparts.forall₂ fun _ _ _ _ _ h => h
  cases k
  case expr =>
    rw [visit_expr]
    cases hv : value? (walk s).1 with
    | some v => exact value x _ v ha hp hv
    | none => exact expr x _ ha hp hv
  case stmt =>
    rw [visit_stmt]
    cases hb : branch? (walk s).1 with
    | some y => exact branch x _ y ha hp hb
    | none => exact stmt x _ ha hp hb
  all_goals exact aggregate _ _ nofun nofun ha hp

end ScriptTree
