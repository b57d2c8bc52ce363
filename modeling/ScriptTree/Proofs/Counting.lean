import ScriptTree.Proofs.Convergence

namespace ScriptTree

open Node

/-- The counter does not go down, and stands still exactly where the answer is the same instance. -/
structure Node.Counted {σ : Type} (count : σ → Nat) (n : Node Origin) (s : σ) (n' : Node Origin)
    (s' : σ) : Prop where
  le : count s ≤ count s'
  place : n'.place = n.place ↔ count s' = count s

section Counted

variable {σ : Type} {count : σ → Nat}

theorem Threaded.counted {ns ns' : List (Node Origin)} {s s' : σ}
    (h : Threaded (Counted count) ns s ns' s') :
    count s ≤ count s' ∧ (ns'.map place = ns.map place ↔ count s' = count s) := by
  induction h with
  | nil s => exact ⟨Nat.le_refl _, iff_of_true rfl rfl⟩
  | cons hn _ ih =>
    obtain ⟨hle, hplaces⟩ := ih
    have hle' := hn.le
    refine ⟨Nat.le_trans hle' hle, ?_⟩
    -- neither part of the sum of the two increments is negative
    rw [List.map_cons, List.map_cons, List.cons.injEq, hn.place, hplaces]
    omega

theorem Node.Walked.counted {n : Node Origin} {walk : StateM σ (Object Origin n.kind)}
    (h : n.Walked (Counted count) walk) (s : σ) :
    Counted count n s ⟨n.kind, (walk s).1⟩ (walk s).2 := by
  obtain ⟨ns, hns, hr⟩ := h s
  obtain ⟨hle, hplaces⟩ := hns.counted
  exact ⟨hle, hr.place_eq_iff.trans hplaces⟩

/-- Once the parts of an object are answered, the transform either counts something and answers an
object from within, or does neither. -/
def Transform.Counts (T : Transform σ) (count : σ → Nat) : Prop :=
  ∀ k x walk s, Separate ⟨k, (walk s).1⟩ →
    (place ⟨k, (T.visit k x walk s).1⟩ = place ⟨k, (walk s).1⟩ ∧
        count (T.visit k x walk s).2 = count (walk s).2) ∨
      (k ≠ .label ∧ Fresh ⟨k, (walk s).1⟩ ⟨k, (T.visit k x walk s).1⟩ ∧
        count (walk s).2 < count (T.visit k x walk s).2)

theorem Transform.Counts.counted {T : Transform σ} (hcounts : T.Counts count) (hT : T.IsTame)
    (n : Node Origin) (hn : Separate n) (s : σ) :
    n.Tame (T.node n s).1 ∧ Counted count n s (T.node n s).1 (T.node n s).2 := by
  refine T.tame_induction hT (fun b s b' s' h => ⟨h.le, h.place⟩) ?_ n hn s
  intro k x walk hx hwalk s
  have hz := (hwalk.imp fun _ _ _ _ h => h.1).tame hx s
  have hcounted := (hwalk.imp fun _ _ _ _ h => h.2).counted s
  have hle := hcounted.le
  obtain ⟨hplace, hsame⟩ | ⟨hk, hfresh, hlt⟩ := hcounts k x walk s (hz.separate hx)
  · rw [← hsame] at hle
    refine ⟨hle, ?_⟩
    rw [hplace, hsame]
    exact hcounted.place
  · have hne : place ⟨k, (T.visit k x walk s).1⟩ ≠ place ⟨k, x⟩ := by
      refine (hz.fresh_trans hfresh).place_ne hx ?_
      rintro heq
      exact hk (congrArg Node.kind heq)
    refine ⟨Nat.le_trans hle (Nat.le_of_lt hlt), iff_of_false hne ?_⟩
    omega

end Counted

theorem Fold.guardCallee_origin (e z : Expr Origin) : (guardCallee e z).origin = z.origin := by
  obtain h | ⟨_, _, _, _, _, _, rfl, rfl, -, -, h⟩ := guardCallee_cases e z <;> rw [h]

theorem fold_counts : Fold.transform.Counts id := by
  intro k x walk s hz
  cases k
  case expr =>
    rcases hw : walk s with ⟨z, t⟩
    rw [hw] at hz
    cases hv : Fold.value? z with
    | some v =>
      simp only [Fold.transform, bind, StateT.bind, hw, hv]
      exact .inr ⟨by decide, Fold.value?_fresh hz hv, Nat.lt_succ_self t⟩
    | none =>
      simp only [Fold.transform, bind, StateT.bind, hw, hv]
      exact .inl ⟨congrArg some (Fold.guardCallee_origin x z), rfl⟩
  case stmt =>
    rcases hw : walk s with ⟨z, t⟩
    rw [hw] at hz
    cases hb : Fold.branch? z with
    | some y =>
      simp only [Fold.transform, bind, StateT.bind, hw, hb]
      exact .inr ⟨by decide, Fold.branch?_fresh hz hb, Nat.lt_succ_self t⟩
    | none =>
      simp only [Fold.transform, bind, StateT.bind, hw, hb]
      exact .inl ⟨rfl, rfl⟩
  all_goals exact .inl ⟨rfl, rfl⟩

theorem rename_counts (names : Rename.Names) : (Rename.transform names).Counts (·.renamed) := by
  intro k x walk s hz
  rw [Rename.visit_fst, Rename.visit_snd]
  by_cases h : (Node.names ⟨k, (walk s).1⟩).any names.isKey
  · rw [if_pos h]
    obtain ⟨name, hmem, hkey⟩ := List.any_eq_true.1 h
    refine .inr ⟨?_, rename_fresh hz (List.ne_nil_of_mem hmem), ?_⟩
    · rintro rfl
      rw [names_label] at hmem
      exact absurd hmem List.not_mem_nil
    · exact Nat.lt_add_of_pos_right (List.length_pos_of_mem (List.mem_filter.2 ⟨hmem, hkey⟩))
  · rw [if_neg h]
    have hnone : (Node.names ⟨k, (walk s).1⟩).filter names.isKey = [] := by
      simpa [List.filter_eq_nil_iff] using h
    refine .inl ⟨rfl, ?_⟩
    rw [Rename.count, hnone]
    rfl

/-- The argument that a literal stands for lies below it. -/
theorem chosen?_fresh {n a : Node Origin} (hn : Separate n) (h : n.chosen? = some a) :
    Fresh n a := by
  obtain ⟨o, format, args, i, e, rfl, -, -, he, rfl⟩ := chosen?_eq_some_iff.1 h
  have hitem := List.mem_map_of_mem (f := Node.mk Kind.expr) (List.mem_of_getElem? he)
  exact fresh_of_mem_parts hn rfl (List.mem_singleton.2 rfl) hitem

theorem collapse_counts : Collapse.transform.Counts (·.collapsed) := by
  intro k x walk s hz
  rw [Collapse.visit_fst, Collapse.visit_snd]
  cases ha : chosen? ⟨k, (walk s).1⟩ with
  | some a =>
    refine .inr ⟨?_, chosen?_fresh hz ha, ?_⟩
    · rintro rfl
      obtain ⟨_, _, _, _, _, heq, -⟩ := chosen?_eq_some_iff.1 ha
      exact absurd (congrArg Node.kind heq) nofun
    · simp [Collapse.tally, ha]
  | none =>
    refine .inl ⟨rfl, ?_⟩
    simp [Collapse.tally, ha]

def Workspace.total (w : Workspace) : Nat := w.renamed + w.folded + w.collapsed

/-- Nothing was counted and the program is kept, or something was and it lies within what was
there. -/
inductive Workspace.Progress (p : Program Origin) (w : Workspace) :
    Program Origin → Workspace → Prop
  | none {v} : v.total = w.total → Progress p w p v
  | some {q v} : Fresh ⟨.stmts, p⟩ ⟨.stmts, q⟩ → w.total < v.total → Progress p w q v

namespace Workspace.Progress

variable {p q r : Program Origin} {w v u : Workspace}

theorem separate (h : Progress p w q v) (hp : Separate ⟨.stmts, p⟩) : Separate ⟨.stmts, q⟩ := by
  cases h with
  | none _ => exact hp
  | some hfresh _ => exact hfresh.separate

theorem trans (h : Progress p w q v) (h' : Progress q v r u) : Progress p w r u := by
  cases h with
  | none heq =>
    cases h' with
    | none heq' => exact .none (heq'.trans heq)
    | some hfresh hlt => exact .some hfresh (heq ▸ hlt)
  | some hfresh hlt =>
    cases h' with
    | none heq => exact .some hfresh (heq ▸ hlt)
    | some hfresh' hlt' =>
      have htame : Tame ⟨.stmts, p⟩ ⟨.stmts, q⟩ := .inr hfresh
      exact .some (htame.fresh_trans hfresh') (Nat.lt_trans hlt hlt')

/-- The program is another one exactly when something was counted. -/
theorem same_iff (h : Progress p w q v) (hp : Separate ⟨.stmts, p⟩) :
    same q p ↔ v.total = w.total := by
  cases h with
  | none heq => exact iff_of_true (same_self p) heq
  | some hfresh hlt =>
    refine iff_of_false (fun hsame => hfresh.place_ne hp nofun ?_) (Nat.ne_of_gt hlt)
    exact of_decide_eq_true hsame

theorem eq_of_same (h : Progress p w q v) (hp : Separate ⟨.stmts, p⟩) (hsame : same q p) :
    q = p := by
  have htotal := (h.same_iff hp).1 hsame
  cases h with
  | none _ => rfl
  | some _ hlt => exact absurd htotal (Nat.ne_of_gt hlt)

/-- What one transform counts is progress, if the other counters stay. -/
theorem of_counted {σ : Type} {count : σ → Nat} {T : Transform σ} {s : σ}
    (h : Tame ⟨.stmts, p⟩ (T.node ⟨.stmts, p⟩ s).1 ∧
      Counted count ⟨.stmts, p⟩ s (T.node ⟨.stmts, p⟩ s).1 (T.node ⟨.stmts, p⟩ s).2)
    (hp : Separate ⟨.stmts, p⟩)
    (htotal : v.total + count s = w.total + count (T.stmts p s).2) :
    Progress p w (T.stmts p s).1 v := by
  obtain ⟨htame, hcounted⟩ := h
  have hle : count s ≤ count (T.stmts p s).2 := hcounted.le
  obtain heq | hfresh := htame
  · have hcount : count (T.stmts p s).2 = count s := hcounted.place.1 (by rw [heq])
    rw [show (T.stmts p s).1 = p from eq_of_heq (Node.mk.inj heq).2]
    exact .none (by omega)
  · have hcount : count (T.stmts p s).2 ≠ count s :=
      mt hcounted.place.2 (hfresh.place_ne hp nofun)
    exact .some hfresh (by omega)

end Workspace.Progress

open Workspace

theorem Pass.run_progress (pass : Pass) {p : Program Origin} (w : Workspace)
    (hp : Separate ⟨.stmts, p⟩) : Progress p w (pass.run p w).1 (pass.run p w).2 := by
  cases pass
  case rename =>
    refine .of_counted ((rename_counts w.names).counted (rename_isTame w.names) _ hp _) hp ?_
    rcases ht : (Rename.transform w.names).stmts p ⟨w.renamed, w.log⟩ with ⟨q, t⟩
    simp only [Pass.run, total, ht]
    omega
  case fold =>
    refine .of_counted (fold_counts.counted fold_isTame _ hp _) hp ?_
    rcases ht : Fold.transform.stmts p w.folded with ⟨q, t⟩
    simp only [Pass.run, total, id, ht]
    omega
  case inlineCode =>
    refine .of_counted (collapse_counts.counted collapse_isTame _ hp _) hp ?_
    rcases ht : Collapse.transform.stmts p ⟨w.collapsed, w.errors, w.log⟩ with ⟨q, t⟩
    simp only [Pass.run, total, ht]
    omega

namespace Pipeline

theorem Reaches.progress {passes : List Pass} {p q : Program Origin} {w v : Workspace}
    (h : Reaches passes p w q v) (hp : Separate ⟨.stmts, p⟩) : Progress p w q v := by
  induction h with
  | start => exact .none rfl
  | pass _ _ ih => exact ih.trans (Pass.run_progress _ _ (ih.separate hp))
  | record r _ ih => exact ih.trans (.none rfl)

/-- A pass answers the instance that it was given exactly when it counts nothing, errors or not, and
a run without an error answers another program exactly when it counted something. -/
theorem run_changed_iff (start : Nat) :
    (∀ (k : Kind) (x : Object Unit k), k ≠ .label →
      let x := (Object.number start k x).1
      (∀ n, let r := Fold.transform.object k x n
        n ≤ r.2 ∧ (Object.same k r.1 x ↔ r.2 = n)) ∧
      (∀ names t, let r := (Rename.transform names).object k x t
        t.renamed ≤ r.2.renamed ∧ (Object.same k r.1 x ↔ r.2.renamed = t.renamed)) ∧
      ∀ t, let r := Collapse.transform.object k x t
        t.collapsed ≤ r.2.collapsed ∧ (Object.same k r.1 x ↔ r.2.collapsed = t.collapsed)) ∧
    ∀ (P : Pipeline) (p : Program Unit) (r : Outcome) (log : List Record),
      let p := (Object.number start .stmts p).1
      P.run p = (.ok r, log) → (r.changed p ↔ 0 < r.renamed + r.folded + r.collapsed) := by
  constructor
  · intro k x hk
    have hx := number_separate start k x
    have hsame {σ : Type} {count : σ → Nat} {T : Transform σ} (hcounts : T.Counts count)
        (hT : T.IsTame) (s : σ) :
        let r := T.object k (Object.number start k x).1 s
        count s ≤ count r.2 ∧
          (Object.same k r.1 (Object.number start k x).1 ↔ count r.2 = count s) := by
      obtain ⟨-, hle, hplace⟩ := hcounts.counted hT ⟨k, _⟩ hx s
      rw [place_eq_origin? hk, place_eq_origin? hk] at hplace
      exact ⟨hle, decide_eq_true_iff.trans hplace⟩
    exact ⟨hsame fold_counts fold_isTame,
      fun names => hsame (rename_counts names) (rename_isTame names),
      hsame collapse_counts collapse_isTame⟩
  · intro P p r log p₀ hrun
    have hp : Separate ⟨.stmts, p₀⟩ := number_separate start .stmts p
    obtain ⟨v, hreaches, hrenamed, hfolded, hcollapsed⟩ := run_reaches hrun
    have hsame := (hreaches.progress hp).same_iff hp
    rw [hrenamed, hfolded, hcollapsed, Outcome.changed, Bool.not_eq_true', ← Bool.not_eq_true,
      hsame]
    exact Nat.pos_iff_ne_zero.symm

/-- Below a negation there is a template to collapse and nothing to fold; the run does both. -/
theorem run_changed_negated_template :
    let P : Pipeline := ⟨[.fold, .inlineCode], [], 3⟩
    let e : Expr Unit :=
      ⟨(), .unary .not ⟨(), .literal "{0}" ⟨(), [⟨(), .constant (.bool true)⟩]⟩⟩⟩
    let e₀ := (Object.number 0 .expr e).1
    let p₀ := (Object.number 0 .stmts ⟨(), [.node () (.expression e)]⟩).1
    Object.same .expr (Fold.transform.object .expr e₀ 0).1 e₀ ∧
      ¬Object.same .expr (Collapse.transform.object .expr e₀ ⟨0, #[], #[]⟩).1 e₀ ∧
      ∃ r log, P.run p₀ = (.ok r, log) ∧ r.folded + r.collapsed = 2 ∧ r.changed p₀ := by
  intro P e e₀ p₀
  obtain ⟨hfold, -, hcollapse⟩ := (run_changed_iff 0).1 .expr e nofun
  refine ⟨(hfold 0).2.2 (by decide +kernel), ?_, ?_⟩
  · rw [(hcollapse ⟨0, #[], #[]⟩).2]
    decide +kernel
  · have hcounted : (P.run p₀).1.toOption.map (fun r => r.folded + r.collapsed) = some 2 := by
      decide +kernel
    rcases hrun : P.run p₀ with ⟨e | r, log⟩ <;> rw [hrun] at hcounted
    · exact absurd hcounted nofun
    · have hcounted : r.folded + r.collapsed = 2 := Option.some.inj hcounted
      exact ⟨r, log, rfl, hcounted, ((run_changed_iff 0).2 P _ r log hrun).2 (by omega)⟩

end Pipeline

end ScriptTree
