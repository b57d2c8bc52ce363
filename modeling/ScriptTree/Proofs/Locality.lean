import ScriptTree.Proofs.Report
import ScriptTree.Proofs.SharedLists

namespace ScriptTree

open Node

theorem forall₂_append_iff {α β : Type} {R : α → β → Prop} {as as' : List α} {bs bs' : List β}
    (h : as.length = bs.length) :
    List.Forall₂ R (as ++ as') (bs ++ bs') ↔ List.Forall₂ R as bs ∧ List.Forall₂ R as' bs' := by
  induction as generalizing bs with
  | nil =>
    obtain rfl := List.length_eq_zero_iff.1 h.symm
    simp
  | cons a as ih =>
    obtain ⟨b, bs, rfl⟩ := List.exists_cons_of_length_eq_add_one h.symm
    simp only [List.cons_append, List.forall₂_cons, ih (Nat.succ.inj h), and_assoc]

namespace NodeList

/-- The items of two lists in one with the identity `o`. -/
def join {ι α : Type} (o : ι) (l l' : NodeList ι α) : NodeList ι α := ⟨o, l.items ++ l'.items⟩

section Join

variable {α σ : Type} [Placed α] (f : α → StateM σ α) (o : Origin) (l l' : NodeList Origin α) (s : σ)

theorem join_mapM_snd : ((join o l l').mapM f s).2 = (l'.mapM f (l.mapM f s).2).2 := by
  have happend := congrArg Prod.snd (mapM_append_run f l.items l'.items s)
  rw [mapM_snd, mapM_snd, mapM_snd]
  exact happend

theorem same_join_mapM_iff : same ((join o l l').mapM f s).1 (join o l l') ↔
    same (l.mapM f s).1 l ∧ same (l'.mapM f (l.mapM f s).2).1 l' := by
  rw [same_mapM_iff, same_mapM_iff, same_mapM_iff, mapM_snd]
  have hanswers := congrArg Prod.fst (mapM_append_run f l.items l'.items s)
  rw [join, hanswers]
  exact forall₂_append_iff (length_mapM f l.items s)

end Join

end NodeList

namespace Transform

variable {σ : Type} {T : Transform σ}

/-- The transform answers a list of statements as the traversal does. -/
def WalksStmts (T : Transform σ) : Prop := ∀ l walk, T.visit .stmts l walk = walk

theorem stmts_eq_mapM (hT : T.IsTame) (hwalks : T.WalksStmts) {l : Program Origin}
    (hl : ∀ x ∈ l.items, Separate ⟨.stmt, x⟩) : T.stmts l = l.mapM T.stmt := by
  have hitems : ∀ c ∈ l.items.map (Node.mk .stmt), Separate c := List.forall_mem_map.2 hl
  obtain ⟨o, xs⟩ := l
  exact (hwalks ⟨o, xs⟩ _).trans
    (walk_eq_mapM hT .stmt (fun _ => rfl) T.eachStmt rfl (fun _ _ => rfl) hitems)

theorem stmts_items (hT : T.IsTame) (hwalks : T.WalksStmts) {l : Program Origin}
    (hl : ∀ x ∈ l.items, Separate ⟨.stmt, x⟩) (s : σ) :
    (T.stmts l s).1.items = (l.items.mapM T.stmt s).1 := by
  rw [stmts_eq_mapM hT hwalks hl]
  exact NodeList.mapM_items_of_kept
    (fun x hx => eq_of_same hT (k := .stmt) (fun _ => rfl) (hl x hx)) s

/-- Each statement is answered as it is alone, from whatever state. -/
theorem stmts_items_map (hT : T.IsTame) (hwalks : T.WalksStmts) (hstateless : T.Stateless)
    {l : Program Origin} (hl : ∀ x ∈ l.items, Separate ⟨.stmt, x⟩) (s s' : σ) :
    (T.stmts l s).1.items = l.items.map fun x => (T.stmt x s').1 := by
  rw [stmts_items hT hwalks hl]
  generalize l.items = xs
  induction xs generalizing s with
  | nil => rfl
  | cons x xs ih =>
    have hx : (T.stmt x s).1 = (T.stmt x s').1 :=
      eq_of_heq (Node.mk.inj (node_fst hstateless ⟨.stmt, x⟩ s s')).2
    rw [mapM_cons_run, List.map_cons, ← hx, ← ih (T.stmt x s).2]

/-- Two lists of statements in one are answered one after the other. -/
theorem stmts_join (hT : T.IsTame) (hwalks : T.WalksStmts) {p q : Program Origin}
    (hp : ∀ x ∈ p.items, Separate ⟨.stmt, x⟩) (hq : ∀ x ∈ q.items, Separate ⟨.stmt, x⟩)
    (o : Origin) (s : σ) :
    (same (T.stmts (.join o p q) s).1 (.join o p q) ↔
        same (T.stmts p s).1 p ∧ same (T.stmts q (T.stmts p s).2).1 q) ∧
      (T.stmts (.join o p q) s).2 = (T.stmts q (T.stmts p s).2).2 := by
  have hjoin : ∀ x ∈ (NodeList.join o p q).items, Separate ⟨.stmt, x⟩ :=
    List.forall_mem_append.2 ⟨hp, hq⟩
  rw [stmts_eq_mapM hT hwalks hjoin, stmts_eq_mapM hT hwalks hp, stmts_eq_mapM hT hwalks hq]
  exact ⟨NodeList.same_join_mapM_iff T.stmt o p q s, NodeList.join_mapM_snd T.stmt o p q s⟩

end Transform

namespace Pass

variable (pass : Pass) {p q : Program Origin}

/-- The statement that the pass makes of another one alone. -/
def applyStmt (names : Rename.Names) (x : Stmt Origin) : Stmt Origin :=
  match pass with
  | .rename => ((Rename.transform names).stmt x ⟨0, #[]⟩).1
  | .fold => (Fold.transform.stmt x 0).1
  | .inlineCode => (Collapse.transform.stmt x ⟨0, #[], #[]⟩).1

theorem apply_items (names : Rename.Names) (hp : ∀ x ∈ p.items, Separate ⟨.stmt, x⟩) :
    (pass.apply names p).items = p.items.map (pass.applyStmt names) := by
  cases pass
  case rename =>
    exact Transform.stmts_items_map (rename_isTame names) (fun _ _ => rfl)
      (Rename.transform_stateless names) hp _ _
  case fold =>
    exact Transform.stmts_items_map fold_isTame (fun _ _ => rfl) Fold.transform_stateless hp _ _
  case inlineCode =>
    exact Transform.stmts_items_map collapse_isTame (fun _ _ => rfl)
      Collapse.transform_stateless hp _ _

/-- A pass runs over the second of two programs in one from where it got with the first. -/
theorem run_join (hp : ∀ x ∈ p.items, Separate ⟨.stmt, x⟩)
    (hq : ∀ x ∈ q.items, Separate ⟨.stmt, x⟩) (o : Origin) (w : Workspace) :
    (same (pass.run (.join o p q) w).1 (.join o p q) ↔
        same (pass.run p w).1 p ∧ same (pass.run q (pass.run p w).2).1 q) ∧
      (pass.run (.join o p q) w).2 = (pass.run q (pass.run p w).2).2 := by
  cases pass
  case rename =>
    obtain ⟨hsame, hstate⟩ := Transform.stmts_join (rename_isTame w.names) (fun _ _ => rfl) hp hq o
      ⟨w.renamed, w.log⟩
    exact ⟨hsame, congrArg (fun t => { w with renamed := t.renamed, log := t.log }) hstate⟩
  case fold =>
    obtain ⟨hsame, hstate⟩ := Transform.stmts_join fold_isTame (fun _ _ => rfl) hp hq o w.folded
    exact ⟨hsame, congrArg (fun n => { w with folded := n }) hstate⟩
  case inlineCode =>
    obtain ⟨hsame, hstate⟩ := Transform.stmts_join collapse_isTame (fun _ _ => rfl) hp hq o
      ⟨w.collapsed, w.errors, w.log⟩
    exact ⟨hsame, congrArg
      (fun t => { w with collapsed := t.collapsed, errors := t.errors, log := t.log }) hstate⟩

/-- A pass answers each statement of a program as it does alone, whatever was counted, reported and
logged before, and adds to that what it counts and reports of the program. Two programs in one are
answered, counted and reported one after the other. -/
theorem run_local (hp : ∀ x ∈ p.items, Separate ⟨.stmt, x⟩)
    (hq : ∀ x ∈ q.items, Separate ⟨.stmt, x⟩) (o : Origin) (w : Workspace) :
    let r := pass.run (.join o p q) w
    let p' := pass.apply w.names p
    let q' := pass.apply w.names q
    (∀ (l : Program Origin) (v : Workspace),
      let s := pass.run l v
      s.1 = pass.apply v.names l ∧ pass.count s.2 = pass.count v + pass.gain v.names l ∧
        s.2.errors = v.errors ++ pass.faults l ∧ s.2.names = v.names) ∧
      p'.items = p.items.map (pass.applyStmt w.names) ∧
      q'.items = q.items.map (pass.applyStmt w.names) ∧
      r.1.items = p'.items ++ q'.items ∧
      (same r.1 (.join o p q) ↔ same p' p ∧ same q' q) ∧
      pass.count r.2 = pass.count w + pass.gain w.names p + pass.gain w.names q ∧
      r.2.errors = w.errors ++ pass.faults p ++ pass.faults q ∧
      r.2.names = w.names := by
  intro r p' q'
  have hjoin : ∀ x ∈ (NodeList.join o p q).items, Separate ⟨.stmt, x⟩ :=
    List.forall_mem_append.2 ⟨hp, hq⟩
  obtain ⟨hsame, hstate⟩ := run_join pass hp hq o w
  have hnames : (pass.run p w).2.names = w.names := run_names
  have hp' := apply_items pass w.names hp
  have hq' := apply_items pass w.names hq
  refine ⟨fun l v => ⟨run_fst pass l v, count_run pass l v, run_errors pass l v,
    run_names⟩, hp', hq', ?_, ?_, ?_, ?_, ?_⟩
  · rw [hp', hq', ← List.map_append]
    simp only [r, run_fst]
    exact apply_items pass w.names hjoin
  · rw [run_fst pass p, run_fst pass q, hnames] at hsame
    exact hsame
  · simp only [r, hstate]
    rw [count_run, count_run, hnames]
  · simp only [r, hstate]
    rw [run_errors, run_errors]
  · exact run_names

/-- The first program collapses and the second reports, on top of what there was. -/
theorem run_local_malformed :
    let p := (Object.number 0 .stmts ⟨(), [.node () (.expression
      ⟨(), .literal "{0}" ⟨(), [⟨(), .this⟩]⟩⟩)]⟩).1
    let q := (Object.number 9 .stmts ⟨(), [.node () (.expression
      ⟨(), .literal "\x7b" ⟨(), []⟩⟩)]⟩).1
    let w : Workspace := ⟨[("a", "b")], 1, 2, 3, #[.noIterations], #[]⟩
    let r := Pass.inlineCode.run (.join (.given 20) p q) w
    (∀ x ∈ p.items, Separate ⟨.stmt, x⟩) ∧ (∀ x ∈ q.items, Separate ⟨.stmt, x⟩) ∧
      r.1.items.map Stmt.origin = [.made (.given 1) 0, .given 10] ∧ r.2.collapsed = 4 ∧
      r.2.errors = #[.noIterations, .malformedTemplate "\x7b" 0] ∧ r.2.names = [("a", "b")] := by
  intro p q w r
  have hp : ∀ x ∈ p.items, Separate ⟨.stmt, x⟩ := fun x hx =>
    (number_separate 0 .stmts _).part (List.mem_map_of_mem hx)
  have hq : ∀ x ∈ q.items, Separate ⟨.stmt, x⟩ := fun x hx =>
    (number_separate 9 .stmts _).part (List.mem_map_of_mem hx)
  obtain ⟨-, -, -, hitems, -, hcount, herrors, hnames⟩ :=
    run_local .inlineCode hp hq (.given 20) w
  refine ⟨hp, hq, ?_, hcount.trans (by decide +kernel), herrors.trans (by decide +kernel), hnames⟩
  · rw [hitems]
    decide +kernel

end Pass

end ScriptTree
