import ScriptTree.Proofs.Counting
import ScriptTree.Proofs.Exposure
import ScriptTree.Proofs.Validation

namespace ScriptTree

open Node Fold

variable {ι : Type}

theorem all_iff_postorder {P : Node ι → Prop} {n : Node ι} : All P n ↔ ∀ m ∈ n.postorder, P m := by
  induction n using Node.induction with
  | step n ih =>
    rw [postorder_eq]
    simp only [List.mem_append, List.mem_flatMap, List.mem_singleton]
    constructor
    · rintro h m (⟨c, hc, hm⟩ | rfl)
      · exact (ih c hc).1 (h.part hc) m hm
      · exact h.self
    · intro h
      exact .intro (h n (.inr rfl)) fun c hc => (ih c hc).2 fun m hm => h m (.inl ⟨c, hc, hm⟩)

theorem faults_transfers : Transfers width fun n : Node Origin => n.faults = [] := by
  intro n z ha hp h
  rw [Node.faults, template?_eq, ← ha, ← hp, ← template?_eq]
  exact h

/-- Folding makes no invalid literal. -/
theorem fold_keeps_valid {n : Node Origin} (h : All (fun m => m.faults = []) n) (folded : Nat) :
    All (fun m => m.faults = []) (Fold.transform.node n folded).1 := by
  refine fold_keeps ?_ faults_transfers (fun _ _ _ _ _ => rfl) h folded
  constructor <;> intros <;> rfl

theorem forall_not_invalid {n : Node ι} (h : n.postorder.flatMap Node.faults = []) :
    ∀ m ∈ n.postorder, ¬m.Invalid :=
  fun m hm => mt faults_ne_nil_iff.2 (not_not.2 (List.flatMap_eq_nil_iff.1 h m hm))

theorem number_valid (start : Nat) {k : Kind} {x : Object Unit k}
    (h : ∀ m ∈ (Node.mk k x).postorder, ¬m.Invalid) :
    All (fun m => m.faults = []) ⟨k, (Object.number start k x).1⟩ := by
  rw [all_iff_postorder]
  intro m hm
  have hbare := postorder_bare ⟨k, (Object.number start k x).1⟩
  rw [bare_number_object] at hbare
  have hm : m.bare ∈ (Node.mk k x).postorder := hbare ▸ List.mem_map_of_mem hm
  rw [← faults_bare]
  exact not_not.1 (mt faults_ne_nil_iff.1 (h _ hm))

namespace Pipeline

variable {names names' : Rename.Names} {passes : List Pass} {p q : Program Origin}
  {w v : Workspace}

theorem foldl_valid (names : Rename.Names) (h : ∀ pass ∈ passes, pass = .fold)
    (hp : All (fun m => m.faults = []) ⟨.stmts, p⟩) :
    All (fun m => m.faults = []) ⟨.stmts, passes.foldl (Pass.apply names) p⟩ := by
  induction passes generalizing p with
  | nil => exact hp
  | cons pass passes ih =>
    obtain ⟨rfl, hpasses⟩ := List.forall_mem_cons.1 h
    exact ih hpasses (fold_keeps_valid hp _)

/-- The passes that do not rename make the same whatever the names. -/
theorem Makes.of_not_mem (h : Makes names passes p q) (hrename : .rename ∉ passes) :
    Makes names' passes p q := by
  induction h with
  | nil p => exact .nil p
  | @cons pass passes p q r hpass _ ih =>
    rw [List.mem_cons, not_or] at hrename
    refine .cons ?_ (ih hrename.2)
    obtain ⟨w, rfl, hq, herr⟩ := hpass
    refine ⟨{ w with names := names' }, rfl, ?_⟩
    cases pass
    case rename => exact absurd rfl hrename.1
    all_goals exact ⟨hq, herr⟩

theorem SettlesAfter.of_not_mem {k : Nat} (h : SettlesAfter names passes k p)
    (hrename : .rename ∉ passes) : SettlesAfter names' passes k p := by
  induction k generalizing p with
  | zero => exact fun q hq => h q (hq.of_not_mem hrename)
  | succ k ih => exact fun q hq => ih (h q (hq.of_not_mem hrename))

/-- Folding and template collapse guard only callees that are not exposed. -/
theorem Reaches.settled_unexposed (h : Reaches passes p w q v) (hrename : .rename ∉ passes)
    (hp : Separate ⟨.stmts, p⟩) :
    Form.Matches (fun g g' => g' → g) (settled (fun c => !c.isExposed) ⟨.stmts, p⟩)
      (settled (fun c => !c.isExposed) ⟨.stmts, q⟩) := by
  induction h with
  | start => exact .refl (fun _ => id) _
  | @pass q v pass hpass h ih =>
    have hq := (h.progress hp).separate hp
    refine ih.trans (fun _ _ _ h h' g => h (h' g)) ?_
    cases pass
    case rename => exact absurd hpass hrename
    case fold => exact (fold_unexposed hq _).form
    case inlineCode =>
      exact (collapse_unexposed (fun _ => id) hq _).form
  | record r _ ih => exact ih

/-- Where no template is left to collapse, every callee is guarded that is no member reference and
becomes one. -/
theorem Reaches.settled_bare (h : Reaches passes p w q v) (hrename : .rename ∉ passes)
    (hp : Separate ⟨.stmts, p⟩) (hcollapsed : All Collapse.SettledNode ⟨.stmts, p⟩) :
    All Collapse.SettledNode ⟨.stmts, q⟩ ∧
      Form.Matches (fun g g' => g → g') (settled (fun c => !isMemberReference c) ⟨.stmts, p⟩)
        (settled (fun c => !isMemberReference c) ⟨.stmts, q⟩) := by
  induction h with
  | start => exact ⟨hcollapsed, .refl (fun _ => id) _⟩
  | @pass q v pass hpass h ih =>
    obtain ⟨hcollapsed, ih⟩ := ih
    have hq := (h.progress hp).separate hp
    have hkeeps : Pass.Normal v.names (pass.run q v).1 .inlineCode :=
      Pass.run_keeps hcollapsed nofun
    refine ⟨hkeeps, ?_⟩
    cases pass
    case rename => exact absurd hpass hrename
    case fold => exact ih.trans (fun _ _ _ h h' g => h' (h g)) (fold_bare hq _).form
    case inlineCode =>
      have hself : (Pass.inlineCode.run q v).1 = q := Pass.run_of_normal hcollapsed
      rw [hself]
      exact ih
  | record r _ ih => exact ih

/-- A run without an error leads to its program from what its first pass makes. -/
theorem run_of_first {P : Pipeline} {pass : Pass} {rest : List Pass} {r : Outcome}
    {log : List Record} (hpasses : P.passes = pass :: rest) (hlimit : P.maxIterations ≠ 0)
    (h : P.run p = (.ok r, log)) :
    (pass.run p (.new P.names)).2.errors = #[] ∧
      ∃ w v, Reaches P.passes (pass.run p (.new P.names)).1 w r.program v := by
  obtain ⟨v, -, hv, -⟩ := run_ok h
  obtain ⟨left, hleft⟩ := Nat.exists_eq_succ_of_ne_zero hlimit
  rw [hleft, iterate] at hv
  obtain ⟨q, u, hq, hv⟩ := run_bind hv
  rw [hpasses] at hq
  obtain ⟨_, u', hfirst, hq⟩ := run_bind hq
  obtain ⟨rfl, herr, -⟩ := runPass_ok hfirst
  have hrest : Reaches P.passes (pass.run p (.new P.names)).1 u' q u :=
    runPasses_reaches (hpasses ▸ List.subset_cons_self pass rest) hq
  refine ⟨herr, u', v, ?_⟩
  split at hv
  · obtain ⟨hq, rfl⟩ := Prod.mk.inj hv
    obtain ⟨rfl, -⟩ := Prod.mk.inj (Except.ok.inj hq)
    exact hrest
  · exact hrest.trans (iterate_reaches hv)

/-- A run that settles ends with an iteration that makes the program of itself. -/
theorem iterate_converged {left done n : Nat} (hp : Separate ⟨.stmts, p⟩)
    (h : (iterate passes left done p).run w = (.ok (q, n, true), v)) :
    Makes w.names passes q q ∧ Separate ⟨.stmts, q⟩ := by
  induction left generalizing done p w with
  | zero => exact absurd h nofun
  | succ left ih =>
    obtain ⟨r, u, hr, h⟩ := run_bind h
    obtain ⟨hmakes, hu⟩ := runPasses_makes hr
    have hprogress := (runPasses_reaches (List.Subset.refl passes) hr).progress hp
    cases hsame : same r p <;> rw [hsame] at h
    · exact hu ▸ ih (hprogress.separate hp) h
    · cases h
      obtain rfl := hprogress.eq_of_same hp hsame
      exact ⟨hmakes, hp⟩

/-- Folding and template collapse report nothing of a valid program. -/
theorem run_of_valid {P : Pipeline} (hrename : .rename ∉ P.passes) (hmax : 1 ≤ P.maxIterations)
    (hp : Separate ⟨.stmts, p⟩) (hvalid : All (fun m => m.faults = []) ⟨.stmts, p⟩) :
    ∃ r log, P.run p = (.ok r, log) := by
  obtain ⟨-, e, es, hfaults, -⟩ | ⟨-, r, hr⟩ := run_cases hmax hp
  · -- before the first collapse there are only folds
    have hbefore : ∀ pass ∈ P.passes.takeWhile (· ≠ Pass.inlineCode), pass = .fold := by
      intro pass hpass
      have hne := List.mem_takeWhile_imp hpass
      have hmem := (List.takeWhile_sublist _).mem hpass
      cases pass
      case fold => rfl
      case rename => exact absurd hmem hrename
      case inlineCode => simp at hne
    have hnone := all_iff_postorder.1 (foldl_valid P.names hbefore hvalid)
    exact absurd (hfaults.symm.trans (List.flatMap_eq_nil_iff.2 hnone)) nofun
  · exact ⟨r, (P.run p).2, Prod.ext hr rfl⟩

/-- Folding and template collapse settle a valid program, whatever their order. -/
theorem run_settled {P : Pipeline} (hrename : .rename ∉ P.passes) (hfold : .fold ∈ P.passes)
    (hcollapse : .inlineCode ∈ P.passes) (hmax : 3 ≤ P.maxIterations)
    (hp : Separate ⟨.stmts, p⟩) (hvalid : All (fun m => m.faults = []) ⟨.stmts, p⟩) :
    ∃ r log, P.run p = (.ok r, log) ∧ r.converged = true ∧
      All (¬Foldable ·) ⟨.stmts, r.program⟩ ∧ All Collapse.SettledNode ⟨.stmts, r.program⟩ := by
  obtain ⟨r, log, hrun⟩ := run_of_valid hrename (Nat.le_trans (by decide) hmax) hp hvalid
  -- the names do not matter, and so may be taken to be none
  have hnames : ∀ x v : String, List.lookup x ([] : Rename.Names) = some v →
    List.lookup v ([] : Rename.Names) = none := nofun
  have hsettles : SettlesAfter P.names P.passes 2 p :=
    (settlesAfter_two hnames hp).of_not_mem hrename
  have hconverged := (run_of_settlesAfter hsettles hrun).2 hmax
  obtain ⟨v, -, hv, -⟩ := run_ok hrun
  rw [hconverged] at hv
  obtain ⟨hmakes, hq⟩ := iterate_converged hp hv
  have hmakes : Makes [] P.passes r.program r.program := hmakes.of_not_mem hrename
  have hcollapsed := hmakes.normal hnames hq (.inl hcollapse) nofun
  have hfolded := hmakes.normal hnames hq (.inl hfold) fun _ _ => hcollapsed
  exact ⟨r, _, hrun, hconverged, hfolded, hcollapsed⟩

/-- What the passes settle a program to guards every callee that template collapse leaves no member
reference and folding makes one, if collapse comes first. -/
theorem plain_of_collapse_first {P : Pipeline} {rest : List Pass} {r : Outcome}
    {log : List Record} (hpasses : P.passes = .inlineCode :: rest)
    (hrename : .rename ∉ P.passes) (hlimit : P.maxIterations ≠ 0) (hp : Separate ⟨.stmts, p⟩)
    (h : P.run p = (.ok r, log)) (hfolded : All (¬Foldable ·) ⟨.stmts, r.program⟩) :
    Form.Matches (fun g g' => g → g') (settled (fun c => !c.isExposed) ⟨.stmts, p⟩)
      (plain ⟨.stmts, r.program⟩) := by
  obtain ⟨herr, w, v, hreaches⟩ := run_of_first hpasses hlimit h
  have hcollapsed : All Collapse.SettledNode
      ⟨.stmts, (Pass.inlineCode.run p (.new P.names)).1⟩ := Collapse.collapse_normal hp herr
  have hq : Separate ⟨.stmts, (Pass.inlineCode.run p (.new P.names)).1⟩ := Pass.run_separate hp
  obtain ⟨hsettled, hbare⟩ := hreaches.settled_bare hrename hq hcollapsed
  have hmember (c : Expr Origin) (hc : isMemberReference c = true) :
      (!isMemberReference c) = false := by
    rw [hc]
    rfl
  rw [settled_eq_plain hmember hfolded hsettled] at hbare
  have hcollapse : Residue.Matches (fun g g' => g → g')
      (residue (fun c => !c.isExposed) ⟨.stmts, p⟩)
      (residue (fun c => !c.isExposed) ⟨.stmts, (Pass.inlineCode.run p (.new P.names)).1⟩) :=
    collapse_unexposed (fun _ => id) hp _
  rw [residue_of_collapsed hcollapsed] at hcollapse
  exact hcollapse.form.trans (fun _ _ _ h h' g => h' (h g)) hbare

/-- What the passes settle a program to guards no callee that is exposed. -/
theorem plain_of_settled {P : Pipeline} {r : Outcome} {log : List Record}
    (hrename : .rename ∉ P.passes) (hp : Separate ⟨.stmts, p⟩) (h : P.run p = (.ok r, log))
    (hfolded : All (¬Foldable ·) ⟨.stmts, r.program⟩)
    (hcollapsed : All Collapse.SettledNode ⟨.stmts, r.program⟩) :
    Form.Matches (fun g g' => g' → g) (settled (fun c => !c.isExposed) ⟨.stmts, p⟩)
      (plain ⟨.stmts, r.program⟩) := by
  obtain ⟨v, hreaches, -⟩ := run_reaches h
  have hmember (c : Expr Origin) (hc : isMemberReference c = true) : (!c.isExposed) = false := by
    rw [Expr.isExposed_of_isMemberReference hc]
    rfl
  rw [← settled_eq_plain hmember hfolded hcollapsed]
  exact hreaches.settled_unexposed hrename hp

/-- Folding and template collapse settle a program without invalid templates in either order, in
programs that agree; a call that binds `this` where collapse comes first does so where folding
does. -/
theorem run_confluent (start : Nat) (p : Program Unit) (names names' : Rename.Names)
    {limit limit' : Nat} (hvalid : ∀ m ∈ (Node.mk .stmts p).postorder, ¬m.Invalid)
    (hlimit : 3 ≤ limit) (hlimit' : 3 ≤ limit') :
    let p₀ := (Object.number start .stmts p).1
    ∃ r r', (run ⟨[.inlineCode, .fold], names, limit⟩ p₀).1 = .ok r ∧
      (run ⟨[.fold, .inlineCode], names', limit'⟩ p₀).1 = .ok r' ∧
      r.converged = true ∧ r'.converged = true ∧
      Node.Agree ⟨.stmts, r.program⟩ ⟨.stmts, r'.program⟩ ∧
      List.Forall₂ (fun c c' => isMemberReference c → isMemberReference c')
        (callees ⟨.stmts, r.program⟩) (callees ⟨.stmts, r'.program⟩) := by
  intro p₀
  have hp : Separate ⟨.stmts, p₀⟩ := number_separate start .stmts p
  have hvalid := number_valid start hvalid
  obtain ⟨r, log, hr, hconverged, hfolded, -⟩ :=
    run_settled (P := ⟨[.inlineCode, .fold], names, limit⟩) (by simp) (by simp) (by simp)
      hlimit hp hvalid
  obtain ⟨r', log', hr', hconverged', hfolded', hcollapsed'⟩ :=
    run_settled (P := ⟨[.fold, .inlineCode], names', limit'⟩) (by simp) (by simp) (by simp)
      hlimit' hp hvalid
  have hplain := plain_of_collapse_first rfl (by simp) (Nat.ne_zero_of_lt hlimit) hp hr hfolded
  have hplain' := plain_of_settled (by simp) hp hr' hfolded' hcollapsed'
  have hagree : Node.Agree ⟨.stmts, r.program⟩ ⟨.stmts, r'.program⟩ :=
    agree_of_plain (hplain.flip.trans (fun _ _ _ h h' g => h (h' g)) hplain')
  exact ⟨r, r', congrArg Prod.fst hr, congrArg Prod.fst hr', hconverged, hconverged', hagree,
    hagree.forall₂_callees⟩

/-- A template stands for the test of an `if` in a branch that is dropped. -/
def droppedTemplate : Program Unit :=
  let declare (name : String) : Block Unit :=
    ⟨(), ⟨(), [.node () (.vars ⟨(), [⟨(), name, none⟩]⟩)]⟩⟩
  let test : Expr Unit := ⟨(), .literal "{0}" ⟨(), [⟨(), .constant (.bool false)⟩]⟩⟩
  ⟨(), [.node () (.ifElse ⟨(), .constant (.bool false)⟩
    ⟨(), ⟨(), [.node () (.ifElse test (declare "b") (some (declare "a")))]⟩⟩ none)]⟩

/-- A template stands for a callee that folds into a member. -/
def calledTemplate : Program Unit :=
  let choice : Expr Unit := ⟨(), .conditional ⟨(), .constant (.bool true)⟩
    ⟨(), .member ⟨(), .identifier "o"⟩ "m"⟩ ⟨(), .identifier "x"⟩⟩
  ⟨(), [.node () (.expression ⟨(), .call ⟨(), .literal "{0}" ⟨(), [choice]⟩⟩ .blank⟩)]⟩

/-- The program is one call, which binds `this`. -/
def callsMember : Program Unit → Bool
  | ⟨_, [.node _ (.expression ⟨_, .call c _⟩)]⟩ => isMemberReference c
  | _ => false

theorem droppedTemplate_valid :
    ∀ m ∈ (Node.mk .stmts droppedTemplate).postorder, ¬m.Invalid :=
  forall_not_invalid (by decide +kernel)

theorem run_confluent_dropped_template :
    (∀ m ∈ (Node.mk .stmts droppedTemplate).postorder, ¬m.Invalid) ∧
      let p₀ := (Object.number 0 .stmts droppedTemplate).1
      ∃ r r', (run ⟨[.inlineCode, .fold], [], 3⟩ p₀).1 = .ok r ∧
        (run ⟨[.fold, .inlineCode], [], 3⟩ p₀).1 = .ok r' ∧
        r.converged = true ∧ r'.converged = true ∧
        Node.Agree ⟨.stmts, r.program⟩ ⟨.stmts, r'.program⟩ ∧
        List.Forall₂ (fun c c' => isMemberReference c → isMemberReference c')
          (callees ⟨.stmts, r.program⟩) (callees ⟨.stmts, r'.program⟩) :=
  ⟨droppedTemplate_valid, run_confluent 0 droppedTemplate [] [] droppedTemplate_valid
    (Nat.le_refl 3) (Nat.le_refl 3)⟩

/-- The program has no invalid template, and is made two different ones by folding and template
collapse in the one order and in the other. -/
def DependsOnOrder (p : Program Unit) : Prop :=
  (∀ m ∈ (Node.mk .stmts p).postorder, ¬m.Invalid) ∧
    let p₀ := (Object.number 0 .stmts p).1
    ∃ r r', (run ⟨[.inlineCode, .fold], [], 3⟩ p₀).1 = .ok r ∧
      (run ⟨[.fold, .inlineCode], [], 3⟩ p₀).1 = .ok r' ∧
      Object.bare .stmts r.program ≠ Object.bare .stmts r'.program

theorem dependsOnOrder_of_ne {p : Program Unit} {α : Type} (f : Program Unit → α) (a a' : α)
    (hvalid : (Node.mk .stmts p).postorder.flatMap Node.faults = [])
    (h : (run ⟨[.inlineCode, .fold], [], 3⟩ (Object.number 0 .stmts p).1).1.toOption.map
      (fun r => f (Object.bare .stmts r.program)) = some a)
    (h' : (run ⟨[.fold, .inlineCode], [], 3⟩ (Object.number 0 .stmts p).1).1.toOption.map
      (fun r => f (Object.bare .stmts r.program)) = some a')
    (hne : a ≠ a') : DependsOnOrder p := by
  have hok {x : Except Error Outcome} {b : α}
      (h : x.toOption.map (fun r => f (Object.bare .stmts r.program)) = some b) :
      ∃ r, x = .ok r ∧ f (Object.bare .stmts r.program) = b := by
    cases x with
    | error e => exact absurd h nofun
    | ok r => exact ⟨r, rfl, Option.some.inj h⟩
  obtain ⟨r, hr, rfl⟩ := hok h
  obtain ⟨r', hr', rfl⟩ := hok h'
  exact ⟨forall_not_invalid hvalid, r, r', hr, hr', fun heq => hne (congrArg f heq)⟩

/-- What is left declared may come in another order, and a call of a member be guarded or not. -/
theorem run_depends_on_order : DependsOnOrder droppedTemplate ∧ DependsOnOrder calledTemplate := by
  constructor
  · refine dependsOnOrder_of_ne (fun p => Stmt.varNamesEach p.items) ["a", "b"] ["b", "a"]
      (by decide +kernel) ?_ ?_ (by decide)
    · decide +kernel
    · decide +kernel
  · refine dependsOnOrder_of_ne callsMember false true (by decide +kernel) ?_ ?_
      Bool.false_ne_true
    · decide +kernel
    · decide +kernel

end Pipeline

end ScriptTree
