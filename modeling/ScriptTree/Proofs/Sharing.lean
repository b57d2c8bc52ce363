import ScriptTree.Proofs.RenamedBindings
import ScriptTree.Proofs.Report
import ScriptTree.Proofs.Validation

namespace ScriptTree

open Node

/-- A property of all objects that their own contents and readings of their parts tell is one of the
tree without its identities. -/
theorem Keeps.of_bare_eq {τ : Type} {f : Node Origin → τ} {P : Node Origin → Prop} (hf : Local f)
    (hP : Transfers f P) {n m : Node Origin} (h : n.bare = m.bare) : Keeps f P n m := by
  induction n using Node.induction generalizing m with
  | step n ih =>
    have halike : n.Alike m := by rw [Alike, ← bare_head n, h, bare_head]
    have hparts : n.parts.map Node.bare = m.parts.map Node.bare := by
      rw [← bare_parts, h, bare_parts]
    have hkeeps := forall₂_imp_of_mem (map_eq_map_iff_forall₂.1 hparts) fun c hc _ h => ih c hc h
    exact .of_parts hf hP halike hkeeps

/-- Nothing is left to fold in a folded tree, so that nothing was there to fold in an equal one. -/
theorem Fold.fold_eq_self {n : Node Origin} (hn : Separate n) {folded : Nat}
    (h : (transform.node n folded).1.bare = n.bare) : transform.node n folded = (n, folded) :=
  fold_of_normal ((Keeps.of_bare_eq reading_local foldable_transfers h).1 (fold_normal hn folded))
    folded

namespace Collapse

theorem length_postorder_lt {ι : Type} {n c : Node ι} (hc : c ∈ n.parts) :
    c.postorder.length < n.postorder.length := by
  obtain ⟨before, after, hparts⟩ := List.append_of_mem hc
  rw [postorder_eq n, hparts]
  simp only [List.flatMap_append, List.flatMap_cons, List.length_append, List.length_singleton]
  omega

theorem length_postorder_lt_of_chosen? {ι : Type} {n a : Node ι} (h : n.chosen? = some a) :
    a.postorder.length < n.postorder.length := by
  obtain ⟨c, hc, ha⟩ := mem_parts_of_chosen? h
  exact (length_postorder_lt ha).trans (length_postorder_lt hc)

theorem length_flatMap_le {α β : Type} {R : α → α → Prop} {f : α → List β} {as bs : List α}
    (h : List.Forall₂ R as bs) (hf : ∀ a ∈ as, ∀ b, R a b → (f b).length ≤ (f a).length) :
    (bs.flatMap f).length ≤ (as.flatMap f).length := by
  induction h with
  | nil => exact Nat.le_refl _
  | cons hab _ ih =>
    obtain ⟨hhead, htail⟩ := List.forall_mem_cons.1 hf
    rw [List.flatMap_cons, List.flatMap_cons, List.length_append, List.length_append]
    exact Nat.add_le_add (hhead _ hab) (ih htail)

theorem Replaced.length_le {n n' : Node Unit} :
    Replaced n n' → n'.postorder.length ≤ n.postorder.length
  | .literal hchosen h => h.length_le.trans (length_postorder_lt_of_chosen? hchosen).le
  | .kept _ _ hparts => by
    rw [postorder_eq, postorder_eq n, List.length_append, List.length_append]
    exact Nat.add_le_add_right (length_flatMap_le hparts fun c hc _ h => h.length_le) 1
termination_by n.size
decreasing_by
  · exact size_lt_of_chosen? hchosen
  · exact size_lt_of_mem_parts hc

/-- A literal is longer than what its argument becomes: a tree that stays as it is has none that
stands for an argument. -/
theorem Replaced.chosen?_eq_none {n : Node Unit} (h : Replaced n n) :
    ∀ m ∈ n.postorder, m.chosen? = none := by
  induction n using Node.induction with
  | step n ih =>
    cases h with
    | literal hchosen h =>
      exact absurd h.length_le (Nat.not_le.2 (length_postorder_lt_of_chosen? hchosen))
    | kept hchosen _ hparts =>
      intro m hm
      rw [postorder_eq, List.mem_append, List.mem_flatMap, List.mem_singleton] at hm
      obtain ⟨c, hc, hm⟩ | rfl := hm
      · exact ih c hc (List.forall₂_same.1 hparts c hc) m hm
      · exact hchosen

end Collapse

/-- Of a tree that stays as it is, only names that an entry maps to themselves are renamed. -/
theorem Rename.Substituted.filter_isKey_eq_nil_iff {names : Names} {n : Node Unit}
    (h : Substituted names n n) : n.occurrences.filter names.isKey = [] ↔
      ¬∃ name ∈ n.occurrences, names.lookup name = some name := by
  have hself : ∀ name ∈ n.occurrences, names.apply name = name :=
    List.map_inj_left.1 (h.occurrences_eq.symm.trans (List.map_id _).symm)
  have hentry : ∀ name ∈ n.occurrences,
      names.isKey name = true ↔ names.lookup name = some name := by
    intro name hname
    refine Option.isSome_iff_exists.trans ⟨?_, fun h => ⟨name, h⟩⟩
    rintro ⟨after, hafter⟩
    obtain rfl : after = name := (Names.apply_of_lookup hafter).symm.trans (hself name hname)
    exact hafter
  simp only [List.filter_eq_nil_iff, not_exists, not_and]
  exact forall₂_congr fun name hname => not_congr (hentry name hname)

namespace Pass

/-- The pass replaces a name that occurs in the program by itself, and copies what holds it. -/
def Remakes (names : Rename.Names) (p : Program Unit) : Pass → Prop
  | .rename => ∃ name ∈ (Node.mk .stmts p).occurrences, names.lookup name = some name
  | .fold | .inlineCode => False

theorem gain_inlineCode (names : Rename.Names) (p : Program Origin) :
    gain names p .inlineCode = (Node.bare ⟨.stmts, p⟩).postorder.countP (·.chosen?.isSome) := by
  have h := congrArg Collapse.Tally.collapsed (Collapse.collapse_tally ⟨.stmts, p⟩ ⟨0, #[], #[]⟩)
  exact h.trans (Nat.zero_add _)

/-- A pass counts nothing in a program that it leaves structurally equal, but for names that it
replaces by themselves. -/
theorem gain_eq_zero_iff {names : Rename.Names} {p : Program Origin} (pass : Pass)
    (hp : Separate ⟨.stmts, p⟩)
    (h : Object.bare .stmts (pass.apply names p) = Object.bare .stmts p) :
    pass.gain names p = 0 ↔ ¬pass.Remakes names (Object.bare .stmts p) := by
  have hbare : Node.bare ⟨.stmts, pass.apply names p⟩ = Node.bare ⟨.stmts, p⟩ :=
    congrArg (Node.mk Kind.stmts) h
  cases pass
  case rename =>
    have hsubstituted : Rename.Substituted names (Node.bare ⟨.stmts, p⟩)
        (Node.bare ⟨.stmts, apply names p .rename⟩) := Rename.rename_substituted hp _
    rw [hbare] at hsubstituted
    rw [gain_rename, List.length_eq_zero_iff]
    exact hsubstituted.filter_isKey_eq_nil_iff
  case fold =>
    refine iff_of_true ?_ not_false
    exact congrArg Prod.snd (Fold.fold_eq_self hp hbare)
  case inlineCode =>
    have hreplaced : Collapse.Replaced (Node.bare ⟨.stmts, p⟩)
        (Node.bare ⟨.stmts, apply names p .inlineCode⟩) := Collapse.collapse_replaced hp _
    rw [hbare] at hreplaced
    refine iff_of_true ?_ not_false
    rw [gain_inlineCode, List.countP_eq_zero]
    intro m hm
    simp [hreplaced.chosen?_eq_none m hm]

theorem same_apply_iff {names : Rename.Names} {p : Program Origin} (pass : Pass)
    (hp : Separate ⟨.stmts, p⟩)
    (h : Object.bare .stmts (pass.apply names p) = Object.bare .stmts p) :
    same (pass.apply names p) p = true ↔ ¬pass.Remakes names (Object.bare .stmts p) := by
  rw [← gain_eq_zero_iff pass hp h, ← Bool.not_eq_false', pass.same_apply names hp,
    decide_eq_false_iff_not, Nat.not_lt, Nat.le_zero]

/-- Structurally equal programs are renamed alike. -/
theorem bare_apply_rename {names : Rename.Names} {p q : Program Origin}
    (hp : Separate ⟨.stmts, p⟩) (hq : Separate ⟨.stmts, q⟩)
    (h : Object.bare .stmts p = Object.bare .stmts q) :
    Object.bare .stmts (apply names p .rename) = Object.bare .stmts (apply names q .rename) := by
  have hrenamed {p : Program Origin} (hp : Separate ⟨.stmts, p⟩) :
      Rename.Substituted names ⟨.stmts, Object.bare .stmts p⟩
        ⟨.stmts, Object.bare .stmts (apply names p .rename)⟩ := Rename.rename_substituted hp _
  have hp := hrenamed hp
  rw [h] at hp
  exact eq_of_heq (Node.mk.inj (hp.unique (hrenamed hq))).2

end Pass

namespace Pipeline

section Repeated

variable {changes : Nat → Prop} {limit rounds j : Nat} {settled : Bool}

theorem Repeated.settles (h : Repeated changes limit rounds settled) (hj : j < limit)
    (hbefore : ∀ i < j, changes i) (hstop : ¬changes j) : settled = true ∧ rounds = j + 1 := by
  obtain ⟨hchanges, hexhausted, hpos, -⟩ := h
  cases settled with
  | false =>
    obtain rfl := hexhausted rfl
    exact absurd ((hchanges j hj).2 (by simp)) hstop
  | true =>
    have hlast : ¬changes (rounds - 1) := fun h =>
      (hchanges _ (Nat.sub_one_lt_of_lt (hpos rfl))).1 h ⟨Nat.sub_add_cancel (hpos rfl), rfl⟩
    have hle : j ≤ rounds - 1 := not_lt.1 fun h => hlast (hbefore _ h)
    have hge : rounds ≤ j + 1 := by
      by_contra hlt
      exact hstop ((hchanges j (by omega)).2 (by omega))
    refine ⟨rfl, ?_⟩
    have hpos := hpos rfl
    omega

theorem Repeated.exhausts (h : Repeated changes limit rounds settled) (hall : ∀ i, changes i) :
    settled = false ∧ rounds = limit := by
  have hsettled : settled = false := by
    by_contra hsettled
    rw [Bool.not_eq_false] at hsettled
    have hpos := h.pos hsettled
    exact (h.changes_iff _ (Nat.sub_one_lt_of_lt hpos)).1 (hall _)
      ⟨Nat.sub_add_cancel hpos, hsettled⟩
  exact ⟨hsettled, h.exhausted hsettled⟩

end Repeated

/-- A single pass fails the run only with what it reports of the program that the run is given. -/
theorem run_single_ok {P : Pipeline} {pass : Pass} {p : Program Origin} (hP : P.passes = [pass])
    (hlimit : 1 ≤ P.maxIterations) (hp : Separate ⟨.stmts, p⟩) (h : pass.faults p = []) :
    ∃ r log, P.run p = (.ok r, log) := by
  have hok : ∃ r, (P.run p).1 = .ok r := by
    obtain ⟨hmem, e, es, hfaults, -⟩ | ⟨-, hok⟩ := run_cases hlimit hp
    · rw [hP, List.mem_singleton] at hmem
      subst hmem
      rw [hP] at hfaults
      exact absurd (h.symm.trans hfaults) nofun
    · exact hok
  obtain ⟨r, hr⟩ := hok
  exact ⟨r, _, Prod.ext hr rfl⟩

/-- Names that are replaced by themselves are so in every iteration. -/
theorem gain_of_remakes {P : Pipeline} {p : Program Origin} (hP : P.passes = [.rename])
    (hp : Separate ⟨.stmts, p⟩)
    (hequal : Object.bare .stmts (P.iteration p) = Object.bare .stmts p)
    (hremakes : Pass.Remakes P.names (Object.bare .stmts p) .rename) (i : Nat) :
    0 < Pass.gain P.names (P.iteration^[i] p) .rename := by
  have hiteration (q : Program Origin) : P.iteration q = Pass.apply P.names q .rename := by
    rw [iteration, hP]
    rfl
  have hseparate := iteration_separate (P := P) hp
  have hstays : Object.bare .stmts (P.iteration^[i] p) = Object.bare .stmts p := by
    induction i with
    | zero => rfl
    | succ i ih =>
      rw [Function.iterate_succ_apply', hiteration, Pass.bare_apply_rename (hseparate i) hp ih,
        ← hiteration, hequal]
  have hagain : Object.bare .stmts (Pass.apply P.names (P.iteration^[i] p) .rename) =
      Object.bare .stmts (P.iteration^[i] p) := by
    rw [Pass.bare_apply_rename (hseparate i) hp hstays, ← hiteration, hequal, hstays]
  rw [Nat.pos_iff_ne_zero, ne_eq, Pass.gain_eq_zero_iff .rename (hseparate i) hagain, hstays,
    not_not]
  exact hremakes

/-- What a pass makes of a program is structurally equal to it only as the same instance, or where
it replaces a name by itself. A run of a single pass settles in the first iteration that makes a
structurally equal program, without a warning, or goes on from there until its limit. -/
theorem run_shares (pass : Pass) (start : Nat) (p : Program Unit) :
    let p₀ := (Object.number start .stmts p).1
    (∀ w : Workspace, Object.bare .stmts (pass.run p₀ w).1 = p →
      (same (pass.run p₀ w).1 p₀ = true ↔ ¬pass.Remakes w.names p)) ∧
    ∀ (names : Rename.Names) (limit j : Nat),
      let P : Pipeline := ⟨[pass], names, limit⟩
      let made := fun i => Object.bare .stmts (P.iteration^[i] p₀)
      pass.faults p₀ = [] → j < limit → made (j + 1) = made j → (∀ i < j, made (i + 1) ≠ made i) →
      ∃ r log, P.run p₀ = (.ok r, log) ∧
        (¬pass.Remakes names (made j) →
          r.converged = true ∧ r.iterations = j + 1 ∧ ∀ n, .unsettled n ∉ log) ∧
        (pass.Remakes names (made j) →
          r.converged = false ∧ r.iterations = limit ∧ (1 < limit → .unsettled limit ∈ log)) := by
  intro p₀
  have hp : Separate ⟨.stmts, p₀⟩ := number_separate start .stmts p
  have hbare : Object.bare .stmts p₀ = p :=
    eq_of_heq (Node.mk.inj (bare_number_object start .stmts p)).2
  constructor
  · intro w h
    rw [pass.run_fst] at h ⊢
    rw [pass.same_apply_iff hp (h.trans hbare.symm), hbare]
  · intro names limit j P made hfaults hj hequal hbefore
    obtain ⟨r, log, hrun⟩ := run_single_ok (P := P) rfl (Nat.one_le_of_lt hj) hp hfaults
    obtain ⟨hrepeated, -⟩ := run_single rfl hp hrun
    have hseparate := iteration_separate (P := P) hp
    have hsucc (i : Nat) : P.iteration^[i + 1] p₀ = pass.apply names (P.iteration^[i] p₀) :=
      Function.iterate_succ_apply' P.iteration i p₀
    have hgain := @Pass.gain_eq_zero_iff names _ pass (hseparate j)
      (by rw [← hsucc]; exact hequal)
    have hchanged : ∀ i < j, 0 < pass.gain names (P.iteration^[i] p₀) := by
      intro i hi
      obtain ⟨-, heq⟩ | ⟨hpos, -⟩ := pass.apply_cases names (hseparate i)
      · exact absurd (by simp only [made, hsucc, heq]) (hbefore i hi)
      · exact hpos
    refine ⟨r, log, hrun, fun hkeeps => ?_, fun hremakes => ?_⟩
    · obtain ⟨hconverged, hiterations⟩ :=
        hrepeated.settles hj hchanged (Nat.not_lt.2 (Nat.le_zero.2 (hgain.2 hkeeps)))
      refine ⟨hconverged, hiterations, fun n hn => ?_⟩
      obtain ⟨hunsettled, -⟩ := (unsettled_mem_iff hp hrun n).1 hn
      exact absurd (hconverged.symm.trans hunsettled) nofun
    · obtain rfl : pass = .rename := by
        cases pass
        case rename => rfl
        all_goals exact absurd hremakes not_false
      have hremade := gain_of_remakes (P := P) rfl (hseparate j)
        (by rw [← Function.iterate_succ_apply' P.iteration]; exact hequal) hremakes
      have hall : ∀ i, 0 < Pass.gain names (P.iteration^[i] p₀) .rename := by
        intro i
        obtain hi | hi := lt_or_ge i j
        · exact hchanged i hi
        · obtain ⟨d, rfl⟩ := Nat.exists_eq_add_of_le' hi
          rw [Function.iterate_add_apply]
          exact hremade d
      obtain ⟨hconverged, hiterations⟩ := hrepeated.exhausts hall
      exact ⟨hconverged, hiterations,
        fun hmany => (unsettled_mem_iff hp hrun limit).2 ⟨hconverged, hmany, hiterations.symm⟩⟩

/-- An entry of a name that does not occur is not in the way: the second iteration shares the
program that the first one renamed. -/
theorem run_shares_renamed :
    let names : Rename.Names := [("a", "b"), ("c", "c")]
    let use (x : String) : Program Unit := ⟨(), [.node () (.expression ⟨(), .identifier x⟩)]⟩
    let p₀ := (Object.number 0 .stmts (use "a")).1
    let b₀ := (Object.number 0 .stmts (use "b")).1
    same (Pass.rename.run b₀ (.new names)).1 b₀ = true ∧
      ∃ r log, Pipeline.run ⟨[.rename], names, 3⟩ p₀ = (.ok r, log) ∧
        r.converged = true ∧ r.iterations = 2 ∧ .unsettled 3 ∉ log := by
  intro names use p₀ b₀
  have hkept : ¬Pass.rename.Remakes names (use "b") := by
    have hoccurrences : (Node.mk .stmts (use "b")).occurrences = ["b"] := by decide +kernel
    rintro ⟨name, hname, hentry⟩
    rw [hoccurrences, List.mem_singleton] at hname
    subst hname
    exact absurd hentry (by decide)
  have hchanged : use "b" ≠ use "a" := fun h =>
    absurd (congrArg (fun p => (Node.mk .stmts p).occurrences) h) (by decide +kernel)
  constructor
  · exact ((run_shares .rename 0 (use "b")).1 (.new names) rfl).2 hkept
  · obtain ⟨r, log, hrun, hsettles, -⟩ := (run_shares .rename 0 (use "a")).2 names 3 1 rfl
      (by decide) rfl fun
        | 0, _ => hchanged
    obtain ⟨hconverged, hiterations, hlog⟩ := hsettles hkept
    exact ⟨r, log, hrun, hconverged, hiterations, hlog 3⟩

/-- A name that an entry maps to itself is made anew in each iteration, and nothing else changes. -/
theorem rename_remakes_self_entry :
    let names : Rename.Names := [("x", "x")]
    let p : Program Unit := ⟨(), [.node () (.expression ⟨(), .identifier "x"⟩)]⟩
    let p₀ := (Object.number 0 .stmts p).1
    let q := (Pass.rename.run p₀ (.new names)).1
    let run := Pipeline.run ⟨[.rename], names, 3⟩ p₀
    Object.bare .stmts q = p ∧ same q p₀ = false ∧
      (run.1.toOption.map fun r => (r.iterations, r.converged)) = some (3, false) ∧
      .unsettled 3 ∈ run.2 := by
  intro names p p₀ q run
  refine ⟨rfl, ?_, ?_, ?_⟩ <;> decide +kernel

end Pipeline

end ScriptTree
