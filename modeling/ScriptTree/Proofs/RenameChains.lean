import Mathlib.Data.ENat.Lattice
import Mathlib.Data.Fintype.Pigeonhole
import Mathlib.Order.CompletePartialOrder
import Mathlib.Tactic.Ring
import ScriptTree.Proofs.RenameCommutes
import ScriptTree.Proofs.Report
import ScriptTree.Proofs.Validation

namespace ScriptTree

open Node Rename

namespace Rename.Names

variable (names : Names)

/-- How often the table replaces a name until one without an entry is reached, and `⊤` where that
never happens. -/
noncomputable def chain (name : String) : ℕ∞ :=
  ⨅ (k : ℕ) (_ : names.isKey (names.apply^[k] name) = false), (k : ℕ∞)

/-- The table applied `k` times to each of its old names. -/
def iterate (k : ℕ) : Names :=
  names.map fun e => (e.1, names.apply^[k] e.1)

variable {names}

theorem iterate_apply_of_not_isKey {name : String} (h : names.isKey name = false) (k : ℕ) :
    names.apply^[k] name = name :=
  Function.iterate_fixed (apply_of_not_isKey h) k

theorem isKey_iterate_of_le {name : String} {j k : ℕ} (hjk : j ≤ k)
    (h : names.isKey (names.apply^[k] name) = true) :
    names.isKey (names.apply^[j] name) = true := by
  by_contra hj
  obtain ⟨d, rfl⟩ := Nat.exists_eq_add_of_le' hjk
  rw [Bool.not_eq_true] at hj
  rw [Function.iterate_add_apply, iterate_apply_of_not_isKey hj, hj] at h
  exact absurd h nofun

theorem lt_chain_iff {name : String} {k : ℕ} :
    k < names.chain name ↔ names.isKey (names.apply^[k] name) = true := by
  constructor
  · intro h
    by_contra hk
    rw [Bool.not_eq_true] at hk
    exact absurd h (not_lt_of_ge (iInf₂_le k hk))
  · intro h
    have hle : (k : ℕ∞) + 1 ≤ names.chain name := by
      refine le_iInf₂ fun j hj => ?_
      have hkj : k < j := by
        by_contra hjk
        exact absurd (isKey_iterate_of_le (not_lt.1 hjk) h) (by simp [hj])
      exact_mod_cast hkj
    exact ENat.natCast_add_one_le_iff.1 hle

theorem isKey_iff_mem {name : String} : names.isKey name = true ↔ name ∈ names.map Prod.fst := by
  rw [isKey, List.lookup_isSome_iff]
  simp

/-- A table has finitely many entries, so that a chain without end comes back to a name that it went
through. -/
theorem chain_eq_top_iff {name : String} : names.chain name = ⊤ ↔
    ∃ i d, 0 < d ∧ names.isKey (names.apply^[i] name) = true ∧
      names.apply^[d] (names.apply^[i] name) = names.apply^[i] name := by
  rw [ENat.eq_top_iff_forall_gt]
  simp only [lt_chain_iff]
  constructor
  · intro h
    let visited (k : ℕ) : {x // x ∈ names.map Prod.fst} := ⟨_, isKey_iff_mem.1 (h k)⟩
    obtain ⟨i, j, hne, heq⟩ := Finite.exists_ne_map_eq_of_infinite visited
    replace heq : names.apply^[i] name = names.apply^[j] name := congrArg Subtype.val heq
    wlog hij : i < j generalizing i j
    · exact this j i hne.symm heq.symm (by omega)
    · refine ⟨i, j - i, Nat.sub_pos_of_lt hij, h i, ?_⟩
      rw [← Function.iterate_add_apply, Nat.sub_add_cancel hij.le, heq]
  · rintro ⟨i, d, hd, hkey, hcycle⟩ k
    have hback : names.apply^[d * k] (names.apply^[i] name) = names.apply^[i] name := by
      rw [Function.iterate_mul]
      exact Function.iterate_fixed hcycle k
    have hle : k ≤ d * k + i := (Nat.le_mul_of_pos_left k hd).trans (Nat.le_add_right _ i)
    refine isKey_iterate_of_le hle ?_
    rwa [Function.iterate_add_apply, hback]

theorem min_chain_succ (name : String) (k : ℕ) :
    min (names.chain name) (k + 1 : ℕ) =
      min (names.chain name) k + if names.isKey (names.apply^[k] name) then 1 else 0 := by
  split
  · rename_i h
    have hlt := lt_chain_iff.2 h
    have hle : (k : ℕ∞) + 1 ≤ names.chain name := ENat.natCast_add_one_le_iff.2 hlt
    rw [min_eq_right hlt.le, Nat.cast_add_one, min_eq_right hle]
  · rename_i h
    have hle : names.chain name ≤ k := not_lt.1 (mt lt_chain_iff.1 h)
    have hle' : names.chain name ≤ (k + 1 : ℕ) := hle.trans (Nat.cast_le.2 (Nat.le_succ k))
    rw [min_eq_left hle, min_eq_left hle', add_zero]

theorem sum_min_chain_succ (ns : List String) (k : ℕ) :
    (ns.map fun x => min (names.chain x) (k + 1 : ℕ)).sum =
      (ns.map fun x => min (names.chain x) k).sum +
        (((ns.map names.apply^[k]).filter names.isKey).length : ℕ) := by
  induction ns with
  | nil => rfl
  | cons x ns ih =>
    rw [List.map_cons, List.sum_cons, List.map_cons, List.sum_cons, ih, min_chain_succ,
      List.map_cons, List.filter_cons]
    split <;> push_cast [List.length_cons] <;> ring

/-- The steps along the chains of the names, told by the names that each step replaces. -/
theorem sum_min_chain (ns : List String) (k : ℕ) :
    (ns.map fun x => min (names.chain x) k).sum =
      (((List.range k).map fun i =>
        ((ns.map names.apply^[i]).filter names.isKey).length).sum : ℕ) := by
  induction k with
  | zero => simp
  | succ k ih =>
    rw [sum_min_chain_succ, ih, List.range_succ, List.map_append, List.sum_append, Nat.cast_add]
    rfl

theorem lookup_map (f : String → String) (name : String) :
    List.lookup name (names.map fun e => (e.1, f e.1)) =
      (names.lookup name).map fun _ => f name := by
  induction names with
  | nil => rfl
  | cons e names ih =>
    rw [List.map_cons, List.lookup_cons, List.lookup_cons, ih]
    cases he : name == e.1 with
    | true =>
      rw [eq_of_beq he]
      rfl
    | false => rfl

theorem iterate_apply (k : ℕ) (name : String) :
    (names.iterate k).apply name = names.apply^[k] name := by
  rw [apply, iterate, lookup_map]
  cases h : names.lookup name with
  | some _ => rfl
  | none =>
    have hkey : names.isKey name = false := by
      rw [isKey, h]
      rfl
    exact (iterate_apply_of_not_isKey hkey k).symm

end Rename.Names

namespace Node

variable {ι : Type} {names : Names}

theorem substitute_of_apply_self {n : Node ι} (h : ∀ x ∈ n.names, names.apply x = x) :
    n.substitute names = n := by
  have hnone : n.substitute ([] : Names) = n := substitute_of_not_isKey fun _ _ => rfl
  calc
    n.substitute names = (n.substitute ([] : Names)).substitute names := by rw [hnone]
    _ = n := substitute_substitute h

theorem substitute_comp {before after composed : Names}
    (h : ∀ x, composed.apply x = after.apply (before.apply x)) (n : Node ι) :
    (n.substitute before).substitute after = n.substitute composed := by
  have hcomp : after.apply ∘ before.apply = composed.apply := funext fun x => (h x).symm
  obtain ⟨k, x⟩ := n
  cases k
  case expr =>
    obtain ⟨o, e⟩ := x
    cases e <;> simp only [substitute, ExprShape.rename, h, hcomp, List.map_map, Option.map_map]
  case stmt =>
    cases x with
    | block b => rfl
    | node o s =>
      cases s <;> simp only [substitute, StmtShape.rename, h, hcomp, List.map_map]
  case declaration | catchClause => simp only [substitute, h]
  all_goals rfl

end Node

namespace Rename

variable {names : Names}

theorem Substituted.refl {n : Node Unit} (h : ∀ x, names.apply x = x) : Substituted names n n := by
  induction n using Node.induction with
  | step n ih =>
    refine .intro (substitute_of_apply_self fun x _ => h x).symm ?_
    exact List.forall₂_same.2 ih

theorem Substituted.trans {before after composed : Names} {n m l : Node Unit}
    (h : ∀ x, composed.apply x = after.apply (before.apply x)) (hnm : Substituted before n m)
    (hml : Substituted after m l) : Substituted composed n l := by
  induction n using Node.induction generalizing m l with
  | step n ih =>
    refine .intro ?_ ?_
    · rw [hml.head, hnm.head, substitute_comp h]
    · refine forall₂_square hnm.parts (List.forall₂_same.2 fun _ _ => rfl) hml.parts ?_
      rintro c hc _ c' c'' hcc' rfl hcc''
      exact ih c hc hcc' hcc''

end Rename

namespace Pipeline

theorem natCast_le_of_forall_lt {n : ℕ} {bound : ℕ∞} (h : ∀ j < n, (j : ℕ∞) < bound) :
    n ≤ bound := by
  cases n with
  | zero => exact zero_le
  | succ n =>
    rw [Nat.cast_add_one]
    exact ENat.natCast_add_one_le_iff.2 (h n n.lt_succ_self)

/-- A loop that changes something for `length` rounds runs one more, if its limit lets it. -/
theorem Repeated.rounds_eq_min {limit rounds : ℕ} {settled : Bool} {length : ℕ∞}
    (h : Repeated (fun i => i < length) limit rounds settled) :
    rounds = min (limit : ℕ∞) (length + 1) ∧ (settled = true ↔ length < limit) := by
  obtain ⟨hchanges, hexhausted, hpos, hle⟩ := h
  cases settled with
  | false =>
    obtain rfl := hexhausted rfl
    have hlong : rounds ≤ length := natCast_le_of_forall_lt fun j hj => (hchanges j hj).2 (by simp)
    exact ⟨(min_eq_left (hlong.trans le_self_add)).symm, iff_of_false nofun (not_lt.2 hlong)⟩
  | true =>
    obtain ⟨n, rfl⟩ := Nat.exists_eq_add_of_le' (hpos rfl)
    have hlong : n ≤ length := natCast_le_of_forall_lt fun j hj =>
      (hchanges j (Nat.lt_succ_of_lt hj)).2 (by omega)
    have hshort : length ≤ n := not_lt.1 fun h =>
      (hchanges n n.lt_succ_self).1 h ⟨rfl, rfl⟩
    obtain rfl := le_antisymm hshort hlong
    refine ⟨?_, iff_of_true rfl (Nat.cast_lt.2 hle)⟩
    rw [← Nat.cast_add_one, min_eq_right (Nat.cast_le.2 hle)]

section Chains

variable {P : Pipeline} {p : Program Origin}

/-- After `k` iterations of renaming alone every name is where the table leads it in `k` steps. -/
theorem iterate_substituted (hP : P.passes = [.rename]) (hp : Separate ⟨.stmts, p⟩) (k : Nat) :
    Substituted (P.names.iterate k) (Node.bare ⟨.stmts, p⟩)
      (Node.bare ⟨.stmts, P.iteration^[k] p⟩) := by
  induction k with
  | zero => exact .refl fun x => Names.iterate_apply 0 x
  | succ k ih =>
    rw [Function.iterate_succ_apply', iteration, hP]
    refine .trans (fun x => ?_) ih (rename_substituted (iteration_separate hp k) ⟨0, #[]⟩)
    rw [Names.iterate_apply, Names.iterate_apply, Function.iterate_succ_apply']
    rfl

theorem gain_iterate (hP : P.passes = [.rename]) (hp : Separate ⟨.stmts, p⟩) (k : Nat) :
    Pass.gain P.names (P.iteration^[k] p) .rename =
      (((Node.bare ⟨.stmts, p⟩).occurrences.map P.names.apply^[k]).filter
        P.names.isKey).length := by
  have happly : (P.names.iterate k).apply = P.names.apply^[k] := funext (Names.iterate_apply k)
  rw [Pass.gain_rename, (iterate_substituted hP hp k).occurrences_eq, happly]

/-- A pipeline that only renames follows the chains of its table, at most `maxIterations` steps of
each, and settles in the iteration after the last step of the longest. -/
theorem run_rename_chains (names : Names) (limit start : Nat) (p : Program Unit) :
    let P : Pipeline := ⟨[.rename], names, limit⟩
    let occurrences := (Node.mk .stmts p).occurrences
    let longest : ℕ∞ := ⨆ n ∈ occurrences, names.chain n
    ∃ r log, P.run (Object.number start .stmts p).1 = (.ok r, log) ∧
      r.iterations = min (limit : ℕ∞) (longest + 1) ∧
      (r.converged = true ↔ longest < limit) ∧
      r.renamed = (occurrences.map fun n => min (names.chain n) limit).sum ∧
      (∀ y, Substituted (names.iterate limit) ⟨.stmts, p⟩ ⟨.stmts, y⟩ ↔
        y = Object.bare .stmts r.program) ∧
      (∀ n, (names.iterate limit).apply n = names.apply^[limit] n) ∧
      ∀ n, names.chain n = ⊤ ↔ ∃ i d, 0 < d ∧ names.isKey (names.apply^[i] n) = true ∧
        names.apply^[d] (names.apply^[i] n) = names.apply^[i] n := by
  intro P occurrences longest
  generalize hp₀ : (Object.number start .stmts p).1 = p₀
  have hp : Separate ⟨.stmts, p₀⟩ := hp₀ ▸ number_separate start .stmts p
  have hbare : Node.bare ⟨.stmts, p₀⟩ = ⟨.stmts, p⟩ := hp₀ ▸ bare_number_object start .stmts p
  have hsafe : Safe names P.passes fun _ => True := safe_of_not_mem names (by simp [P])
  obtain ⟨hfirst, -⟩ := hsafe.foldlM_step (p := p₀) trivial
  obtain ⟨r, hr⟩ := run_of_safe hfirst hsafe trivial
  have hrun : P.run p₀ = (.ok r, (P.run p₀).2) := Prod.ext hr rfl
  obtain ⟨hrepeated, hprogram, hcount⟩ := @run_single P .rename _ _ _ rfl hp hrun
  have hgain (j : ℕ) : Pass.gain names (P.iteration^[j] p₀) .rename =
      ((occurrences.map names.apply^[j]).filter names.isKey).length := by
    have h := gain_iterate (P := P) rfl hp j
    rwa [hbare] at h
  have hlongest : (fun j => 0 < Pass.gain names (P.iteration^[j] p₀) .rename) =
      fun j : ℕ => j < longest := by
    funext j
    simp [hgain, longest, lt_iSup_iff, Names.lt_chain_iff, List.length_pos_iff]
  rw [hlongest] at hrepeated
  obtain ⟨hiterations, hconverged⟩ := hrepeated.rounds_eq_min
  refine ⟨r, _, hrun, hiterations, hconverged, ?_, fun y => ?_,
    Names.iterate_apply limit, fun _ => Names.chain_eq_top_iff⟩
  · have hrenamed : r.renamed =
        (occurrences.map fun n => min (names.chain n) r.iterations).sum := by
      rw [Names.sum_min_chain, ← List.map_congr_left fun j _ => hgain j]
      exact congrArg Nat.cast hcount
    rw [hrenamed, hiterations]
    refine congrArg List.sum (List.map_congr_left fun n hn => ?_)
    have hn : names.chain n ≤ longest + 1 :=
      (le_iSup₂ (f := fun n _ => names.chain n) n hn).trans le_self_add
    rw [← min_assoc, min_eq_left (min_le_of_left_le hn)]
  · have hsubstituted := iterate_substituted (P := P) rfl hp limit
    rw [hbare, ← hprogram] at hsubstituted
    constructor
    · intro hy
      exact eq_of_heq (Node.mk.inj (hy.unique hsubstituted)).2
    · rintro rfl
      exact hsubstituted

/-- Two steps of one chain and three, as many as there are iterations, of a name that stays. -/
example : ((run ⟨[.rename], [("a", "b"), ("b", "c"), ("x", "x")], 3⟩
    (Object.number 0 .stmts ⟨(), [.node () (.expression ⟨(), .identifier "a"⟩),
      .node () (.expression ⟨(), .identifier "x"⟩)]⟩).1).1.toOption.map
        fun r => (r.iterations, r.converged, r.renamed)) = some (3, false, 5) := by
  decide +kernel

end Chains

end Pipeline

end ScriptTree
