import Mathlib.Data.List.TakeWhile
import ScriptTree.Template

namespace ScriptTree.Template

/-- The index that the digits read so far make with another one. -/
def digit (index : Option Nat) (d : Char) : Option Nat :=
  some (10 * index.getD 0 + (d.toNat - 48))

/-- The number that digits write, the highest first. -/
def value (ds : List Char) : Nat := ds.foldl (fun n d => 10 * n + (d.toNat - 48)) 0

/-- The format is the placeholder of the index and nothing else. -/
def Lone (format : String) (index : Nat) : Prop :=
  ∃ ds, ds ≠ [] ∧ (∀ d ∈ ds, d.isDigit) ∧ format.toList = '{' :: (ds ++ ['}']) ∧ value ds = index

theorem foldl_digit_some (ds : List Char) (n : Nat) :
    ds.foldl digit (some n) = some (ds.foldl (fun n d => 10 * n + (d.toNat - 48)) n) := by
  induction ds generalizing n with
  | nil => rfl
  | cons d ds ih => exact ih _

theorem foldl_digit_none {ds : List Char} (h : ds ≠ []) :
    ds.foldl digit none = some (value ds) := by
  obtain ⟨d, ds, rfl⟩ := List.exists_cons_of_ne_nil h
  exact foldl_digit_some ds _

theorem ne_brace_of_isDigit {d : Char} (h : d.isDigit) : d ≠ '{' ∧ d ≠ '}' := by
  constructor <;> (rintro rfl; revert h; decide)

theorem placeholder_append {ds : List Char} (h : ∀ d ∈ ds, d.isDigit) (start : Nat)
    (index : Option Nat) (pos : Nat) (rest : List Char) :
    placeholder start index pos (ds ++ rest) =
      placeholder start (ds.foldl digit index) (pos + ds.length) rest := by
  induction ds generalizing index pos with
  | nil => rfl
  | cons d ds ih =>
    obtain ⟨hd, hds⟩ := List.forall_mem_cons.1 h
    have hstep : placeholder start index pos (d :: (ds ++ rest)) =
        placeholder start (digit index d) (pos + 1) (ds ++ rest) := by
      rw [placeholder.eq_def]
      split
      · contradiction
      · rename_i heq
        obtain rfl := (List.cons.inj heq).1
        exact absurd rfl (ne_brace_of_isDigit hd).2
      · rename_i heq
        obtain ⟨rfl, rfl⟩ := List.cons.inj heq
        rw [if_pos hd]
        rfl
    rw [List.cons_append, hstep, ih hds, List.foldl_cons, List.length_cons, Nat.add_assoc,
      Nat.add_comm 1]

theorem placeholder_brace (start pos : Nat) (index : Option Nat) (rest : List Char) :
    placeholder start index pos ('}' :: rest) =
      match index with
      | some i =>
        if i < indexBound then (.argument i :: ·) <$> tokens (pos + 1) rest else .error start
      | none => .error start := by
  rw [placeholder.eq_def]
  rfl

theorem placeholder_other {c : Char} (hbrace : c ≠ '}') (hdigit : c.isDigit = false)
    (start pos : Nat) (index : Option Nat) (rest : List Char) :
    placeholder start index pos (c :: rest) = .error start := by
  rw [placeholder.eq_def]
  split
  · contradiction
  · rename_i heq
    exact absurd (List.cons.inj heq).1 hbrace
  · rename_i heq
    obtain ⟨rfl, rfl⟩ := List.cons.inj heq
    rw [if_neg (by simp [hdigit])]

theorem map_eq_ok {ε α β : Type} {f : α → β} {x : Except ε α} {b : β} (h : f <$> x = .ok b) :
    ∃ a, x = .ok a ∧ f a = b := by
  cases x with
  | error e => exact absurd h nofun
  | ok a => exact ⟨a, rfl, Except.ok.inj h⟩

/-- What a placeholder that is read consists of. -/
theorem placeholder_ok {start pos : Nat} {index : Option Nat} {cs : List Char} {ts : List Token}
    (h : placeholder start index pos cs = .ok ts) :
    ∃ ds rest i us, cs = ds ++ '}' :: rest ∧ (∀ d ∈ ds, d.isDigit) ∧
      ds.foldl digit index = some i ∧ i < indexBound ∧
      tokens (pos + ds.length + 1) rest = .ok us ∧ ts = .argument i :: us := by
  have hdigits : ∀ d ∈ cs.takeWhile Char.isDigit, d.isDigit := fun d hd => List.mem_takeWhile_imp hd
  have hsplit := List.takeWhile_append_dropWhile (p := Char.isDigit) (l := cs)
  have hhead := List.head?_dropWhile_not Char.isDigit cs
  rw [← hsplit, placeholder_append hdigits] at h
  -- the first character that is no digit has to be the closing brace
  rcases hrest : cs.dropWhile Char.isDigit with _ | ⟨c, rest⟩
  · rw [hrest, placeholder] at h
    exact absurd h nofun
  · rw [hrest] at h hhead hsplit
    by_cases hc : c = '}'
    · subst hc
      rw [placeholder_brace] at h
      split at h
      · rename_i i hi
        split at h
        · obtain ⟨us, hus, hts⟩ := map_eq_ok h
          exact ⟨_, rest, i, us, hsplit.symm, hdigits, hi, ‹_›, hus, hts.symm⟩
        · exact absurd h nofun
      · exact absurd h nofun
    · rw [placeholder_other hc hhead] at h
      exact absurd h nofun

theorem tokens_eq_nil {pos : Nat} {cs : List Char} (h : tokens pos cs = .ok []) : cs = [] := by
  rw [tokens.eq_def] at h
  split at h
  · rfl
  · obtain ⟨_, -, h⟩ := map_eq_ok h
    exact absurd h nofun
  · obtain ⟨_, -, h⟩ := map_eq_ok h
    exact absurd h nofun
  · obtain ⟨_, _, _, _, -, -, -, -, -, h⟩ := placeholder_ok h
    exact absurd h nofun
  · exact absurd h nofun
  · obtain ⟨_, -, h⟩ := map_eq_ok h
    exact absurd h nofun

theorem tokens_eq_argument {pos i : Nat} {cs : List Char} (h : tokens pos cs = .ok [.argument i]) :
    i < indexBound ∧ ∃ ds, ds ≠ [] ∧ (∀ d ∈ ds, d.isDigit) ∧ cs = '{' :: (ds ++ ['}']) ∧
      value ds = i := by
  rw [tokens.eq_def] at h
  split at h
  · exact absurd h nofun
  · obtain ⟨_, -, h⟩ := map_eq_ok h
    exact absurd h nofun
  · obtain ⟨_, -, h⟩ := map_eq_ok h
    exact absurd h nofun
  · obtain ⟨ds, rest, j, us, rfl, hds, hj, hbound, hus, hts⟩ := placeholder_ok h
    obtain ⟨hij, rfl⟩ := List.cons.inj hts
    obtain rfl := Token.argument.inj hij
    obtain rfl := tokens_eq_nil hus
    have hne : ds ≠ [] := by
      rintro rfl
      exact absurd hj nofun
    rw [foldl_digit_none hne] at hj
    exact ⟨hbound, ds, hne, hds, rfl, Option.some.inj hj⟩
  · exact absurd h nofun
  · obtain ⟨_, -, h⟩ := map_eq_ok h
    exact absurd h nofun

theorem tokens_brace {cs : List Char} (h : cs.head? ≠ some '{') (pos : Nat) :
    tokens pos ('{' :: cs) = placeholder pos none (pos + 1) cs := by
  cases cs with
  | nil => simp [tokens]
  | cons c cs =>
    have hc : c ≠ '{' := by simpa using h
    simp [tokens, hc]

theorem tokens_lone {ds : List Char} (hne : ds ≠ []) (hds : ∀ d ∈ ds, d.isDigit)
    (hbound : value ds < indexBound) (pos : Nat) :
    tokens pos ('{' :: (ds ++ ['}'])) = .ok [.argument (value ds)] := by
  have hhead : (ds ++ ['}']).head? ≠ some '{' := by
    obtain ⟨d, ds, rfl⟩ := List.exists_cons_of_ne_nil hne
    have hd := (ne_brace_of_isDigit (hds d List.mem_cons_self)).1
    simpa using hd
  rw [tokens_brace hhead, placeholder_append hds, foldl_digit_none hne, placeholder_brace]
  simp only [if_pos hbound]
  rw [tokens]
  rfl

theorem flush_eq_nil {run : List Char} {rest : List Segment} (h : flush run rest = []) :
    rest = [] := by
  unfold flush at h
  split at h
  · exact h
  · exact absurd h nofun

theorem flush_eq_argument {run : List Char} {rest : List Segment} {i : Nat}
    (h : flush run rest = [.argument i]) : run = [] ∧ rest = [.argument i] := by
  unfold flush at h
  split at h
  · exact ⟨List.isEmpty_iff.1 ‹_›, h⟩
  · exact absurd (List.cons.inj h).1 nofun

theorem join_eq_nil {run : List Char} {ts : List Token} (h : join run ts = []) :
    run = [] ∧ ts = [] := by
  induction ts generalizing run with
  | nil =>
    cases run with
    | nil => exact ⟨rfl, rfl⟩
    | cons c run => exact absurd h nofun
  | cons t ts ih =>
    cases t with
    | char c => exact absurd (ih h).1 nofun
    | argument j => exact absurd (flush_eq_nil h) nofun

theorem join_eq_argument {run : List Char} {ts : List Token} {i : Nat}
    (h : join run ts = [.argument i]) : run = [] ∧ ts = [.argument i] := by
  induction ts generalizing run with
  | nil =>
    obtain ⟨-, h⟩ := flush_eq_argument h
    exact absurd h nofun
  | cons t ts ih =>
    cases t with
    | char c => exact absurd (ih h).1 nofun
    | argument j =>
      obtain ⟨hrun, h⟩ := flush_eq_argument h
      obtain ⟨hj, hrest⟩ := List.cons.inj h
      obtain rfl := Segment.argument.inj hj
      obtain ⟨-, rfl⟩ := join_eq_nil hrest
      exact ⟨hrun, rfl⟩

/-- The formats of one placeholder are those that write it; indices are words. -/
theorem parse_eq_argument_iff {format : String} {i : Nat} :
    parse format = .ok [.argument i] ↔ Lone format i ∧ i < indexBound := by
  unfold parse
  constructor
  · intro h
    split at h
    · rename_i ts hts
      obtain ⟨-, rfl⟩ := join_eq_argument (Except.ok.inj h)
      obtain ⟨hbound, hlone⟩ := tokens_eq_argument hts
      exact ⟨hlone, hbound⟩
    · exact absurd h nofun
  · rintro ⟨⟨ds, hne, hds, hformat, rfl⟩, hbound⟩
    rw [hformat, tokens_lone hne hds hbound]
    rfl

theorem parse_eq_error {format : String} {e : Error} (h : parse format = .error e) :
    ∃ offset, e = .malformedTemplate format offset := by
  unfold parse at h
  split at h
  · exact absurd h nofun
  · exact ⟨_, (Except.error.inj h).symm⟩

end ScriptTree.Template
