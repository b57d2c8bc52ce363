import ScriptTree.Proofs.Template

namespace ScriptTree.Template

/-- The characters that a token is written by. -/
inductive Token.Writes : Token → List Char → Prop
  | char {c} : c ≠ '{' → c ≠ '}' → Writes (.char c) [c]
  | brace {c} : c = '{' ∨ c = '}' → Writes (.char c) [c, c]
  | argument {ds} : ds ≠ [] → (∀ d ∈ ds, d.isDigit) → value ds < indexBound →
      Writes (.argument (value ds)) ('{' :: (ds ++ ['}']))

theorem Token.Writes.ne_nil {t : Token} {w : List Char} (h : t.Writes w) : w ≠ [] := by
  cases h <;> nofun

/-- The characters are those of the tokens, one token after another. -/
inductive Written : List Token → List Char → Prop
  | nil : Written [] []
  | cons {t w ts cs} : t.Writes w → Written ts cs → Written (t :: ts) (w ++ cs)

/-- The length of characters in bytes. -/
def byteSize (cs : List Char) : Nat := (String.ofList cs).utf8ByteSize

theorem byteSize_append (cs ds : List Char) : byteSize (cs ++ ds) = byteSize cs + byteSize ds := by
  rw [byteSize, String.ofList_append, String.utf8ByteSize_append]
  rfl

theorem byteSize_eq_zero {cs : List Char} (h : byteSize cs = 0) : cs = [] := by
  have hs : String.ofList cs = "" := String.utf8ByteSize_eq_zero_iff.1 h
  simpa using congrArg String.toList hs

theorem byteSize_singleton (c : Char) : byteSize [c] = c.utf8Size :=
  String.utf8ByteSize_singleton

theorem byteSize_digits {ds : List Char} (h : ∀ d ∈ ds, d.isDigit) : byteSize ds = ds.length := by
  induction ds with
  | nil => rfl
  | cons d ds ih =>
    obtain ⟨hd, hds⟩ := List.forall_mem_cons.1 h
    have hsize : d.utf8Size = 1 := by
      rw [Char.utf8Size_eq_one_iff, UInt32.le_iff_toNat_le]
      exact Nat.le_trans (Char.isDigit_iff_toNat.1 hd).2 (by decide)
    rw [List.length_cons, ← List.singleton_append, byteSize_append, ih hds, byteSize_singleton,
      hsize, Nat.add_comm]

theorem tokens_char {c : Char} (hopen : c ≠ '{') (hclose : c ≠ '}') (pos : Nat)
    (rest : List Char) :
    tokens pos (c :: rest) = (.char c :: ·) <$> tokens (pos + c.utf8Size) rest := by
  rw [tokens.eq_def]
  split <;> simp_all

theorem tokens_closing {cs : List Char} (h : cs.head? ≠ some '}') (pos : Nat) :
    tokens pos ('}' :: cs) = .error pos := by
  cases cs with
  | nil => simp [tokens]
  | cons c cs =>
    have hc : c ≠ '}' := by simpa using h
    simp [tokens, hc]

theorem tokens_writes {t : Token} {w : List Char} (h : t.Writes w) (pos : Nat)
    (rest : List Char) :
    tokens pos (w ++ rest) = (t :: ·) <$> tokens (pos + byteSize w) rest := by
  cases h with
  | char hopen hclose =>
    rw [List.singleton_append, tokens_char hopen hclose, byteSize_singleton]
  | brace hc =>
    obtain rfl | rfl := hc <;> exact tokens.eq_def _ _
  | @argument ds hne hds hbound =>
    have hhead : (ds ++ '}' :: rest).head? ≠ some '{' := by
      obtain ⟨d, ds, rfl⟩ := List.exists_cons_of_ne_nil hne
      have hd := (ne_brace_of_isDigit (hds d List.mem_cons_self)).1
      simpa using hd
    have hsize : byteSize ('{' :: (ds ++ ['}'])) = 1 + ds.length + 1 := by
      rw [← List.singleton_append, byteSize_append, byteSize_append, byteSize_digits hds,
        ← Nat.add_assoc]
      rfl
    rw [List.cons_append, List.append_assoc, List.singleton_append, tokens_brace hhead,
      placeholder_append hds, foldl_digit_none hne, placeholder_brace, hsize]
    simp only [if_pos hbound, Nat.add_assoc]

/-- What follows an opening brace is digits and the closing brace, or is refused. -/
theorem placeholder_cases (cs : List Char) :
    (∃ ds rest, ds ≠ [] ∧ (∀ d ∈ ds, d.isDigit) ∧ value ds < indexBound ∧
        cs = ds ++ '}' :: rest) ∨
      ∀ start pos, placeholder start none pos cs = .error start := by
  have hdigits : ∀ d ∈ cs.takeWhile Char.isDigit, d.isDigit := fun d hd => List.mem_takeWhile_imp hd
  have hsplit := List.takeWhile_append_dropWhile (p := Char.isDigit) (l := cs)
  have hhead := List.head?_dropWhile_not Char.isDigit cs
  generalize cs.takeWhile Char.isDigit = ds at hdigits hsplit
  rcases hrest : cs.dropWhile Char.isDigit with _ | ⟨c, rest⟩ <;> rw [hrest] at hsplit hhead <;>
    subst hsplit
  · refine .inr fun start pos => ?_
    rw [placeholder_append hdigits, placeholder]
  · by_cases hc : c = '}'
    · subst hc
      by_cases hne : ds = []
      · subst hne
        exact .inr fun start pos => placeholder_brace start pos none rest
      · by_cases hbound : value ds < indexBound
        · exact .inl ⟨ds, rest, hne, hdigits, hbound, rfl⟩
        · refine .inr fun start pos => ?_
          rw [placeholder_append hdigits, foldl_digit_none hne, placeholder_brace]
          exact if_neg hbound
    · refine .inr fun start pos => ?_
      rw [placeholder_append hdigits, placeholder_other hc hhead]

/-- Characters begin with what writes a token, or with a brace that begins none. -/
theorem token_cases (cs : List Char) :
    cs = [] ∨ (∃ (t : Token) (w rest : List Char), t.Writes w ∧ cs = w ++ rest) ∨
      ∃ c rest, (c = '{' ∨ c = '}') ∧ cs = c :: rest ∧ ∀ pos, tokens pos cs = .error pos := by
  rcases cs with _ | ⟨c, cs⟩
  · exact .inl rfl
  refine .inr ?_
  by_cases hopen : c = '{'
  · subst hopen
    by_cases hhead : cs.head? = some '{'
    · obtain ⟨rest, rfl⟩ := List.head?_eq_some_iff.1 hhead
      exact .inl ⟨_, _, rest, .brace (.inl rfl), rfl⟩
    · obtain ⟨ds, rest, hne, hds, hbound, rfl⟩ | herror := placeholder_cases cs
      · exact .inl ⟨_, _, rest, .argument hne hds hbound, by simp⟩
      · refine .inr ⟨_, cs, .inl rfl, rfl, fun pos => ?_⟩
        rw [tokens_brace hhead, herror]
  · by_cases hclose : c = '}'
    · subst hclose
      by_cases hhead : cs.head? = some '}'
      · obtain ⟨rest, rfl⟩ := List.head?_eq_some_iff.1 hhead
        exact .inl ⟨_, _, rest, .brace (.inr rfl), rfl⟩
      · exact .inr ⟨_, cs, .inr rfl, rfl, tokens_closing hhead⟩
    · exact .inl ⟨_, _, cs, .char hopen hclose, rfl⟩

/-- What tokens write is read as these, and the rest after them. -/
theorem tokens_written {ts : List Token} {w : List Char} (h : Written ts w) (pos : Nat)
    (rest : List Char) :
    tokens pos (w ++ rest) = (ts ++ ·) <$> tokens (pos + byteSize w) rest := by
  induction h generalizing pos with
  | nil =>
    change tokens pos rest = (fun ts => ts) <$> tokens pos rest
    cases tokens pos rest <;> rfl
  | cons ht _ ih =>
    rw [List.append_assoc, tokens_writes ht, ih, byteSize_append, Nat.add_assoc]
    generalize tokens _ rest = r
    cases r <;> rfl

/-- Tokens write all the characters, or those before a brace that begins none. -/
theorem written_cases (cs : List Char) :
    (∃ ts, Written ts cs) ∨
      ∃ ts before c rest, Written ts before ∧ (c = '{' ∨ c = '}') ∧ cs = before ++ c :: rest ∧
        ∀ pos, tokens pos (c :: rest) = .error pos := by
  obtain rfl | ⟨t, w, rest, hw, rfl⟩ | ⟨c, rest, hc, rfl, herror⟩ := token_cases cs
  · exact .inl ⟨[], .nil⟩
  · have hshorter : rest.length < (w ++ rest).length := by
      have hpos := List.length_pos_iff.2 hw.ne_nil
      rw [List.length_append]
      omega
    obtain ⟨ts, hts⟩ | ⟨ts, before, c, after, hts, hc, rfl, herror⟩ := written_cases rest
    · exact .inl ⟨t :: ts, .cons hw hts⟩
    · exact .inr ⟨t :: ts, w ++ before, c, after, .cons hw hts, hc, by simp, herror⟩
  · exact .inr ⟨[], [], c, rest, .nil, hc, rfl, herror⟩
termination_by cs.length

theorem tokens_of_written {ts : List Token} {cs : List Char} (h : Written ts cs) (pos : Nat) :
    tokens pos cs = .ok ts := by
  have hall := tokens_written h pos []
  rw [List.append_nil, tokens] at hall
  exact hall.trans (congrArg Except.ok (List.append_nil ts))

/-- Where no token begins reading is given up, what was read before being written by tokens. -/
theorem tokens_of_stuck {ts : List Token} {before stuck : List Char} (h : Written ts before)
    (herror : ∀ pos, tokens pos stuck = .error pos) (pos : Nat) :
    tokens pos (before ++ stuck) = .error (pos + byteSize before) := by
  rw [tokens_written h, herror]
  rfl

theorem tokens_eq_ok_iff {pos : Nat} {cs : List Char} {ts : List Token} :
    tokens pos cs = .ok ts ↔ Written ts cs := by
  refine ⟨fun h => ?_, fun h => tokens_of_written h pos⟩
  obtain ⟨us, hus⟩ | ⟨us, before, c, rest, hus, -, rfl, herror⟩ := written_cases cs
  · rw [tokens_of_written hus] at h
    obtain rfl := Except.ok.inj h
    exact hus
  · rw [tokens_of_stuck hus herror] at h
    exact absurd h nofun

theorem le_of_tokens_eq_error {pos offset : Nat} {cs : List Char}
    (h : tokens pos cs = .error offset) : pos ≤ offset := by
  obtain ⟨us, hus⟩ | ⟨us, before, c, rest, hus, -, rfl, herror⟩ := written_cases cs
  · rw [tokens_of_written hus] at h
    exact absurd h nofun
  · rw [tokens_of_stuck hus herror] at h
    obtain rfl := Except.error.inj h
    exact Nat.le_add_right pos _

/-- No beginning that tokens write reaches beyond the brace that begins none. -/
theorem Written.prefix_of_stuck {ts us : List Token} {w before stuck : List Char}
    (hw : Written us w) (h : Written ts before) (herror : ∀ pos, tokens pos stuck = .error pos)
    (hmost : w <+: before ++ stuck) : w <+: before := by
  obtain ⟨rest, hrest⟩ := hmost
  have hread := tokens_of_stuck h herror 0
  rw [← hrest, tokens_written hw] at hread
  have hle : 0 + byteSize w ≤ 0 + byteSize before := by
    cases hr : tokens (0 + byteSize w) rest with
    | ok vs =>
      rw [hr] at hread
      exact absurd hread nofun
    | error offset =>
      rw [hr] at hread
      obtain rfl := Except.error.inj hread
      exact le_of_tokens_eq_error hr
  obtain hshort | ⟨more, rfl⟩ := List.prefix_or_prefix_of_prefix ⟨rest, hrest⟩
    (List.prefix_append before stuck)
  · exact hshort
  · rw [byteSize_append] at hle
    obtain rfl : more = [] := byteSize_eq_zero (by omega)
    simp

theorem parse_eq_ok_iff {format : String} {segments : List Segment} :
    parse format = .ok segments ↔ ∃ ts, Written ts format.toList ∧ join [] ts = segments := by
  unfold parse
  constructor
  · intro h
    split at h
    · exact ⟨_, tokens_eq_ok_iff.1 ‹_›, Except.ok.inj h⟩
    · exact absurd h nofun
  · rintro ⟨ts, hts, rfl⟩
    rw [tokens_of_written hts]

theorem parse_isOk_iff {format : String} :
    (∃ segments, parse format = .ok segments) ↔ ∃ ts, Written ts format.toList := by
  constructor
  · rintro ⟨segments, h⟩
    obtain ⟨ts, hts, -⟩ := parse_eq_ok_iff.1 h
    exact ⟨ts, hts⟩
  · rintro ⟨ts, hts⟩
    exact ⟨_, parse_eq_ok_iff.2 ⟨ts, hts, rfl⟩⟩

/-- A format is parsed exactly when tokens write it. An error names the format and the number of
bytes in the longest beginning that would be parsed, which a brace follows. -/
theorem parse_accepts_longest (format : String) :
    ((∃ segments, parse format = .ok segments) ↔ ∃ ts, Written ts format.toList) ∧
      ∀ e, parse format = .error e → ∃ before rest : String, ∃ c,
        e = .malformedTemplate format before.utf8ByteSize ∧
        format.toList = before.toList ++ c :: rest.toList ∧ (c = '{' ∨ c = '}') ∧
        (∃ segments, parse before = .ok segments) ∧
        ∀ w : String, w.toList <+: format.toList → (∃ segments, parse w = .ok segments) →
          w.toList <+: before.toList := by
  refine ⟨parse_isOk_iff, fun e he => ?_⟩
  obtain ⟨ts, hts⟩ | ⟨ts, before, c, rest, hts, hc, hformat, herror⟩ := written_cases format.toList
  · rw [parse_eq_ok_iff.2 ⟨ts, hts, rfl⟩] at he
    exact absurd he nofun
  · have hread : tokens 0 format.toList = .error (byteSize before) := by
      rw [hformat, tokens_of_stuck hts herror, Nat.zero_add]
    refine ⟨.ofList before, .ofList rest, c, ?_, ?_, hc, ?_, fun w hw hparse => ?_⟩
    · rw [parse, hread] at he
      exact (Except.error.inj he).symm
    · simpa using hformat
    · rw [parse_isOk_iff, String.toList_ofList]
      exact ⟨ts, hts⟩
    · obtain ⟨us, hus⟩ := parse_isOk_iff.1 hparse
      rw [hformat] at hw
      rw [String.toList_ofList]
      exact hus.prefix_of_stuck hts herror hw

/-- The brace that begins no token stands after five bytes, two of them those of one letter. -/
theorem parse_accepts_longest_accent :
    let format := "é\x7b0\x7d\x7bx"
    parse format = .error (.malformedTemplate format 5) ∧ (¬∃ ts, Written ts format.toList) ∧
      ∃ before : String, before.utf8ByteSize = 5 ∧ (∃ segments, parse before = .ok segments) ∧
        ∀ w : String, w.toList <+: format.toList → (∃ segments, parse w = .ok segments) →
          w.toList <+: before.toList := by
  intro format
  have herror : parse format = .error (.malformedTemplate format 5) := by decide +kernel
  obtain ⟨haccepts, hlongest⟩ := parse_accepts_longest format
  obtain ⟨before, rest, c, hsize, -, -, hbefore, hmost⟩ := hlongest _ herror
  refine ⟨herror, ?_, before, ?_, hbefore, hmost⟩
  · rw [← haccepts, herror]
    nofun
  · exact (Error.malformedTemplate.inj hsize).2.symm

end ScriptTree.Template
