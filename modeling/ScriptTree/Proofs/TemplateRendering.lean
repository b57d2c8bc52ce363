import Mathlib.Data.List.Chain
import Mathlib.Data.List.Forall2
import ScriptTree.Proofs.TemplateGrammar

namespace ScriptTree.Template

/-- A brace is written twice. -/
def escape (c : Char) : List Char := if c = '{' ∨ c = '}' then [c, c] else [c]

def Segment.render : Segment → List Char
  | .text content => content.toList.flatMap escape
  | .argument i => '{' :: (Nat.toDigits 10 i ++ ['}'])

/-- The format of segments, the indices being written in decimal. -/
def render (segments : List Segment) : String := String.ofList (segments.flatMap Segment.render)

def Segment.isText : Segment → Bool
  | .text _ => true
  | .argument _ => false

/-- No text is empty or stands next to another one, and indices are words. -/
structure Canonical (segments : List Segment) : Prop where
  nonempty : ∀ content, .text content ∈ segments → content ≠ ""
  apart : segments.IsChain fun a b => ¬(a.isText ∧ b.isText)
  bounded : ∀ i, .argument i ∈ segments → i < indexBound

/-- The characters are those that a segment renders to, but that a placeholder may have leading
zeros. -/
inductive Segment.Pads : Segment → List Char → Prop
  | text (content) : Pads (.text content) (Segment.render (.text content))
  | argument (i zeros) :
      Pads (.argument i) ('{' :: (List.replicate zeros '0' ++ Nat.toDigits 10 i ++ ['}']))

/-- The format renders the segments, but for leading zeros of placeholders. -/
def Padded (segments : List Segment) (format : String) : Prop :=
  ∃ pieces, List.Forall₂ Segment.Pads segments pieces ∧ format.toList = pieces.flatten

def Segment.tokens : Segment → List Token
  | .text content => content.toList.map .char
  | .argument i => [.argument i]

theorem flatMap_tokens_flush (run : List Char) (rest : List Segment) :
    (flush run rest).flatMap Segment.tokens =
      run.reverse.map Token.char ++ rest.flatMap Segment.tokens := by
  unfold flush
  split
  · obtain rfl := List.isEmpty_iff.1 ‹_›
    rfl
  · rw [List.flatMap_cons, Segment.tokens, String.toList_ofList]

/-- Joining tokens loses none of them. -/
theorem flatMap_tokens_join (run : List Char) (ts : List Token) :
    (join run ts).flatMap Segment.tokens = run.reverse.map Token.char ++ ts := by
  induction ts generalizing run with
  | nil => exact flatMap_tokens_flush run []
  | cons t ts ih =>
    cases t with
    | char c => rw [join, ih, List.reverse_cons, List.map_append, List.append_assoc]; rfl
    | argument i => rw [join, flatMap_tokens_flush, List.flatMap_cons, ih]; rfl

theorem join_chars (run cs : List Char) (ts : List Token) :
    join run (cs.map .char ++ ts) = join (cs.reverse ++ run) ts := by
  induction cs generalizing run with
  | nil => rfl
  | cons c cs ih => rw [List.map_cons, List.cons_append, join, ih]; simp

theorem flush_nonempty {run : List Char} {rest : List Segment}
    (h : ∀ content, .text content ∈ rest → content ≠ "") :
    ∀ content, .text content ∈ flush run rest → content ≠ "" := by
  intro content hcontent
  unfold flush at hcontent
  split at hcontent
  · exact h content hcontent
  · rename_i hrun
    obtain heq | hmem := List.mem_cons.1 hcontent
    · obtain rfl := Segment.text.inj heq
      simpa using hrun
    · exact h content hmem

theorem join_nonempty (run : List Char) (ts : List Token) :
    ∀ content, .text content ∈ join run ts → content ≠ "" := by
  induction ts generalizing run with
  | nil => exact flush_nonempty nofun
  | cons t ts ih =>
    cases t with
    | char c => exact ih _
    | argument i => exact flush_nonempty fun content h => ih [] content (by simpa using h)

/-- A run is only ended by a placeholder or the end. -/
theorem join_apart (run : List Char) (ts : List Token) :
    (join run ts).IsChain fun a b => ¬(a.isText ∧ b.isText) := by
  induction ts generalizing run with
  | nil =>
    rw [join, flush]
    split <;> simp
  | cons t ts ih =>
    cases t with
    | char c => exact ih _
    | argument i =>
      have hrest :
          (Segment.argument i :: join [] ts).IsChain fun a b => ¬(a.isText ∧ b.isText) := by
        rw [List.isChain_cons]
        exact ⟨fun _ _ => by simp [Segment.isText], ih []⟩
      rw [join, flush]
      split
      · exact hrest
      · exact List.isChain_cons_cons.2 ⟨by simp [Segment.isText], hrest⟩

theorem flush_text {content : String} (h : content ≠ "") (rest : List Segment) :
    flush content.toList.reverse rest = .text content :: rest := by
  have hrun : content.toList.reverse.isEmpty = false := by simpa using h
  rw [flush, hrun, List.reverse_reverse, String.ofList_toList]
  rfl

/-- Where no character follows the run ends. -/
theorem join_eq_flush {ts : List Token} (h : ∀ c, ts.head? ≠ some (.char c)) (run : List Char) :
    join run ts = flush run (join [] ts) := by
  cases ts with
  | nil => rfl
  | cons t ts =>
    cases t with
    | char c => exact absurd rfl (h c)
    | argument i => rfl

theorem Canonical.tail {segment : Segment} {segments : List Segment}
    (h : Canonical (segment :: segments)) : Canonical segments where
  nonempty content hcontent := h.nonempty content (List.mem_cons_of_mem _ hcontent)
  apart := (List.isChain_cons.1 h.apart).2
  bounded i hi := h.bounded i (List.mem_cons_of_mem _ hi)

/-- No text follows a text. -/
theorem Canonical.head?_tokens {content : String} {segments : List Segment}
    (h : Canonical (.text content :: segments)) (c : Char) :
    (segments.flatMap Segment.tokens).head? ≠ some (.char c) := by
  rcases segments with _ | ⟨_ | i, segments⟩
  · exact nofun
  · exact absurd ⟨rfl, rfl⟩ (List.isChain_cons_cons.1 h.apart).1
  · exact nofun

/-- The tokens of canonical segments join to these. -/
theorem join_tokens {segments : List Segment} (h : Canonical segments) :
    join [] (segments.flatMap Segment.tokens) = segments := by
  induction segments with
  | nil => rfl
  | cons segment segments ih =>
    rw [List.flatMap_cons]
    cases segment with
    | text content =>
      rw [Segment.tokens, join_chars, List.append_nil, join_eq_flush h.head?_tokens, ih h.tail,
        flush_text (h.nonempty content List.mem_cons_self)]
    | argument i => exact congrArg (.argument i :: ·) (ih h.tail)

theorem Written.append {ts us : List Token} {w v : List Char} (h : Written ts w)
    (h' : Written us v) : Written (ts ++ us) (w ++ v) := by
  induction h with
  | nil => exact h'
  | cons ht _ ih =>
    rw [List.append_assoc]
    exact .cons ht ih

theorem Written.split {ts us : List Token} {cs : List Char} (h : Written (ts ++ us) cs) :
    ∃ w v, cs = w ++ v ∧ Written ts w ∧ Written us v := by
  induction ts generalizing cs with
  | nil => exact ⟨[], cs, rfl, .nil, h⟩
  | cons t ts ih =>
    cases h with
    | cons ht h =>
      obtain ⟨w, v, rfl, hw, hv⟩ := ih h
      exact ⟨_, v, (List.append_assoc _ _ _).symm, .cons ht hw, hv⟩

theorem writes_char_iff {c : Char} {w : List Char} : Token.Writes (.char c) w ↔ w = escape c := by
  constructor
  · intro h
    cases h with
    | char hopen hclose => simp [escape, hopen, hclose]
    | brace hc => rw [escape, if_pos hc]
  · rintro rfl
    unfold escape
    split
    · exact .brace ‹_›
    · obtain ⟨hopen, hclose⟩ := not_or.1 ‹_›
      exact .char hopen hclose

theorem written_chars_iff {cs w : List Char} :
    Written (cs.map .char) w ↔ w = cs.flatMap escape := by
  constructor
  · intro h
    induction cs generalizing w with
    | nil =>
      cases h
      rfl
    | cons c cs ih =>
      cases h with
      | cons hc h => rw [writes_char_iff.1 hc, ih h, List.flatMap_cons]
  · rintro rfl
    induction cs with
    | nil => exact .nil
    | cons c cs ih => exact .cons (writes_char_iff.2 rfl) ih

theorem value_toDigits (n : Nat) : value (Nat.toDigits 10 n) = n := by
  have h : value (Nat.toDigits 10 n) = Nat.ofDigitChars 10 (Nat.toDigits 10 n) 0 :=
    Nat.ofDigitChars_eq_foldl.symm
  rw [h, Nat.ofDigitChars_ten_toDigits]

theorem value_append_singleton (ds : List Char) (d : Char) :
    value (ds ++ [d]) = 10 * value ds + (d.toNat - 48) := by
  simp [value]

theorem digit_lt {d : Char} (h : d.isDigit) : d.toNat - 48 < 10 := by
  have hle : d.toNat ≤ 57 := (Char.isDigit_iff_toNat.1 h).2
  omega

theorem toDigits_digit {d : Char} (h : d.isDigit) : Nat.toDigits 10 (d.toNat - 48) = [d] := by
  have hchar : ∀ n < 10, (Nat.digitChar n).toNat = n + 48 := by decide
  have hge : 48 ≤ d.toNat := (Char.isDigit_iff_toNat.1 h).1
  have hd : Nat.digitChar (d.toNat - 48) = d := by
    rw [← Char.toNat_inj, hchar _ (digit_lt h), Nat.sub_add_cancel hge]
  rw [Nat.toDigits_of_lt_base (digit_lt h), hd]

/-- Digits are those of the number that they write, behind zeros. -/
theorem exists_leading_zeros {ds : List Char} (hne : ds ≠ []) (hds : ∀ d ∈ ds, d.isDigit) :
    ∃ zeros, ds = List.replicate zeros '0' ++ Nat.toDigits 10 (value ds) := by
  induction ds using List.reverseRecOn with
  | nil => exact absurd rfl hne
  | append_singleton ds d ih =>
    obtain ⟨hds, hd⟩ := List.forall_mem_append.1 hds
    have hd := hd d (List.mem_singleton.2 rfl)
    have hlast := toDigits_digit hd
    rw [value_append_singleton]
    by_cases hnil : ds = []
    · subst hnil
      exact ⟨0, by simpa [value] using hlast.symm⟩
    obtain ⟨zeros, hzeros⟩ := ih hnil hds
    by_cases hvalue : value ds = 0
    -- all digits so far are zeros
    · rw [hvalue, Nat.toDigits_zero, ← List.replicate_succ'] at hzeros
      refine ⟨zeros + 1, ?_⟩
      rw [hvalue, Nat.mul_zero, Nat.zero_add, hlast, ← hzeros]
    · refine ⟨zeros, ?_⟩
      rw [← Nat.toDigits_append_toDigits (by decide) (Nat.pos_of_ne_zero hvalue) (digit_lt hd),
        hlast, ← List.append_assoc, ← hzeros]

theorem writes_argument_of_lt {i : Nat} (h : i < indexBound) :
    Token.Writes (.argument i) (Segment.render (.argument i)) := by
  have hdigits : ∀ d ∈ Nat.toDigits 10 i, d.isDigit :=
    fun d hd => Nat.isDigit_of_mem_toDigits (by decide) (by decide) hd
  have hwrites := Token.Writes.argument Nat.toDigits_ne_nil hdigits (by rwa [value_toDigits])
  rwa [value_toDigits] at hwrites

theorem render_written {segments : List Segment} (h : Canonical segments) :
    Written (segments.flatMap Segment.tokens) (segments.flatMap Segment.render) := by
  induction segments with
  | nil => exact .nil
  | cons segment segments ih =>
    refine Written.append ?_ (ih h.tail)
    cases segment with
    | text content => exact written_chars_iff.2 rfl
    | argument i =>
      have hi := writes_argument_of_lt (h.bounded i List.mem_cons_self)
      simpa [Segment.tokens] using Written.cons hi .nil

theorem pads_of_written {segment : Segment} {w : List Char} (h : Written segment.tokens w) :
    segment.Pads w := by
  cases segment with
  | text content =>
    rw [written_chars_iff.1 h]
    exact .text content
  | argument i =>
    rw [Segment.tokens] at h
    cases h with
    | cons ht h =>
      cases h
      cases ht with
      | @argument ds hne hds _ =>
        obtain ⟨zeros, hzeros⟩ := exists_leading_zeros hne hds
        have hpads := Segment.Pads.argument (value ds) zeros
        rwa [← hzeros, ← List.append_nil ('{' :: _)] at hpads

theorem pieces_of_written {segments : List Segment} {cs : List Char}
    (h : Written (segments.flatMap Segment.tokens) cs) :
    ∃ pieces, List.Forall₂ Segment.Pads segments pieces ∧ cs = pieces.flatten := by
  induction segments generalizing cs with
  | nil =>
    cases h
    exact ⟨[], .nil, rfl⟩
  | cons segment segments ih =>
    obtain ⟨w, v, rfl, hw, hv⟩ := h.split
    obtain ⟨pieces, hpieces, rfl⟩ := ih hv
    exact ⟨w :: pieces, .cons (pads_of_written hw) hpieces, rfl⟩

theorem Written.bounded {ts : List Token} {cs : List Char} (h : Written ts cs) {i : Nat}
    (hi : .argument i ∈ ts) : i < indexBound := by
  induction h with
  | nil => exact absurd hi List.not_mem_nil
  | cons ht _ ih =>
    obtain rfl | hi := List.mem_cons.1 hi
    · cases ht with
      | argument _ _ hbound => exact hbound
    · exact ih hi

theorem join_canonical {ts : List Token} {cs : List Char} (h : Written ts cs) :
    Canonical (join [] ts) where
  nonempty := join_nonempty [] ts
  apart := join_apart [] ts
  bounded i hi := by
    have htoken : .argument i ∈ (join [] ts).flatMap Segment.tokens :=
      List.mem_flatMap.2 ⟨_, hi, List.mem_singleton.2 rfl⟩
    rw [flatMap_tokens_join] at htoken
    exact h.bounded htoken

/-- Canonical segments are what their rendering is parsed to; and what a format is parsed to is
canonical and renders to the format, but for leading zeros of placeholders. -/
theorem parse_render_inverse :
    (∀ segments, Canonical segments → parse (render segments) = .ok segments) ∧
      ∀ format segments, parse format = .ok segments →
        Canonical segments ∧ Padded segments format := by
  constructor
  · intro segments h
    rw [parse_eq_ok_iff, render, String.toList_ofList]
    exact ⟨_, render_written h, join_tokens h⟩
  · intro format segments h
    obtain ⟨ts, hts, rfl⟩ := parse_eq_ok_iff.1 h
    refine ⟨join_canonical hts, pieces_of_written ?_⟩
    rwa [flatMap_tokens_join]

/-- Texts with a brace on either side of a placeholder, which may be written with two zeros. -/
theorem parse_render_inverse_braces :
    let segments : List Segment := [.text "a\x7b", .argument 7, .text "\x7db"]
    Canonical segments ∧ parse (render segments) = .ok segments ∧
      Padded segments "a\x7b\x7b\x7b007\x7d\x7d\x7db" := by
  intro segments
  obtain ⟨hrender, hparse⟩ := parse_render_inverse
  have hsegments : parse "a\x7b\x7b\x7b007\x7d\x7d\x7db" = .ok segments := by decide +kernel
  obtain ⟨hcanonical, hpadded⟩ := hparse _ _ hsegments
  exact ⟨hcanonical, hrender segments hcanonical, hpadded⟩

end ScriptTree.Template
