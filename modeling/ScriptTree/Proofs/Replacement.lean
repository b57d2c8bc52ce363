import ScriptTree.Proofs.CollapseNormalForm
import ScriptTree.Proofs.State
import ScriptTree.Proofs.Template

namespace ScriptTree

open Node

variable {ι : Type}

namespace Node

/-- The format of a literal and how many arguments it has. -/
def template? : Node ι → Option (String × Nat)
  | ⟨.expr, ⟨_, .literal format args⟩⟩ => some (format, args.items.length)
  | _ => none

/-- The argument that a literal stands for, if its format is one placeholder and nothing else. -/
def chosen? : Node ι → Option (Node ι)
  | ⟨.expr, ⟨_, .literal format args⟩⟩ => do
    (args.items.map (Node.mk .expr))[← Collapse.sole? format]?
  | _ => none

/-- What is wrong with an object: the refusal of a format, or else the placeholders that have no
argument. -/
def faults (n : Node ι) : List Error :=
  match n.template? with
  | none => []
  | some (format, available) =>
    match Template.parse format with
    | .error e => [e]
    | .ok segments => segments.filterMap fun
      | .text _ => none
      | .argument i => if available ≤ i then some (.templateArgument format i available) else none

/-- What template collapse logs at an object. -/
def collapseLog (n : Node ι) : List Record :=
  match n.template? with
  | none => []
  | some (format, available) =>
    match Template.parse format with
    | .error e => [.fault e]
    | .ok _ => ((Collapse.sole? format).toList.filter (· < available)).map (.collapsed format)

/-- The format and the number of arguments, by what an object holds itself and by the widths of its
parts. -/
def templateAt : Node Unit → List Nat → Option (String × Nat)
  | ⟨.expr, ⟨_, .literal format _⟩⟩, [available] => some (format, available)
  | _, _ => none

theorem template?_eq (n : Node ι) : n.template? = templateAt n.head (n.parts.map width) := by
  obtain ⟨k, x⟩ := n
  cases k
  case expr =>
    obtain ⟨o, s⟩ := x
    cases s
    case literal format args => simp [template?, templateAt, head, ExprShape.head, parts,
      ExprShape.parts, width]
    all_goals rfl
  case stmt | label => cases x <;> rfl
  all_goals rfl

theorem template?_bare (n : Node ι) : n.bare.template? = n.template? := by
  rw [template?_eq, template?_eq n, bare_head, bare_parts, List.map_map]
  exact congrArg _ (List.map_congr_left fun c _ => width_bare c)

theorem template?_eq_some_iff {n : Node ι} {format : String} {available : Nat} :
    n.template? = some (format, available) ↔
      ∃ o args, n = ⟨.expr, ⟨o, .literal format args⟩⟩ ∧ args.items.length = available := by
  constructor
  · intro h
    unfold template? at h
    split at h
    · obtain ⟨rfl, rfl⟩ := Prod.mk.inj (Option.some.inj h)
      exact ⟨_, _, rfl, rfl⟩
    · exact absurd h nofun
  · rintro ⟨o, args, rfl, rfl⟩
    rfl

theorem template?_expr_eq_none {e : Expr ι} (h : ¬∃ format args, e.shape = .literal format args) :
    template? ⟨.expr, e⟩ = none := by
  rw [Option.eq_none_iff_forall_ne_some]
  rintro ⟨format, available⟩ he
  obtain ⟨o, args, he, -⟩ := template?_eq_some_iff.1 he
  cases he
  exact h ⟨format, args, rfl⟩

theorem isSome_template?_head (n : Node ι) : n.head.template?.isSome = n.template?.isSome := by
  obtain ⟨k, x⟩ := n
  cases k
  case expr => rcases x with ⟨_, _ | _⟩ <;> rfl
  case stmt | label => cases x <;> rfl
  all_goals rfl

/-- The arguments of a literal are the parts of its only part. -/
theorem chosen?_eq (n : Node ι) :
    n.chosen? = n.template?.bind fun template =>
      (Collapse.sole? template.1).bind fun i => (n.parts.flatMap parts)[i]? := by
  obtain ⟨k, x⟩ := n
  cases k
  case expr =>
    obtain ⟨o, s⟩ := x
    cases s
    case literal format args =>
      have hparts : (parts ⟨.expr, ⟨o, .literal format args⟩⟩).flatMap parts =
          args.items.map (Node.mk .expr) := List.flatMap_singleton parts _
      rw [hparts]
      rfl
    all_goals rfl
  case stmt | label => cases x <;> rfl
  all_goals rfl

theorem chosen?_bare (n : Node ι) : n.bare.chosen? = n.chosen?.map bare := by
  have hparts : n.bare.parts.flatMap parts = (n.parts.flatMap parts).map bare := by
    rw [bare_parts, List.flatMap_map, List.map_flatMap]
    exact List.flatMap_congr fun c _ => bare_parts c
  rw [chosen?_eq, chosen?_eq n, template?_bare, hparts]
  cases n.template? with
  | none => rfl
  | some template =>
    cases hs : Collapse.sole? template.1 with
    | none => simp [hs]
    | some i => simp [hs]

theorem chosen?_eq_some_iff {n a : Node ι} :
    n.chosen? = some a ↔ ∃ o format args i e, n = ⟨.expr, ⟨o, .literal format args⟩⟩ ∧
      Template.Lone format i ∧ i < Template.indexBound ∧ args.items[i]? = some e ∧
        a = ⟨.expr, e⟩ := by
  constructor
  · intro h
    unfold chosen? at h
    split at h
    · obtain ⟨i, hi, h⟩ := Option.bind_eq_some_iff.1 h
      rw [List.getElem?_map] at h
      obtain ⟨e, he, rfl⟩ := Option.map_eq_some_iff.1 h
      obtain ⟨hlone, hbound⟩ := Template.parse_eq_argument_iff.1 (Collapse.sole?_eq_some_iff.1 hi)
      exact ⟨_, _, _, i, e, rfl, hlone, hbound, he, rfl⟩
    · exact absurd h nofun
  · rintro ⟨o, format, args, i, e, rfl, hlone, hbound, he, rfl⟩
    have hsole := Collapse.sole?_eq_some_iff.2 (Template.parse_eq_argument_iff.2 ⟨hlone, hbound⟩)
    simp [chosen?, hsole, he]

theorem isSome_chosen? (n : Node ι) :
    n.chosen?.isSome = n.template?.any fun template =>
      (Collapse.sole? template.1).any (· < template.2) := by
  cases ht : n.template? with
  | none => rw [chosen?_eq, ht]; rfl
  | some template =>
    obtain ⟨o, args, rfl, hargs⟩ := template?_eq_some_iff.1 ht
    cases hs : Collapse.sole? template.1 with
    | none => simp [chosen?, hs]
    | some i =>
      rw [Bool.eq_iff_iff]
      simp [chosen?, hs, ← hargs]

theorem mem_parts_of_chosen? {n a : Node ι} (h : n.chosen? = some a) :
    ∃ c ∈ n.parts, a ∈ c.parts := by
  rw [chosen?_eq] at h
  obtain ⟨template, -, h⟩ := Option.bind_eq_some_iff.1 h
  obtain ⟨i, -, h⟩ := Option.bind_eq_some_iff.1 h
  exact List.mem_flatMap.1 (List.mem_of_getElem? h)

theorem size_lt_of_chosen? {n a : Node ι} (h : n.chosen? = some a) : a.size < n.size := by
  obtain ⟨c, hc, ha⟩ := mem_parts_of_chosen? h
  exact Nat.lt_trans (size_lt_of_mem_parts ha) (size_lt_of_mem_parts hc)

end Node

namespace Collapse

/-- The second tree is the first with every literal that stands for an argument alone replaced by
what that argument becomes. -/
inductive Replaced : Node Unit → Node Unit → Prop
  | literal {n a n'} : n.chosen? = some a → Replaced a n' → Replaced n n'
  | kept {n n'} : n.chosen? = none → n.Alike n' → List.Forall₂ Replaced n.parts n'.parts →
      Replaced n n'

theorem Replaced.unique {n a b : Node Unit} (ha : Replaced n a) (hb : Replaced n b) : a = b := by
  -- a literal stands for a part of its part, so that the induction is on the size
  cases ha with
  | literal hc ha =>
    cases hb with
    | literal hc' hb =>
      obtain rfl := Option.some.inj (hc.symm.trans hc')
      exact ha.unique hb
    | kept hc' _ _ => exact absurd (hc.symm.trans hc') nofun
  | kept hc halike hparts =>
    cases hb with
    | literal hc' _ => exact absurd (hc.symm.trans hc') nofun
    | kept _ halike' hparts' =>
      have hheads : a.Alike b := (halike.symm : a.head = n.head).trans halike'
      exact bare_eq_of_parts hheads
        (eq_of_forall₂ hparts hparts' fun c hc _ _ h h' => h.unique h')
termination_by n.size
decreasing_by
  · exact size_lt_of_chosen? ‹_›
  · exact size_lt_of_mem_parts hc

theorem faults_of_sole? {format : String} {i : Nat} (h : sole? format = some i) (available : Nat) :
    faults format available =
      if i < available then [] else [.templateArgument format i available] := by
  rw [sole?_eq_some_iff] at h
  by_cases hi : i < available <;> simp [faults, missing, h, hi]

theorem literal_fst (format : String) (args : List (Expr Origin)) (t : Tally) :
    (literal format args t).1 = (sole? format).bind fun i => args[i]? := by
  obtain ⟨hf, h⟩ | ⟨⟨-, hs⟩, h⟩ | ⟨i, e, -, hs, hi, h⟩ := literal_cases format args t
  · rw [h]
    cases hs : sole? format with
    | none => rfl
    | some i =>
      rw [faults_of_sole? hs] at hf
      have hi : args.length ≤ i := by
        by_contra hi
        exact hf (if_pos (Nat.not_le.1 hi))
      exact (List.getElem?_eq_none hi).symm
  · rw [h, hs]
    rfl
  · rw [h, hs]
    exact hi.symm

theorem node_faults_eq {n : Node ι} {format : String} {available : Nat}
    (h : n.template? = some (format, available)) : n.faults = faults format available := by
  unfold Node.faults faults missing
  simp only [h]
  cases Template.parse format with
  | error e => rfl
  | ok segments =>
    apply List.filterMap_congr
    intro segment _
    cases segment with
    | text content => rfl
    | argument i => simp only [← not_lt, ite_not]

/-- A literal with something wrong about it stands for itself. -/
theorem chosen?_of_faults {n : Node ι} (h : n.faults ≠ []) : n.chosen? = none := by
  by_contra hne
  have hsome : n.chosen?.isSome := Option.isSome_iff_ne_none.2 hne
  rw [isSome_chosen?, Option.any_eq_true] at hsome
  obtain ⟨⟨format, available⟩, ht, hsole⟩ := hsome
  obtain ⟨i, hs, hi⟩ := (Option.any_eq_true _ _).1 hsole
  rw [node_faults_eq ht, faults_of_sole? hs, if_pos (of_decide_eq_true hi)] at h
  exact h rfl

/-- Reports what is wrong with the objects, and counts and logs those that stand for an argument. -/
def tally (ms : List (Node ι)) (t : Tally) : Tally where
  collapsed := t.collapsed + ms.countP fun m => m.chosen?.isSome
  errors := t.errors ++ ms.flatMap Node.faults
  log := t.log ++ ms.flatMap Node.collapseLog

theorem tally_nil (t : Tally) : tally ([] : List (Node ι)) t = t := by
  simp [tally]

theorem tally_append (ms ms' : List (Node ι)) (t : Tally) :
    tally (ms ++ ms') t = tally ms' (tally ms t) := by
  simp only [tally, List.countP_append, List.flatMap_append, Nat.add_assoc, appendList_append]

theorem tally_foldl (ms : List (Node ι)) (t : Tally) :
    ms.foldl (fun t m => tally [m] t) t = tally ms t := by
  induction ms generalizing t with
  | nil => exact (tally_nil t).symm
  | cons m ms ih => rw [List.foldl_cons, ih, ← tally_append, List.singleton_append]

theorem tally_of_template?_eq_none {n : Node ι} (h : n.template? = none) (t : Tally) :
    tally [n] t = t := by
  have hchosen : n.chosen? = none := by rw [chosen?_eq, h]; rfl
  simp [tally, hchosen, Node.faults, Node.collapseLog, h]

theorem tally_bare (n : Node ι) (t : Tally) : tally [n.bare] t = tally [n] t := by
  simp [tally, chosen?_bare, Node.faults, Node.collapseLog, template?_bare]

/-- What collapse reports of a literal and counts is told by the literal alone. -/
theorem literal_snd (o : Origin) (format : String) (args : NodeList Origin (Expr Origin))
    (t : Tally) :
    (literal format args.items t).2 = tally [⟨.expr, ⟨o, .literal format args⟩⟩] t := by
  have hfaults : Node.faults ⟨.expr, ⟨o, .literal format args⟩⟩ = faults format args.items.length :=
    node_faults_eq rfl
  cases hp : Template.parse format with
  | error e =>
    simp [literal, tally, hfaults, faults, Node.collapseLog, template?, chosen?, sole?, hp]
  | ok segments =>
    by_cases hs : ∃ i, segments = [.argument i]
    · obtain ⟨i, rfl⟩ := hs
      by_cases hi : i < args.items.length <;>
        simp [literal, tally, hfaults, faults, missing, Node.collapseLog, template?, chosen?, sole?,
          hp, hi]
    · have hs : ∀ i, segments ≠ [.argument i] := not_exists.1 hs
      rw [literal_of_ne_argument hp hs]
      simp [tally, hfaults, Node.collapseLog, template?, chosen?, sole?_eq_none hp hs, hp]

theorem visit_snd (k : Kind) (x : Object Origin k) (walk : StateM Tally (Object Origin k))
    (t : Tally) :
    (transform.visit k x walk t).2 = tally [⟨k, (walk t).1⟩] (walk t).2 := by
  cases k
  case expr =>
    rcases hw : walk t with ⟨z, t'⟩
    by_cases hz : ∃ format args, z.shape = .literal format args
    · obtain ⟨format, args, hz⟩ := hz
      obtain ⟨o, s⟩ := z
      obtain rfl : s = .literal format args := hz
      rw [visit_literal hw rfl, literal_snd o]
    · rw [visit_of_ne_literal hw (by simpa using hz)]
      exact (tally_of_template?_eq_none (template?_expr_eq_none hz) t').symm
  case stmt | label =>
    refine (tally_of_template?_eq_none ?_ _).symm
    cases (walk t).1 <;> rfl
  all_goals exact (tally_of_template?_eq_none rfl _).symm

theorem tally_congr {n z : Node ι} (h : n.template? = z.template?) (t : Tally) :
    tally [n] t = tally [z] t := by
  simp [tally, isSome_chosen?, Node.faults, Node.collapseLog, h]

theorem collapse_reports : transform.Reports fun m => tally [m] where
  visit k x walk t := by rw [visit_snd, tally_bare]
  width k x walk t := by cases k <;> rfl
  congr n z ha hp := by
    have htemplate : n.template? = z.template? := by rw [template?_eq, template?_eq z, ha, hp]
    exact funext (tally_congr htemplate)
  block b := by
    funext t
    rw [tally_of_template?_eq_none rfl, tally_of_template?_eq_none rfl]

/-- Collapse reports and counts the objects of a tree. -/
theorem collapse_tally (n : Node Origin) (t : Tally) :
    (transform.node n t).2 = tally n.bare.postorder t := by
  rw [collapse_reports.node_snd, tally_foldl]

theorem visit_fst (k : Kind) (x : Object Origin k) (walk : StateM Tally (Object Origin k))
    (t : Tally) :
    (⟨k, (transform.visit k x walk t).1⟩ : Node Origin) =
      (chosen? ⟨k, (walk t).1⟩).getD ⟨k, (walk t).1⟩ := by
  cases k
  case expr =>
    rcases hw : walk t with ⟨z, t'⟩
    by_cases hz : ∃ format args, z.shape = .literal format args
    · obtain ⟨format, args, hz⟩ := hz
      obtain ⟨o, s⟩ := z
      obtain rfl : s = .literal format args := hz
      rw [visit_literal hw rfl, literal_fst]
      have hchosen : chosen? (⟨.expr, ⟨o, .literal format args⟩⟩ : Node Origin) =
          ((sole? format).bind fun i => args.items[i]?).map (Node.mk .expr) := by
        cases hs : sole? format <;> simp [chosen?, hs]
      rw [hchosen]
      cases (sole? format).bind fun i => args.items[i]? <;> rfl
    · rw [visit_of_ne_literal hw (by simpa using hz)]
      rw [chosen?_eq, template?_expr_eq_none hz]
      rfl
  case stmt | label => cases h : (walk t).1 <;> simp [transform, chosen?, h]
  all_goals rfl

theorem forall₂_getElem? {α β : Type} {R : α → β → Prop} {as : List α} {bs : List β}
    (h : List.Forall₂ R as bs) (i : Nat) :
    as[i]? = none ∧ bs[i]? = none ∨ ∃ a b, as[i]? = some a ∧ bs[i]? = some b ∧ R a b := by
  have hlength := h.length_eq
  by_cases hi : i < as.length
  · have hi' : i < bs.length := hlength ▸ hi
    refine .inr ⟨as[i], bs[i], List.getElem?_eq_getElem hi, List.getElem?_eq_getElem hi', ?_⟩
    exact h.get hi hi'
  · have hi : as.length ≤ i := Nat.not_lt.1 hi
    exact .inl ⟨List.getElem?_eq_none hi, List.getElem?_eq_none (hlength ▸ hi)⟩

theorem Replaced.parts_of_chosen? {n z : Node Unit} (h : Replaced n z) (hn : n.chosen? = none) :
    List.Forall₂ Replaced n.parts z.parts := by
  cases h with
  | literal hc _ => exact absurd (hn.symm.trans hc) nofun
  | kept _ _ hparts => exact hparts

/-- An object and the one around what its parts become stand for an argument and what that
becomes. -/
theorem chosen?_of_parts {n z : Node Unit} (ha : n.Alike z)
    (hparts : List.Forall₂ Replaced n.parts z.parts) :
    n.chosen? = none ∧ z.chosen? = none ∨
      ∃ a e, n.chosen? = some a ∧ z.chosen? = some e ∧ Replaced a e := by
  have hsome : n.template?.isSome = z.template?.isSome := by
    rw [← isSome_template?_head, ← isSome_template?_head z, ha]
  cases hn : n.template? with
  | none =>
    have hz : z.template? = none := by simpa [hn] using hsome
    exact .inl ⟨by rw [chosen?_eq, hn]; rfl, by rw [chosen?_eq, hz]; rfl⟩
  | some template =>
    obtain ⟨template', hz⟩ : ∃ template', z.template? = some template' := by
      simpa [hn, Option.isSome_iff_exists] using hsome.symm
    obtain ⟨o, args, rfl, -⟩ := template?_eq_some_iff.1 hn
    obtain ⟨o', args', rfl, -⟩ := template?_eq_some_iff.1 hz
    obtain ⟨hformat, -⟩ := ExprShape.literal.inj (alike_expr_iff.1 ha)
    have hargs : Replaced ⟨.exprs, args⟩ ⟨.exprs, args'⟩ := by
      cases hparts with
      | cons h _ => exact h
    have hitems : List.Forall₂ Replaced (args.items.map (Node.mk .expr))
        (args'.items.map (Node.mk .expr)) := hargs.parts_of_chosen? rfl
    cases hs : sole? template.1 with
    | none => simp [chosen?, ← hformat, hs]
    | some i => simpa [chosen?, ← hformat, hs] using forall₂_getElem? hitems i

theorem collapse_replaced {n : Node Origin} (hn : Separate n) (t : Tally) :
    Replaced n.bare (transform.node n t).1.bare := by
  refine (transform.exact_induction collapse_isTame (P := fun n _ n' _ => Replaced n.bare n'.bare)
    ?_ ?_ n hn t).2
  · intro b _ b' _ h
    cases h with
    | literal h _ => exact absurd h nofun
    | kept _ _ hparts =>
      refine .kept rfl rfl ?_
      rw [bare_block_parts, bare_block_parts]
      exact hparts
  · intro k x walk _ hwalk t
    obtain ⟨ha, hparts⟩ := hwalk t
    have hbare : Alike (bare ⟨k, x⟩) (bare ⟨k, (walk t).1⟩) := by
      rw [Alike, bare_head, bare_head, ha]
    have hparts : List.Forall₂ Replaced (bare ⟨k, x⟩).parts (bare ⟨k, (walk t).1⟩).parts := by
      rw [bare_parts, bare_parts, List.forall₂_map_left_iff, List.forall₂_map_right_iff]
      exact hparts.forall₂ fun _ _ _ _ _ h => h
    rw [visit_fst]
    obtain ⟨hn, hz⟩ | ⟨a, e, hn, hz, he⟩ := chosen?_of_parts hbare hparts
    · rw [chosen?_bare, Option.map_eq_none_iff] at hz
      rw [hz]
      exact .kept hn hbare hparts
    · rw [chosen?_bare] at hz
      obtain ⟨e', he', rfl⟩ := Option.map_eq_some_iff.1 hz
      rw [he']
      exact .literal hn he

/-- Collapse replaces the literals that stand for an argument alone by what the argument becomes,
and reports what is wrong with each literal, from the leaves up; where it takes an argument, there
is one. -/
theorem collapse_eq_replacement (start : Nat) (k : Kind) (x : Object Unit k) (t : Tally) :
    let r := transform.object k (Object.number start k x).1 t
    let objects := (Node.mk k x).postorder
    r.2.errors = t.errors ++ objects.flatMap Node.faults ∧
      r.2.collapsed = t.collapsed + objects.countP (fun m => m.chosen?.isSome) ∧
      r.2.log = t.log ++ objects.flatMap Node.collapseLog ∧
      (∀ y, Replaced ⟨k, x⟩ ⟨k, y⟩ ↔ y = Object.bare k r.1) ∧
      (∀ m a : Node Unit, m.chosen? = some a ↔
        ∃ o format args i e, m = ⟨.expr, ⟨o, .literal format args⟩⟩ ∧ Template.Lone format i ∧
          i < Template.indexBound ∧ args.items[i]? = some e ∧ a = ⟨.expr, e⟩) ∧
      (∀ m : Node Unit, m.faults ≠ [] → m.chosen? = none) ∧
      (∀ format e, Template.parse format = .error e →
        ∃ offset, e = .malformedTemplate format offset) ∧
      ∀ format (args : List (Expr Origin)) i, Template.parse format = .ok [.argument i] →
        missing format args.length [.argument i] = [] → i < args.length := by
  intro r objects
  have hbare : Node.bare ⟨k, (Object.number start k x).1⟩ = ⟨k, x⟩ :=
    bare_number_object start k x
  have hr : Replaced ⟨k, x⟩ ⟨k, Object.bare k r.1⟩ := by
    have h : Replaced _ _ := collapse_replaced (number_separate start k x) t
    rwa [hbare] at h
  have htally : r.2 = tally objects t := by
    have h := collapse_tally ⟨k, (Object.number start k x).1⟩ t
    rwa [hbare] at h
  refine ⟨?_, ?_, ?_, fun y => ⟨fun hy => ?_, ?_⟩, fun _ _ => chosen?_eq_some_iff,
    fun _ => chosen?_of_faults, fun _ _ => Template.parse_eq_error, fun format args i _ h => ?_⟩
  · rw [htally]
    rfl
  · rw [htally]
    rfl
  · rw [htally]
    rfl
  · exact eq_of_heq (Node.mk.inj (hy.unique hr)).2
  · rintro rfl
    exact hr
  · by_contra hi
    simp [missing, hi] at h

end Collapse

end ScriptTree
