import ScriptTree.Proofs.Lasting

namespace ScriptTree

open Node

variable {ι : Type}

/-- The labels in a function body of its labelled statements, those that its `goto`s name, and those
of the `break`s and `continue`s that stand in no statement with that label. -/
structure Jumps where
  labels : List String
  gotos : List String
  exits : List String
  deriving DecidableEq

def Jumps.none : Jumps := ⟨[], [], []⟩

/-- The jumps outside nested functions, and those of each nested function. -/
abbrev Survey := Jumps × List Jumps

def Survey.join (below : List Survey) : Survey :=
  (⟨below.flatMap (·.1.labels), below.flatMap (·.1.gotos), below.flatMap (·.1.exits)⟩,
    below.flatMap (·.2))

/-- Every jump has its target. -/
structure Jumps.Aimed (j : Jumps) : Prop where
  gotos : ∀ l ∈ j.gotos, l ∈ j.labels
  exits : j.exits = []

namespace Node

/-- The jumps of an object and of what stands in it. -/
def jumpsAround : Node ι → Jumps → Jumps := own fun
  | ⟨.stmt, .node _ (.labelled l _)⟩, below =>
    { below with labels := l :: below.labels, exits := below.exits.filter (· ≠ l) }
  | ⟨.stmt, .node _ (.goto l)⟩, below => { below with gotos := l :: below.gotos }
  | ⟨.stmt, .node _ (.breakTo l)⟩, below | ⟨.stmt, .node _ (.continueTo l)⟩, below =>
    { below with exits := l.toList ++ below.exits }
  | _, below => below

/-- What is found in an object, from what is found in its parts. -/
def surveyAt (n : Node ι) (below : List Survey) : Survey :=
  let (inner, nested) := Survey.join below
  if n.isFunction then (.none, inner :: nested) else (n.jumpsAround inner, nested)

/-- What is found in an object as far as the selected parts go. -/
def survey (S : Selection ι) (n : Node ι) : Survey :=
  n.surveyAt ((S.parts n).attach.map fun c => survey S c.1)
termination_by n.size
decreasing_by exact size_lt_of_mem_parts (S.mem_parts n _ c.2)

theorem survey_eq (S : Selection ι) (n : Node ι) :
    n.survey S = n.surveyAt ((S.parts n).map (survey S)) := by
  rw [survey]
  simp only [List.map_subtype, List.unattach_attach]

/-- The jumps of the whole and of every function in it. -/
def bodies (S : Selection ι) (n : Node ι) : List Jumps := (n.survey S).1 :: (n.survey S).2

theorem surveyAt_head (n : Node ι) : n.head.surveyAt = n.surveyAt := by
  have hfun : n.head.isFunction = n.isFunction := own_head _ n
  have hjumps : n.head.jumpsAround = n.jumpsAround := own_head _ n
  funext below
  rw [surveyAt, surveyAt, hfun, hjumps]

/-- A silent object is no function and has neither a jump nor a label. -/
theorem plain_of_silent {n : Node ι} (h : n.silent) :
    n.isFunction = false ∧ n.jumpsAround = id := by
  obtain ⟨k, x⟩ := n
  cases k
  case expr => rcases x with ⟨_, _ | _⟩ <;> first | exact ⟨rfl, rfl⟩ | exact absurd h nofun
  case stmt => rcases x with _ | ⟨_, _ | _⟩ <;> first | exact ⟨rfl, rfl⟩ | exact absurd h nofun
  case label => cases x <;> exact ⟨rfl, rfl⟩
  all_goals exact ⟨rfl, rfl⟩

theorem exits_jumpsAround (n : Node ι) {j j' : Jumps} (h : ∀ l ∈ j.exits, l ∈ j'.exits) :
    ∀ l ∈ (n.jumpsAround j).exits, l ∈ (n.jumpsAround j').exits := by
  intro l hl
  simp only [jumpsAround, own] at hl ⊢
  split at hl <;> grind

/-- The `break`s and `continue`s without a target that the first finds, the second finds. -/
def Finds (s s' : Survey) : Prop :=
  (∀ l ∈ s.1.exits, l ∈ s'.1.exits) ∧ ∀ j ∈ s.2, ∃ j' ∈ s'.2, ∀ l ∈ j.exits, l ∈ j'.exits

theorem Finds.bodies {s s' : Survey} (h : Finds s s') {j : Jumps} (hj : j ∈ s.1 :: s.2) :
    ∃ j' ∈ s'.1 :: s'.2, ∀ l ∈ j.exits, l ∈ j'.exits := by
  obtain ⟨hinner, hnested⟩ := h
  obtain rfl | hj := List.mem_cons.1 hj
  · exact ⟨_, List.mem_cons_self, hinner⟩
  · obtain ⟨j', hj', h⟩ := hnested j hj
    exact ⟨j', List.mem_cons_of_mem _ hj', h⟩

theorem survey_finds (S : Selection ι) (n : Node ι) : Finds (n.survey S) (n.survey .all) := by
  induction n using Node.induction with
  | step n ih =>
    have hjoin : Finds (Survey.join ((S.parts n).map (survey S)))
        (Survey.join (n.parts.map (survey .all))) := by
      constructor
      · intro l hl
        obtain ⟨_, hs, hl⟩ := List.mem_flatMap.1 hl
        obtain ⟨c, hc, rfl⟩ := List.mem_map.1 hs
        have hc := S.mem_parts n c hc
        exact List.mem_flatMap.2 ⟨_, List.mem_map_of_mem hc, (ih c hc).1 l hl⟩
      · intro j hj
        obtain ⟨_, hs, hj⟩ := List.mem_flatMap.1 hj
        obtain ⟨c, hc, rfl⟩ := List.mem_map.1 hs
        have hc := S.mem_parts n c hc
        obtain ⟨j', hj', h⟩ := (ih c hc).2 j hj
        exact ⟨j', List.mem_flatMap.2 ⟨_, List.mem_map_of_mem hc, hj'⟩, h⟩
    rw [survey_eq, survey_eq .all, surveyAt, surveyAt]
    cases n.isFunction with
    | false => exact ⟨exits_jumpsAround n hjoin.1, hjoin.2⟩
    | true => exact ⟨nofun, fun _ => hjoin.bodies⟩

theorem exits_of_mem_bodies (S : Selection ι) {n : Node ι} {j : Jumps} (hj : j ∈ n.bodies S) :
    ∃ j' ∈ n.bodies .all, ∀ l ∈ j.exits, l ∈ j'.exits :=
  (survey_finds S n).bodies hj

end Node

namespace Fold

/-- The jumps and labels as they are gathered from any tree. -/
def surveyed : Gathering Survey where
  join := Survey.join
  around n s := if n.isFunction then (.none, s.1 :: s.2) else (n.jumpsAround s.1, s.2)
  join_singleton s := by simp [Survey.join]
  join_nil_cons below := by simp [Survey.join]
  join_append_nil below := by simp [Survey.join]
  around_silent n h := by
    obtain ⟨hfun, hjumps⟩ := plain_of_silent h
    funext s
    rw [hfun, hjumps]
    rfl

theorem survey_eq_gather (S : Selection ι) (n : Node ι) : n.survey S = surveyed.gather S n := by
  induction n using Node.induction with
  | step n ih =>
    have hparts : (S.parts n).map (survey S) = (S.parts n).map (surveyed.gather S) :=
      List.map_congr_left fun c hc => ih c (S.mem_parts n c hc)
    rw [survey_eq, surveyed.gather_eq, hparts, ← surveyAt_head]
    rfl

theorem Folds.survey {n n' : Node Origin} (h : Folds n n') :
    n'.survey .all = n.survey .lasting := by
  rw [survey_eq_gather, survey_eq_gather]
  exact h.gather surveyed

/-- Folding leaves the jumps and the labels of the parts that it keeps. So it leaves every jump its
target exactly where a `goto` that it keeps names a label that it keeps; a labelled `break` or
`continue` never loses its target. -/
theorem fold_jumps (start : Nat) (k : Kind) (x : Object Unit k) (folded : Nat) :
    let x₀ := (Object.number start k x).1
    let r := (transform.object k x₀ folded).1
    Node.bodies .all ⟨k, r⟩ = Node.bodies .lasting ⟨k, x₀⟩ ∧
      ((∀ j ∈ Node.bodies .all ⟨k, x₀⟩, j.Aimed) →
        ((∀ j ∈ Node.bodies .all ⟨k, r⟩, j.Aimed) ↔
          ∀ j ∈ Node.bodies .lasting ⟨k, x₀⟩, ∀ l ∈ j.gotos, l ∈ j.labels)) := by
  intro x₀ r
  have hbodies : Node.bodies .all ⟨k, r⟩ = Node.bodies .lasting ⟨k, x₀⟩ := by
    have hsurvey : Node.survey .all ⟨k, r⟩ = Node.survey .lasting ⟨k, x₀⟩ :=
      (folds (number_separate start k x) folded).survey
    rw [Node.bodies, Node.bodies, hsurvey]
  refine ⟨hbodies, fun haimed => ?_⟩
  rw [hbodies]
  refine ⟨fun h j hj => (h j hj).gotos, fun h j hj => ⟨h j hj, ?_⟩⟩
  obtain ⟨j', hj', hexits⟩ := exits_of_mem_bodies .lasting hj
  rw [List.eq_nil_iff_forall_not_mem]
  intro l hl
  have hl' := hexits l hl
  rw [(haimed j' hj').exits] at hl'
  exact absurd hl' List.not_mem_nil

/-- A `goto` into an `if` whose test is a constant. -/
def jumpInto (test : Bool) : Program Unit :=
  ⟨(), [.node () (.goto "l"), .node () (.ifElse ⟨(), .constant (.bool test)⟩
    ⟨(), ⟨(), [.node () (.labelled "l" (.node () .empty))]⟩⟩ none)]⟩

/-- A label in the branch that runs stays. -/
theorem fold_jumps_live_label :
    let p := (Object.number 0 .stmts (jumpInto true)).1
    (∀ j ∈ Node.bodies .all ⟨.stmts, p⟩, j.Aimed) ∧
      ∀ j ∈ Node.bodies .all ⟨.stmts, (transform.stmts p 0).1⟩, j.Aimed := by
  intro p
  have hall : Node.bodies .all ⟨.stmts, p⟩ = [⟨["l"], ["l"], []⟩] := by decide +kernel
  have hlasting : Node.bodies .lasting ⟨.stmts, p⟩ = [⟨["l"], ["l"], []⟩] := by decide +kernel
  have haimed : ∀ j ∈ Node.bodies .all ⟨.stmts, p⟩, j.Aimed := by
    rw [hall]
    exact List.forall_mem_singleton.2 ⟨fun _ hl => hl, rfl⟩
  refine ⟨haimed, ((fold_jumps 0 .stmts (jumpInto true) 0).2 haimed).2 ?_⟩
  change ∀ j ∈ Node.bodies .lasting ⟨.stmts, p⟩, _
  rw [hlasting]
  exact List.forall_mem_singleton.2 fun _ hl => hl

/-- A label goes with the branch that does not run, also where a `goto` from outside names it. -/
theorem fold_drops_label :
    let p := (Object.number 0 .stmts (jumpInto false)).1
    (∀ j ∈ Node.bodies .all ⟨.stmts, p⟩, j.Aimed) ∧
      ¬∀ j ∈ Node.bodies .all ⟨.stmts, (transform.stmts p 0).1⟩, j.Aimed := by
  intro p
  have hall : Node.bodies .all ⟨.stmts, p⟩ = [⟨["l"], ["l"], []⟩] := by decide +kernel
  have hfolded : Node.bodies .all ⟨.stmts, (transform.stmts p 0).1⟩ = [⟨[], ["l"], []⟩] := by
    decide +kernel
  rw [hall, hfolded]
  refine ⟨List.forall_mem_singleton.2 ⟨fun _ hl => hl, rfl⟩, fun h => ?_⟩
  exact absurd ((List.forall_mem_singleton.1 h).gotos "l" List.mem_cons_self) List.not_mem_nil

end Fold

end ScriptTree
