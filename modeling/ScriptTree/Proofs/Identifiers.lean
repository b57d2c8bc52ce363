import ScriptTree.Proofs.SharedLists
import ScriptTree.Proofs.Structure

namespace ScriptTree

open Node

/-- Answers the identifiers by the function and runs every traversal. -/
def Transform.identifiers {σ : Type} (answer : Expr Origin → StateM σ (Expr Origin)) :
    Transform σ where
  visit
    | .expr, e, walk => if e.asIdentifier?.isSome then answer e else walk
    | _, _, walk => walk

theorem prefix_append_iff {α : Type} {as bs cs : List α} (h : as.length = bs.length) :
    as <+: bs ++ cs ↔ as = bs := by
  constructor
  · intro hp
    exact (List.prefix_of_prefix_length_le hp (List.prefix_append bs cs)
      (Nat.le_of_eq h)).eq_of_length h
  · rintro rfl
    exact List.prefix_append as cs

namespace Node

section Identifiers

variable {ι : Type}

def identifier? : Node ι → Option (Expr ι)
  | ⟨.expr, e⟩ => if e.asIdentifier?.isSome then some e else none
  | _ => none

/-- The identifiers of a tree in pre-order. -/
def identifiers (n : Node ι) : List (Expr ι) := (n.preorder fun _ => true).filterMap identifier?

theorem identifier?_eq_some_iff {n : Node ι} {e : Expr ι} :
    n.identifier? = some e ↔ ∃ o name, n = ⟨.expr, e⟩ ∧ e = ⟨o, .identifier name⟩ := by
  obtain ⟨k, x⟩ := n
  constructor
  · intro h
    cases k <;> try cases h
    obtain ⟨hname, h⟩ := Option.ite_none_right_eq_some.1 h
    obtain rfl := Option.some.inj h
    obtain ⟨o, s⟩ := x
    cases s <;> try cases hname
    exact ⟨_, _, rfl, rfl⟩
  · rintro ⟨o, name, ⟨⟩, rfl⟩
    rfl

theorem identifiers_eq (n : Node ι) :
    n.identifiers = n.identifier?.toList ++ n.parts.flatMap identifiers :=
  filterMap_preorder identifier? (fun _ => true) n

theorem identifiers_of_identifier? {n : Node ι} {e : Expr ι} (h : n.identifier? = some e) :
    n.identifiers = [e] := by
  rw [identifiers_eq, h]
  obtain ⟨o, name, rfl, rfl⟩ := identifier?_eq_some_iff.1 h
  rfl

theorem identifiers_of_parts {n : Node ι} (h : n.identifier? = none) :
    n.identifiers = n.parts.flatMap identifiers := by
  rw [identifiers_eq, h]
  rfl

end Identifiers

/-- The second tree is the first with its identifiers replaced by the first of the answers, in order,
the others being left. An object around them is the instance that it was exactly where all of them
are answered by the instances that they were. -/
inductive Filled : Node Origin → List (Expr Origin) → Node Origin → List (Expr Origin) → Prop
  | identifier {n e a as} : n.identifier? = some e → Filled n (a :: as) ⟨.expr, a⟩ as
  | around {n n' as bs} : n.identifier? = none → n.Alike n' →
      Threaded Filled n.parts as n'.parts bs →
      (n'.place = n.place ↔ n.identifiers.map Expr.origin <+: as.map Expr.origin) →
      Filled n as n' bs

/-- The answers determine the tree up to the identities of the objects around them. -/
theorem Filled.unique {n n' n'' : Node Origin} {as bs bs' : List (Expr Origin)}
    (h : Filled n as n' bs) (h' : Filled n as n'' bs') : n'.bare = n''.bare ∧ bs = bs' := by
  induction n using Node.induction generalizing as n' n'' bs bs' with
  | step n ih =>
    cases h with
    | identifier hn =>
      cases h' with
      | identifier _ => exact ⟨rfl, rfl⟩
      | around hn' => exact absurd (hn'.symm.trans hn) nofun
    | around hn ha hp _ =>
      cases h' with
      | identifier hn' => exact absurd (hn.symm.trans hn') nofun
      | around _ ha' hp' _ =>
        have hparts := hp.forall₂_both (A := Eq) (B := fun c c' => c.bare = c'.bare) (D := Eq)
          hp' (List.forall₂_refl n.parts) rfl (by
            rintro c hc _ - rfl s b t _ b' t' rfl hb hb'
            exact ih c hc hb hb')
        refine ⟨bare_eq_of_parts ?_ ?_, hparts.2⟩
        · rw [Alike, bare_head, bare_head, ← ha, ← ha']
        · rw [bare_parts, bare_parts]
          exact map_eq_map_iff_forall₂.2 hparts.1

end Node

theorem Node.filled_block {b b' : Block Origin} {as bs : List (Expr Origin)}
    (h : Filled ⟨.block, b⟩ as ⟨.block, b'⟩ bs) :
    Filled ⟨.stmt, .block b⟩ as ⟨.stmt, .block b'⟩ bs := by
  have hids : identifiers ⟨.stmt, .block b⟩ = identifiers ⟨.block, b⟩ := by
    rw [identifiers_of_parts rfl, identifiers_of_parts rfl]
    rfl
  cases h with
  | around _ _ hp hplace => exact .around rfl rfl hp (hids ▸ hplace)

section Answered

variable {σ : Type} {answer : Expr Origin → StateM σ (Expr Origin)}
  {n n' : Node Origin} {ns ns' : List (Node Origin)} {s t u : σ}

/-- The identifiers of some objects are answered in order. The objects are the very ones that they
were where they are the same instances, which they are where every answer is. -/
structure Answered (answer : Expr Origin → StateM σ (Expr Origin)) (ns : List (Node Origin)) (s : σ)
    (ns' : List (Node Origin)) (t : σ) : Prop where
  state : ((ns.flatMap Node.identifiers).mapM answer s).2 = t
  filled : ∀ rest,
    Threaded Filled ns (((ns.flatMap Node.identifiers).mapM answer s).1 ++ rest) ns' rest
  kept : ns'.map Node.place = ns.map Node.place → ns' = ns
  place : ns'.map Node.place = ns.map Node.place ↔
    ((ns.flatMap Node.identifiers).mapM answer s).1.map Expr.origin =
      (ns.flatMap Node.identifiers).map Expr.origin

namespace Answered

theorem nil (s : σ) : Answered answer [] s [] s :=
  ⟨rfl, fun _ => .nil _, fun _ => rfl, iff_of_true rfl rfl⟩

theorem cons (hn : Answered answer [n] s [n'] t) (hns : Answered answer ns t ns' u) :
    Answered answer (n :: ns) s (n' :: ns') u := by
  obtain ⟨hstate, hfilled, hkept, hplace⟩ := hn
  rw [List.flatMap_singleton] at hstate hplace
  simp only [List.flatMap_singleton] at hfilled
  have happend := mapM_append_run answer n.identifiers (ns.flatMap Node.identifiers) s
  rw [hstate, ← List.flatMap_cons] at happend
  constructor
  · rw [happend, hns.state]
  · intro rest
    rw [happend, List.append_assoc]
    obtain _ | ⟨hn, _ | _⟩ := hfilled _
    exact .cons hn (hns.filled rest)
  · intro hplaces
    obtain ⟨hhead, htail⟩ := List.cons.inj hplaces
    rw [List.singleton_inj.1 (hkept (congrArg (fun p => [p]) hhead)), hns.kept htail]
  · have hlength : ((n.identifiers.mapM answer s).1.map Expr.origin).length =
        (n.identifiers.map Expr.origin).length := by
      rw [List.length_map, List.length_map, length_mapM]
    simp only [List.map_cons, List.map_nil, List.singleton_inj] at hplace
    rw [happend, List.flatMap_cons, List.map_append, List.map_append, List.map_cons, List.map_cons,
      List.cons.injEq, hplace, hns.place]
    exact ⟨fun ⟨h, h'⟩ => by rw [h, h'], fun h => List.append_inj h hlength⟩

theorem of_threaded (h : Threaded (fun n s n' t => Answered answer [n] s [n'] t) ns s ns' t) :
    Answered answer ns s ns' t := by
  induction h with
  | nil s => exact .nil s
  | cons hn _ ih => exact .cons hn ih

theorem identifier (hanswer : ∀ e s, (answer e s).1.origin = e.origin → (answer e s).1 = e)
    {e : Expr Origin} (h : identifier? ⟨.expr, e⟩ = some e) (s : σ) :
    Answered answer [⟨.expr, e⟩] s [⟨.expr, (answer e s).1⟩] (answer e s).2 := by
  have hids : [⟨.expr, e⟩].flatMap Node.identifiers = [e] := by
    rw [List.flatMap_singleton, identifiers_of_identifier? h]
  have hrun : [e].mapM answer s = ([(answer e s).1], (answer e s).2) := rfl
  constructor
  · rw [hids, hrun]
  · intro rest
    rw [hids, hrun]
    exact .cons (.identifier h) (.nil rest)
  · intro hplaces
    rw [hanswer e s (Option.some.inj (List.singleton_inj.1 hplaces))]
  · rw [hids, hrun]
    simp only [List.map_singleton, List.singleton_inj]
    exact Option.some_inj

theorem around (h : n.identifier? = none) (hns : Answered answer n.parts s ns t)
    (hr : n.Rebuilt ns n') : Answered answer [n] s [n'] t := by
  have hids : [n].flatMap Node.identifiers = n.parts.flatMap Node.identifiers := by
    rw [List.flatMap_singleton, identifiers_of_parts h]
  have hplace : [n'].map Node.place = [n].map Node.place ↔
      ns.map Node.place = n.parts.map Node.place := by
    rw [← hr.place_eq_iff]
    exact List.singleton_inj
  constructor
  · rw [hids, hns.state]
  · intro rest
    have hparts : n'.parts = ns := by
      cases hr with
      | kept hplaces => exact (hns.kept hplaces).symm
      | remade _ _ hp _ => exact hp
    refine .cons (.around h hr.alike (hids ▸ hparts ▸ hns.filled rest) ?_) (.nil rest)
    rw [hr.place_eq_iff, hns.place, hids, identifiers_of_parts h, List.map_append,
      prefix_append_iff, eq_comm]
    rw [List.length_map, List.length_map, length_mapM]
  · intro hplaces
    obtain rfl := hns.kept (hplace.1 hplaces)
    rw [hr.eq_self]
  · rw [hplace, hns.place, hids]

theorem block {b b' : Block Origin} (h : Answered answer [⟨.block, b⟩] s [⟨.block, b'⟩] t) :
    Answered answer [⟨.stmt, .block b⟩] s [⟨.stmt, .block b'⟩] t := by
  have hids : [⟨.stmt, .block b⟩].flatMap Node.identifiers =
      [⟨.block, b⟩].flatMap Node.identifiers := by
    rw [List.flatMap_singleton, List.flatMap_singleton, identifiers_of_parts rfl,
      identifiers_of_parts rfl]
    rfl
  constructor
  · rw [hids, h.state]
  · intro rest
    rw [hids]
    obtain _ | ⟨hb, _ | _⟩ := h.filled rest
    exact .cons (filled_block hb) (.nil rest)
  · intro hplaces
    cases h.kept hplaces
    rfl
  · rw [hids]
    exact h.place

end Answered

theorem visit_of_identifier?_eq_none {k : Kind} {x : Object Origin k}
    {walk : StateM σ (Object Origin k)} (h : identifier? ⟨k, x⟩ = none) :
    (Transform.identifiers answer).visit k x walk = walk := by
  cases k
  case expr =>
    have hname : x.asIdentifier?.isSome = false := by simpa [identifier?] using h
    simp [Transform.identifiers, hname]
  all_goals rfl

/-- The transform answers the identifiers of a tree in pre-order, each from the state that the one
before left, and leaves the last of these states. The answers stand where the identifiers stood,
which determines the tree up to the identities of the objects around them. -/
theorem identifiers_traversal
    (hanswer : ∀ e s, (answer e s).1.origin = e.origin → (answer e s).1 = e)
    (n : Node Origin) (s : σ) :
    let r := (Transform.identifiers answer).node n s
    let run := n.identifiers.mapM answer s
    r.2 = run.2 ∧ Filled n run.1 r.1 [] ∧ ∀ n', Filled n run.1 n' [] → n'.bare = r.1.bare := by
  intro r run
  have h : Answered answer [n] s [r.1] r.2 := by
    refine (Transform.identifiers answer).induction
      (P := fun n s n' t => Answered answer [n] s [n'] t) (fun b s b' t => .block) ?_ n s
    intro k x walk hwalk s
    cases h : identifier? ⟨k, x⟩ with
    | some e =>
      obtain ⟨o, name, hn, rfl⟩ := identifier?_eq_some_iff.1 h
      cases hn
      exact .identifier hanswer h s
    | none =>
      rw [visit_of_identifier?_eq_none h]
      obtain ⟨ns, hns, hr⟩ := hwalk s
      exact .around h (.of_threaded hns) hr
  have hids : [n].flatMap Node.identifiers = n.identifiers := List.flatMap_singleton _ n
  have hfilled : Filled n run.1 r.1 [] := by
    obtain _ | ⟨hn, _ | _⟩ := h.filled []
    rwa [hids, List.append_nil] at hn
  refine ⟨?_, hfilled, fun n' h' => (h'.unique hfilled).1⟩
  rw [← h.state, hids]

end Answered

/-- One of two items is answered by another name, and counted; the list around them is a new one. -/
theorem identifiers_traversal_counts :
    let x : Expr Origin := ⟨.given 1, .identifier "x"⟩
    let y : Expr Origin := ⟨.made (.given 1) 0, .identifier "y"⟩
    let z : Expr Origin := ⟨.given 2, .identifier "z"⟩
    let answer (e : Expr Origin) : StateM Nat (Expr Origin) := fun hits =>
      if e.asIdentifier? = some "x" then (⟨e.origin.remade, .identifier "y"⟩, hits + 1)
      else (e, hits)
    let n : Node Origin := ⟨.exprs, ⟨.given 0, [x, z]⟩⟩
    let r := (Transform.identifiers answer).node n 0
    (∀ e s, (answer e s).1.origin = e.origin → (answer e s).1 = e) ∧ r.2 = 1 ∧
      Filled n [y, z] r.1 [] ∧ r.1.place = some (.made (.given 0) 0) := by
  intro x y z answer n r
  have hanswer (e : Expr Origin) (s : Nat) (h : (answer e s).1.origin = e.origin) :
      (answer e s).1 = e := by
    by_cases hx : e.asIdentifier? = some "x"
    · simp only [answer, if_pos hx] at h
      exact absurd h e.origin.remade_ne
    · simp only [answer, if_neg hx]
  have hids : n.identifiers = [x, z] := by
    rw [identifiers_of_parts rfl]
    change identifiers ⟨.expr, x⟩ ++ (identifiers ⟨.expr, z⟩ ++ []) = _
    rw [identifiers_of_identifier? rfl, identifiers_of_identifier? rfl]
    rfl
  have hrun : n.identifiers.mapM answer 0 = ([y, z], 1) := by
    rw [hids]
    rfl
  obtain ⟨hstate, hfilled, -⟩ := identifiers_traversal hanswer n 0
  rw [hrun] at hstate hfilled
  exact ⟨hanswer, hstate, hfilled, rfl⟩

end ScriptTree
