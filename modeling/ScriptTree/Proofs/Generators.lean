import ScriptTree.Proofs.Lasting

namespace ScriptTree

open Node

variable {ι : Type}

namespace Node

def isYield : Node ι → Bool := own fun
  | ⟨.stmt, .node _ (.yield _)⟩ => true
  | _ => false

/-- A silent object is no function and does not yield. -/
theorem isYield_of_silent {n : Node ι} (h : n.silent) :
    n.isFunction = false ∧ n.isYield = false := by
  obtain ⟨k, x⟩ := n
  cases k
  case expr => rcases x with ⟨_, _ | _⟩ <;> first | exact ⟨rfl, rfl⟩ | exact absurd h nofun
  case stmt => rcases x with _ | ⟨_, _ | _⟩ <;> first | exact ⟨rfl, rfl⟩ | exact absurd h nofun
  case label => cases x <;> exact ⟨rfl, rfl⟩
  all_goals exact ⟨rfl, rfl⟩

theorem isYield_of_isFunction {n : Node ι} (h : n.isFunction) : n.isYield = false := by
  obtain ⟨k, x⟩ := n
  cases k
  case stmt => rcases x with _ | ⟨_, _ | _⟩ <;> first | rfl | exact absurd h nofun
  case label => cases x <;> rfl
  all_goals rfl

/-- Whether there is a `yield` outside nested functions, and for each nested function in order
whether there is one in it. -/
def yielding : Gathering (Bool × List Bool) where
  join below := (below.any (·.1), below.flatMap (·.2))
  around n found :=
    if n.isFunction then (false, found.1 :: found.2) else (n.isYield || found.1, found.2)
  join_singleton found := by simp
  join_nil_cons below := by simp
  join_append_nil below := by simp
  around_silent n h := by
    obtain ⟨hfun, hyield⟩ := isYield_of_silent h
    funext found
    rw [hfun, hyield]
    rfl

/-- A `yield` stands outside nested functions, as far as the selected parts go. -/
def yields (S : Selection ι) (n : Node ι) : Bool := (yielding.gather S n).1

/-- Which of the functions in an object are generators, as far as the selected parts go. -/
def generators (S : Selection ι) (n : Node ι) : List Bool := (yielding.gather S n).2

theorem yields_eq (S : Selection ι) (n : Node ι) :
    n.yields S = (n.isYield || !n.isFunction && (S.parts n).any (yields S)) := by
  have hbelow : ((S.parts n).map (yielding.gather S)).any (·.1) = (S.parts n).any (yields S) := by
    rw [List.any_map]
    rfl
  have hyield : n.head.isYield = n.isYield := own_head _ n
  have hfun : n.head.isFunction = n.isFunction := own_head _ n
  rw [yields, yielding.gather_eq, ← hyield, ← hfun, ← hbelow]
  change (if n.head.isFunction then _ else _ : Bool × List Bool).1 = _
  cases hfun : n.head.isFunction
  · rfl
  · rw [isYield_of_isFunction hfun]
    rfl

theorem yields_all (n : Node ι) : n.yields .all = n.scope.any isYield := by
  induction n using Node.induction with
  | step n ih =>
    have hparts : n.parts.any (yields .all) = (n.parts.flatMap scope).any isYield := by
      rw [Bool.eq_iff_iff, List.any_flatMap, List.any_eq_true, List.any_eq_true]
      exact exists_congr fun c => and_congr_right fun hc => by rw [ih c hc]
    rw [yields_eq, scope, preorder_eq, List.any_cons]
    cases n.isFunction
    · exact congrArg _ hparts
    · rfl

/-- What a selection leaves out adds no `yield`. -/
theorem yields_all_of_yields {S : Selection ι} {n : Node ι} (h : n.yields S) : n.yields .all := by
  induction n using Node.induction with
  | step n ih =>
    rw [yields_eq, Bool.or_eq_true, Bool.and_eq_true] at h ⊢
    refine h.imp_right fun ⟨hfun, hparts⟩ => ⟨hfun, ?_⟩
    obtain ⟨c, hc, hyields⟩ := List.any_eq_true.1 hparts
    have hc := S.mem_parts n c hc
    exact List.any_eq_true.2 ⟨c, hc, ih c hc hyields⟩

end Node

namespace Fold

/-- Folding leaves the `yield`s of the parts that it keeps and adds none. So a function, or a list of
statements, yields afterwards exactly where one of these parts does. -/
theorem fold_yields (start : Nat) (k : Kind) (x : Object Unit k) (folded : Nat) :
    let x₀ := (Object.number start k x).1
    let r := (transform.object k x₀ folded).1
    (Node.mk k r).scope.any isYield = Node.yields .lasting ⟨k, x₀⟩ ∧
      Node.generators .all ⟨k, r⟩ = Node.generators .lasting ⟨k, x₀⟩ ∧
      ((Node.mk k r).scope.any isYield → (Node.mk k x₀).scope.any isYield) := by
  intro x₀ r
  have hgather : yielding.gather .all ⟨k, r⟩ = yielding.gather .lasting ⟨k, x₀⟩ :=
    (folds (number_separate start k x) folded).gather yielding
  have hyields : (Node.mk k r).scope.any isYield = Node.yields .lasting ⟨k, x₀⟩ := by
    rw [← yields_all]
    exact congrArg Prod.fst hgather
  refine ⟨hyields, congrArg Prod.snd hgather, fun h => ?_⟩
  rw [hyields] at h
  rw [← yields_all]
  exact yields_all_of_yields h

/-- The only `yield` of a function goes with the branch that does not run. -/
theorem fold_drops_yield :
    let p : Program Unit := ⟨(), [.node () (.function "f" [] ⟨(), ⟨(),
      [.node () (.ifElse ⟨(), .constant (.bool false)⟩
        ⟨(), ⟨(), [.node () (.yield none)]⟩⟩ none)]⟩⟩)]⟩
    let p₀ := (Object.number 0 .stmts p).1
    Node.generators .all ⟨.stmts, p₀⟩ = [true] ∧
      Node.generators .all ⟨.stmts, (transform.stmts p₀ 0).1⟩ = [false] := by
  intro p p₀
  exact ⟨by decide +kernel, by decide +kernel⟩

end Fold

end ScriptTree
