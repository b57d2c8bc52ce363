import ScriptTree.Relabel
import ScriptTree.Transform

namespace ScriptTree

namespace Origin

/-- The next free number, which it takes. -/
def fresh : StateM Nat Origin := fun n => (given n, n + 1)

/-- The number of an object among the first `known` that were handed in. -/
def known? (known : Nat) : Origin → Option Nat
  | given n => if n < known then some n else none
  | made _ _ => none

/-- Keeps a known identity and gives any other the next free number. -/
def settle (known : Nat) (o : Origin) : StateM Nat Origin :=
  match o.known? known with
  | some n => pure (given n)
  | none => fresh

end Origin

namespace Object

variable {ι : Type}

/-- The tree without identities; two trees are structurally equal when these are. -/
def bare (k : Kind) (x : Object ι k) : Object Unit k :=
  Id.run (Relabel.object (fun _ => pure ()) k x)

/-- Numbers the objects of a tree from `start` on in pre-order, and answers the next free number. -/
def number (start : Nat) (k : Kind) (x : Object ι k) : Object Origin k × Nat :=
  Relabel.object (fun _ => Origin.fresh) k x start

/-- Gives the objects that are not among the first `known` the numbers from `known` on. -/
def settle (known : Nat) (k : Kind) (x : Object Origin k) : Object Origin k × Nat :=
  Relabel.object (Origin.settle known) k x known

end Object

/-- Records the number of every known object without going below it, and nothing for every other. -/
def Transform.census (known : Nat) : Transform (Array (Option Nat)) where
  visit k x walk :=
    match Object.origin? k x with
    | none => walk
    | some o => do
      let n := o.known? known
      modify (·.push n)
      if n.isSome then pure x else walk

/-- The objects of a tree in pre-order, down to those among the first `known`. -/
def Object.census (known : Nat) (k : Kind) (x : Object Origin k) : List (Option Nat) :=
  ((Transform.census known).object k x #[]).2.toList

/-- What a transform makes of a tree: the answer, which of its objects the tree held, and whether it is
the tree itself. -/
structure Answer (k : Kind) where
  object : Object Origin k
  census : List (Option Nat)
  isSame : Bool

/-- Numbers a tree and answers it. -/
def Transform.answer {σ : Type} (T : Transform σ) (k : Kind) (x : Object Unit k) :
    StateM σ (Answer k) := do
  let (x, known) := Object.number 0 k x
  let y ← T.object k x
  return ⟨y, Object.census known k y, Object.same k y x⟩

end ScriptTree
