namespace ScriptTree

/-- The identity of an object of a tree: the number under which it was handed in, or the object in
whose place it was made. Two objects with one origin are one instance. -/
inductive Origin where
  | given (n : Nat)
  | made (place : Origin) (k : Nat)
  deriving DecidableEq, Repr

namespace Origin

/-- The identity of a changed copy. -/
def remade (o : Origin) : Origin := .made o 0

theorem made_ne (o : Origin) (k : Nat) : made o k ≠ o := by
  intro h
  have := congrArg sizeOf h
  simp only [made.sizeOf_spec] at this
  omega

theorem remade_ne (o : Origin) : o.remade ≠ o := made_ne o 0

/-- The number of an object that was handed in and not made since. -/
def number? : Origin → Option Nat
  | given n => some n
  | made _ _ => none

end Origin

/-- Whatever can be the same instance as another: an object has an origin, an absent child none. -/
class Placed (α : Type) where
  origin? : α → Option Origin

export Placed (origin?)

def same {α : Type} [Placed α] (a b : α) : Bool := origin? a = origin? b

theorem same_self {α : Type} [Placed α] (a : α) : same a a := decide_eq_true rfl

theorem same_symm {α : Type} [Placed α] {a b : α} (h : same a b) : same b a :=
  decide_eq_true (of_decide_eq_true h).symm

instance {α : Type} [Placed α] : Placed (Option α) := ⟨fun x => x.bind origin?⟩

/-- A sequence of children is itself an object. -/
structure NodeList (ι α : Type) where
  origin : ι
  items : List α

instance {α : Type} : Placed (NodeList Origin α) := ⟨fun l => some l.origin⟩

namespace NodeList

variable {α σ : Type} [Placed α]

/-- The list with new items; the very list where every item is the instance it replaces. -/
def update (l : NodeList Origin α) (items : List α) : NodeList Origin α :=
  if items.map origin? = l.items.map origin? then l else ⟨l.origin.remade, items⟩

@[simp] theorem update_items (l : NodeList Origin α) : l.update l.items = l := by simp [update]

/-- Answers the items in order until one is answered by another instance: the items before it stay,
and the answers stand from there on. None where no item is. -/
def changed? (f : α → StateM σ α) : List α → StateM σ (Option (List α))
  | [] => return none
  | a :: as => do
    let b ← f a
    if same b a then return (← changed? f as).map (a :: ·)
    else return some (b :: (← as.mapM f))

/-- Answers every item in order, keeping the list where every answer is its item. -/
def mapM (f : α → StateM σ α) (l : NodeList Origin α) : StateM σ (NodeList Origin α) := do
  match ← changed? f l.items with
  | none => return l
  | some items => return ⟨l.origin.remade, items⟩

end NodeList

end ScriptTree
