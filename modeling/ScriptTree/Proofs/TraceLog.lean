import ScriptTree.Proofs.PathCopying
import ScriptTree.Proofs.Survival
import Mathlib.Data.List.Nodup
import Mathlib.Data.List.Pairwise

namespace ScriptTree

open Node

namespace Node

/-- The line that is logged for an object. -/
def call? (n : Node Origin) : Option Call := Call.of? n.kind n.object

section Below

variable {ι : Type} {enter : Node ι → Bool} {a m n : Node ι}

/-- The first object stands strictly below the second. -/
def Below (m n : Node ι) : Prop := ∃ c ∈ n.parts, m ∈ c.preorder fun _ => true

theorem Below.mem_preorder (h : Below m n) : m ∈ n.preorder fun _ => true :=
  Node.mem_preorder.2 (.inr ⟨rfl, h⟩)

theorem mem_preorder_trans (ha : a ∈ n.preorder fun _ => true)
    (hm : m ∈ a.preorder fun _ => true) : m ∈ n.preorder fun _ => true := by
  induction n using Node.induction with
  | step n ih =>
    obtain rfl | ⟨-, c, hc, ha⟩ := mem_preorder.1 ha
    · exact hm
    · exact mem_preorder.2 (.inr ⟨rfl, c, hc, ih c hc ha⟩)

theorem Below.trans (h : Below m a) (ha : a ∈ n.preorder fun _ => true) : Below m n := by
  obtain rfl | ⟨-, c, hc, ha⟩ := Node.mem_preorder.1 ha
  · exact h
  · exact ⟨c, hc, mem_preorder_trans ha h.mem_preorder⟩

end Below

section Distinct

variable {enter : Node Origin → Bool} {a m m' n : Node Origin} {o : Origin}

theorem origins_objects_eq (n : Node Origin) :
    origins n.objects = (n.preorder fun _ => true).filterMap origin? := by
  rw [origins, objects, List.filterMap_map]
  exact List.filterMap_congr fun m _ => asBlock_origin? m

/-- No two objects of the tree are one instance. -/
def Distinct (n : Node Origin) : Prop := (origins n.objects).Nodup

theorem Distinct.eq (h : Distinct n) (hm : m ∈ n.preorder fun _ => true)
    (hm' : m' ∈ n.preorder fun _ => true) (ho : m.origin? = some o) (ho' : m'.origin? = some o) :
    m = m' := by
  by_contra hne
  rw [Distinct, origins_objects_eq, List.Nodup, List.pairwise_filterMap] at h
  have hsymm : Std.Symm fun x y : Node Origin =>
      ∀ p, x.origin? = some p → ∀ q, y.origin? = some q → p ≠ q :=
    ⟨fun _ _ h p hp q hq => (h q hq p hp).symm⟩
  exact h.forall hm hm' hne o ho o ho' rfl

theorem Distinct.below (h : Distinct n) : (n.parts.flatMap fun c => origins c.objects).Nodup := by
  have hsublist := (objects_below_sublist n).filterMap origin?
  rw [List.filterMap_flatMap] at hsublist
  exact h.sublist hsublist

theorem Distinct.part {c : Node Origin} (h : Distinct n) (hc : c ∈ n.parts) : Distinct c :=
  (List.nodup_flatMap.1 h.below).1 c hc

end Distinct

end Node

def Call.origin? : Call → Option Origin
  | .object _ o => some o
  | .label _ => none

namespace Edits

variable (E : Edits)

/-- Visits every object and answers it by itself. -/
def none : Edits := ⟨fun _ => .none, fun _ => false, fun _ _ => false⟩

/-- What is logged of a tree. -/
def calls (n : Node Origin) : List Call := (n.preorder fun m => !E.stops m).filterMap call?

variable {E}

end Edits

end ScriptTree
