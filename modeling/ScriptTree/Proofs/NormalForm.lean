import ScriptTree.Proofs.Identity

namespace ScriptTree

namespace Node

variable {ι : Type}

/-- Every object of the tree satisfies the predicate. -/
def All (P : Node ι → Prop) (n : Node ι) : Prop := ∀ m ∈ n.preorder fun _ => true, P m

section All

variable {P : Node ι → Prop} {n c : Node ι}

theorem All.self (h : All P n) : P n := h n (mem_preorder_self _ n)

theorem All.part (h : All P n) (hc : c ∈ n.parts) : All P c :=
  fun m hm => h m (mem_preorder.2 (.inr ⟨rfl, c, hc, hm⟩))

theorem All.intro (h : P n) (hparts : ∀ c ∈ n.parts, All P c) : All P n := by
  intro m hm
  obtain rfl | ⟨-, c, hc, hm⟩ := mem_preorder.1 hm
  · exact h
  · exact hparts c hc m hm

theorem All.leaf (h : P n) (hp : n.parts = []) : All P n :=
  .intro h fun _ hc => absurd (hp ▸ hc) List.not_mem_nil

end All

theorem all_block {P : Node ι → Prop} (hP : ∀ b, P ⟨.block, b⟩ ∧ P ⟨.stmt, .block b⟩)
    {b : Block ι} : All P ⟨.stmt, .block b⟩ ↔ All P ⟨.block, b⟩ :=
  ⟨fun h => .intro (hP b).1 fun _ => h.part, fun h => .intro (hP b).2 fun _ => h.part⟩

theorem Separate.all {n : Node Origin} (h : Separate n) : All Separate n := by
  induction n using Node.induction with
  | step n ih => exact .intro h fun c hc => ih c hc (h.part hc)

section Keeps

variable {α : Type} (f : Node Origin → α) (P : Node Origin → Prop)

/-- Two objects that are alike agree on `f` if their parts do. -/
def Local : Prop := ∀ n z : Node Origin, n.Alike z → n.parts.map f = z.parts.map f → f n = f z

/-- The predicate passes between objects that are alike and whose parts agree on `f`. -/
def Transfers : Prop :=
  ∀ n z : Node Origin, n.Alike z → n.parts.map f = z.parts.map f → P n → P z

/-- The answer of an object that has the property throughout has it too, and they agree on `f`. -/
def Keeps (n n' : Node Origin) : Prop := (All P n → All P n') ∧ f n = f n'

variable {f P}

theorem Keeps.refl (n : Node Origin) : Keeps f P n n := ⟨id, rfl⟩

theorem Keeps.all_parts {n z : Node Origin} (hp : List.Forall₂ (Keeps f P) n.parts z.parts)
    (h : All P n) : ∀ c ∈ z.parts, All P c := by
  intro c' hc'
  obtain ⟨c, hc, hcc⟩ := exists_of_mem_right hp hc'
  exact hcc.1 (h.part hc)

theorem Keeps.map_parts {n z : Node Origin} (hp : List.Forall₂ (Keeps f P) n.parts z.parts) :
    n.parts.map f = z.parts.map f :=
  map_eq_map_iff_forall₂.2 (hp.imp fun _ _ h => h.2)

theorem Keeps.of_parts (hf : Local f) (hP : Transfers f P) {n z : Node Origin} (ha : n.Alike z)
    (hp : List.Forall₂ (Keeps f P) n.parts z.parts) : Keeps f P n z :=
  ⟨fun h => .intro (hP n z ha (map_parts hp) h.self) (all_parts hp h), hf n z ha (map_parts hp)⟩

theorem Keeps.block (hP : ∀ b, P ⟨.block, b⟩ ∧ P ⟨.stmt, .block b⟩)
    (hf : ∀ b, f ⟨.stmt, .block b⟩ = f ⟨.block, b⟩) {b b' : Block Origin}
    (h : Keeps f P ⟨.block, b⟩ ⟨.block, b'⟩) : Keeps f P ⟨.stmt, .block b⟩ ⟨.stmt, .block b'⟩ :=
  ⟨fun hb => (all_block hP).2 (h.1 ((all_block hP).1 hb)), by rw [hf, hf, h.2]⟩

end Keeps

/-- How many items a list of expressions has. -/
def width (n : Node ι) : Nat := if n.kind = .exprs then n.parts.length else 0

theorem width_local : Local width := by
  intro n z ha hp
  have hlength : n.parts.length = z.parts.length := by simpa using congrArg List.length hp
  rw [width, width, ha.kind_eq, hlength]

end Node

namespace Transform

open Node

variable {σ : Type}

/-- A transform that answers each object with a property by itself, once its parts are, answers a
tree of such objects by itself. -/
theorem fixes (T : Transform σ) {P : Node Origin → Prop}
    (block : ∀ b, P ⟨.stmt, .block b⟩ → P ⟨.block, b⟩)
    (visit : ∀ k x walk s, P ⟨k, x⟩ → walk s = (x, s) → T.visit k x walk s = (x, s))
    {n : Node Origin} (h : All P n) (s : σ) : T.node n s = (n, s) := by
  have hfix : (T.node n s).1 = n ∧ (T.node n s).2 = s := by
    refine T.induction (P := fun n s n' s' => All P n → n' = n ∧ s' = s) ?_ ?_ n s h
    · intro b s b' s' ih hb
      obtain ⟨hb', rfl⟩ := ih (.intro (block b hb.self) fun _ => hb.part)
      cases hb'
      exact ⟨rfl, rfl⟩
    · intro k x walk hwalk s hx
      -- the walk answers the parts by themselves and keeps the object, and so does the visit
      obtain ⟨ns, hns, hr⟩ := hwalk s
      obtain ⟨rfl, hs⟩ := hns.eq_self fun c hc s c' t h => h (hx.part hc)
      have hself : (walk s).1 = x := eq_of_heq (Node.mk.inj hr.eq_self).2
      rw [visit k x walk s hx.self (Prod.ext hself hs)]
      exact ⟨rfl, rfl⟩
  exact Prod.ext hfix.1 hfix.2

end Transform

end ScriptTree
