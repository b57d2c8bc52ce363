import ScriptTree.Proofs.Traversal

namespace ScriptTree

namespace Origin

/-- An object of the second origin is of the first, or was made in the place of such an object. -/
inductive Covers (o : Origin) : Origin → Prop
  | refl : Covers o o
  | made {p : Origin} (k : Nat) : Covers o p → Covers o (.made p k)

namespace Covers

variable {o p q : Origin}

theorem trans (h : o.Covers p) (h' : p.Covers q) : o.Covers q := by
  induction h' with
  | refl => exact h
  | made k _ ih => exact .made k ih

theorem place {k : Nat} (h : (Origin.made o k).Covers p) : o.Covers p :=
  (Covers.refl.made k).trans h

theorem eq_or_lt (h : o.Covers p) : p = o ∨ sizeOf o < sizeOf p := by
  induction h with
  | refl => exact .inl rfl
  | made k _ ih =>
    right
    rw [Origin.made.sizeOf_spec]
    obtain rfl | h := ih <;> omega

theorem antisymm (h : o.Covers p) (h' : p.Covers o) : p = o := by
  -- whatever is made is larger than its place
  obtain h | h := h.eq_or_lt
  · exact h
  · obtain h' | h' := h'.eq_or_lt
    · exact h'.symm
    · omega

theorem ne_of_place {k : Nat} (h : (Origin.made o k).Covers p) : p ≠ o := by
  rintro rfl
  exact made_ne p k (antisymm h (Covers.refl.made k)).symm

theorem total {r : Origin} (h : o.Covers r) (h' : p.Covers r) : o.Covers p ∨ p.Covers o := by
  induction h with
  | refl => exact .inr h'
  | made k h ih =>
    cases h' with
    | refl => exact .inl (h.made k)
    | made _ h' => exact ih h'

/-- What is made in one place under different numbers has nothing in common. -/
theorem index_eq {i j : Nat} (h : (Origin.made o i).Covers p) (h' : (Origin.made o j).Covers p) :
    i = j := by
  have hne (i j : Nat) (h : (Origin.made o i).Covers (.made o j)) : i = j := by
    cases h with
    | refl => rfl
    | made _ h => exact absurd rfl h.ne_of_place
  obtain h | h := h.total h'
  · exact hne i j h
  · exact (hne j i h).symm

theorem number_eq {m n : Nat} (h : (given m).Covers p) (h' : (given n).Covers p) : m = n := by
  have hne (m n : Nat) (h : (given m).Covers (given n)) : m = n := by
    cases h
    rfl
  obtain h | h := h.total h'
  · exact hne m n h
  · exact (hne n m h).symm

end Covers

end Origin

namespace Node

/-- The origins of the objects of a tree, and all that can be made in their places. -/
inductive Region : Node Origin → Origin → Prop
  | own {n o p} : n.origin? = some o → o.Covers p → Region n p
  | part {n c p} : c ∈ n.parts → Region c p → Region n p

/-- No object below another is the same one or made in its place, nor the other way round. -/
inductive Separate : Node Origin → Prop
  | intro {n} : (∀ o p, n.origin? = some o → o.Covers p → ∀ c ∈ n.parts, ¬Region c p) →
      (∀ c ∈ n.parts, Separate c) → Separate n

/-- The origins below an object, and those that are made in its place. -/
def Inner (n : Node Origin) (p : Origin) : Prop :=
  (∃ o, n.origin? = some o ∧ o.Covers p ∧ p ≠ o) ∨ ∃ c ∈ n.parts, Region c p

/-- The object by which a node is told from others, which for a label is its expression. -/
def core : Node Origin → Node Origin
  | ⟨.label, .value e⟩ => ⟨.expr, e⟩
  | n => n

theorem region_iff {n : Node Origin} {p : Origin} :
    Region n p ↔ (∃ o, n.origin? = some o ∧ o.Covers p) ∨ ∃ c ∈ n.parts, Region c p := by
  constructor
  · intro h
    cases h with
    | own ho hp => exact .inl ⟨_, ho, hp⟩
    | part hc hp => exact .inr ⟨_, hc, hp⟩
  · rintro (⟨o, ho, hp⟩ | ⟨c, hc, hp⟩)
    · exact .own ho hp
    · exact .part hc hp

theorem Separate.own {n : Node Origin} (h : Separate n) {o p : Origin} (ho : n.origin? = some o)
    (hp : o.Covers p) {c : Node Origin} (hc : c ∈ n.parts) : ¬Region c p := by
  cases h with
  | intro hown _ => exact hown o p ho hp c hc

theorem Separate.part {n c : Node Origin} (h : Separate n) (hc : c ∈ n.parts) : Separate c := by
  cases h with
  | intro _ hparts => exact hparts c hc

theorem Inner.region {n : Node Origin} {p : Origin} (h : Inner n p) : Region n p := by
  obtain ⟨o, ho, hp, -⟩ | ⟨c, hc, hp⟩ := h
  · exact .own ho hp
  · exact .part hc hp

theorem region_block {b : Block Origin} {p : Origin} :
    Region ⟨.stmt, .block b⟩ p ↔ Region ⟨.block, b⟩ p := by
  rw [region_iff, region_iff]
  rfl

theorem separate_block {b : Block Origin} :
    Separate ⟨.stmt, .block b⟩ ↔ Separate ⟨.block, b⟩ := by
  constructor <;> intro h
  · exact .intro (fun _ _ ho hp _ hc => h.own ho hp hc) fun _ hc => h.part hc
  · exact .intro (fun _ _ ho hp _ hc => h.own ho hp hc) fun _ hc => h.part hc

theorem core_eq {n : Node Origin} {o : Origin} (h : n.origin? = some o) : n.core = n := by
  obtain ⟨k, x⟩ := n
  cases k <;> first | rfl | cases h

theorem place_eq_core (n : Node Origin) : n.place = n.core.origin? := by
  obtain ⟨k, x⟩ := n
  cases k
  case label => cases x <;> rfl
  all_goals rfl

theorem core_region {n : Node Origin} {p : Origin} : Region n.core p ↔ Region n p := by
  by_cases h : n.core = n
  · rw [h]
  · obtain ⟨k, x⟩ := n
    cases k <;> try exact absurd rfl h
    cases x with
    | value e =>
      refine ⟨.part List.mem_cons_self, fun hp => ?_⟩
      obtain ⟨o, ho, -⟩ | ⟨c, hc, hp⟩ := region_iff.1 hp
      · exact absurd ho nofun
      · obtain rfl := List.mem_singleton.1 hc
        exact hp
    | default => exact absurd rfl h

theorem core_separate {n : Node Origin} (h : Separate n) : Separate n.core := by
  obtain ⟨k, x⟩ := n
  cases k <;> try exact h
  cases x with
  | value e => exact h.part List.mem_cons_self
  | default => exact h

theorem Separate.place_not_inner {n : Node Origin} (h : Separate n) {o : Origin}
    (ho : n.place = some o) : ¬Inner n.core o := by
  rw [place_eq_core] at ho
  have hcore : Separate n.core := core_separate h
  rintro (⟨o', ho', -, hne⟩ | ⟨c, hc, hp⟩)
  · have heq : some o = some o' := ho.symm.trans ho'
    exact hne (Option.some.inj heq)
  · exact hcore.own ho .refl hc hp

/-- An answer all of whose origins are inner ones of the object. -/
structure Fresh (n n' : Node Origin) : Prop where
  separate : Separate n'
  inner : ∀ p, Region n' p → Inner n.core p

theorem exists_place {n : Node Origin} (h : n ≠ ⟨.label, .default⟩) : ∃ o, n.place = some o := by
  obtain ⟨k, x⟩ := n
  cases k <;> try exact ⟨_, rfl⟩
  cases x with
  | value e => exact ⟨_, rfl⟩
  | default => exact absurd rfl h

/-- Only the default label has no place of its own. -/
theorem Fresh.place_ne {n n' : Node Origin} (h : Fresh n n') (hn : Separate n)
    (hd : n ≠ ⟨.label, .default⟩) : n'.place ≠ n.place := by
  intro hplace
  obtain ⟨o, ho⟩ := exists_place hd
  have ho' : n'.core.origin? = some o := by rw [← place_eq_core, hplace, ho]
  have hp : Region n' o := core_region.1 (.own ho' .refl)
  exact hn.place_not_inner ho (h.inner o hp)

/-- An answer is the object itself, or has nothing of the object's own place. -/
def Tame (n n' : Node Origin) : Prop := n' = n ∨ Fresh n n'

namespace Tame

variable {n n' : Node Origin}

theorem separate (h : Tame n n') (hn : Separate n) : Separate n' := by
  obtain rfl | h := h
  · exact hn
  · exact h.separate

theorem region (h : Tame n n') {p : Origin} (hp : Region n' p) : Region n p := by
  obtain rfl | h := h
  · exact hp
  · exact core_region.1 (h.inner p hp).region

theorem fresh_trans {n'' : Node Origin} (h : Tame n n') (h' : Fresh n' n'') : Fresh n n'' := by
  obtain rfl | h := h
  · exact h'
  · refine ⟨h'.separate, fun p hp => ?_⟩
    have hregion : Region n' p := core_region.1 (h'.inner p hp).region
    exact h.inner p hregion

theorem eq_of_place_eq (h : Tame n n') (hn : Separate n) (hplace : n'.place = n.place) :
    n' = n := by
  obtain rfl | h := h
  · rfl
  · by_cases hd : n = ⟨.label, .default⟩
    · by_contra hne
      obtain ⟨o, ho⟩ := exists_place (hd ▸ hne)
      rw [hplace, hd] at ho
      exact absurd ho nofun
    · exact absurd hplace (h.place_ne hn hd)

end Tame

theorem eq_of_places_eq {ns cs : List (Node Origin)} (h : List.Forall₂ Tame cs ns)
    (hcs : ∀ c ∈ cs, Separate c) (hplaces : ns.map place = cs.map place) : ns = cs := by
  induction h with
  | nil => rfl
  | cons hc _ ih =>
    obtain ⟨hplace, htail⟩ := List.cons.inj hplaces
    obtain ⟨hs, hcs⟩ := List.forall_mem_cons.1 hcs
    rw [hc.eq_of_place_eq hs hplace, ih hcs htail]

/-- An answer whose objects lie in the parts of `n`, or were made in its place `o` under numbers
from `i` on. -/
structure Slotted (n : Node Origin) (o : Origin) (i : Nat) (n' : Node Origin) : Prop where
  separate : Separate n'
  region : ∀ p, Region n' p → (∃ j ≥ i, (Origin.made o j).Covers p) ∨ ∃ c ∈ n.parts, Region c p

namespace Slotted

variable {n n' : Node Origin} {o : Origin} {i : Nat}

theorem of_part {c : Node Origin} (hc : c ∈ n.parts) (hs : Separate n')
    (h : ∀ p, Region n' p → Region c p) : Slotted n o i n' :=
  ⟨hs, fun p hp => .inr ⟨c, hc, h p hp⟩⟩

/-- A new object takes a number below those of its parts. -/
theorem object (hn : Separate n) (ho : n.origin? = some o) (ho' : n'.origin? = some (.made o i))
    (hparts : ∀ c ∈ n'.parts, Slotted n o (i + 1) c) : Slotted n o i n' := by
  constructor
  · refine .intro ?_ fun c hc => (hparts c hc).separate
    intro o' p heq hp c hc hcp
    obtain rfl := Option.some.inj (ho'.symm.trans heq)
    -- a part was made under another number, or comes from below the old object
    obtain ⟨j, hj, hjp⟩ | ⟨d, hd, hdp⟩ := (hparts c hc).region p hcp
    · have := hp.index_eq hjp
      omega
    · exact hn.own ho hp.place hd hdp
  · intro p hp
    obtain ⟨o', heq, hp⟩ | ⟨c, hc, hp⟩ := region_iff.1 hp
    · obtain rfl := Option.some.inj (ho'.symm.trans heq)
      exact .inl ⟨i, Nat.le_refl i, hp⟩
    · obtain ⟨j, hj, hjp⟩ | h := (hparts c hc).region p hp
      · exact .inl ⟨j, by omega, hjp⟩
      · exact .inr h

theorem leaf (hn : Separate n) (ho : n.origin? = some o) (ho' : n'.origin? = some (.made o i))
    (hp : n'.parts = []) : Slotted n o i n' :=
  .object hn ho ho' fun _ hc => absurd (hp ▸ hc) List.not_mem_nil

theorem mono {j : Nat} (h : Slotted n o j n') (hij : i ≤ j) : Slotted n o i n' := by
  refine ⟨h.separate, fun p hp => ?_⟩
  obtain ⟨k, hk, hkp⟩ | h := h.region p hp
  · exact .inl ⟨k, Nat.le_trans hij hk, hkp⟩
  · exact .inr h

theorem fresh (h : Slotted n o i n') (ho : n.origin? = some o) : Fresh n n' := by
  refine ⟨h.separate, fun p hp => ?_⟩
  rw [core_eq ho]
  obtain ⟨j, -, hjp⟩ | h := h.region p hp
  · exact .inl ⟨o, ho, hjp.place, hjp.ne_of_place⟩
  · exact .inr h

end Slotted

/-- A part of a part, given in place of the whole. -/
theorem fresh_of_mem_parts {n c d : Node Origin} {o : Origin} (hn : Separate n)
    (ho : n.origin? = some o) (hc : c ∈ n.parts) (hd : d ∈ c.parts) : Fresh n d := by
  refine ⟨(hn.part hc).part hd, fun p hp => ?_⟩
  rw [core_eq ho]
  exact .inr ⟨c, hc, .part hd hp⟩

theorem fresh_of_part {n c : Node Origin} {o : Origin} (hn : Separate n)
    (ho : n.origin? = some o) (hc : c ∈ n.parts) : Fresh n c := by
  refine ⟨hn.part hc, fun p hp => ?_⟩
  rw [core_eq ho]
  exact .inr ⟨c, hc, hp⟩

theorem tame_block {b b' : Block Origin} (h : Tame ⟨.block, b⟩ ⟨.block, b'⟩) :
    Tame ⟨.stmt, .block b⟩ ⟨.stmt, .block b'⟩ := by
  obtain h | h := h
  · cases h
    exact .inl rfl
  · exact .inr ⟨separate_block.2 h.separate, fun p hp => h.inner p (region_block.1 hp)⟩

/-- A traversal of separate parts is exact. -/
theorem Rebuilt.parts_eq {n n' : Node Origin} {ns : List (Node Origin)} (h : n.Rebuilt ns n')
    (hn : Separate n) (hns : List.Forall₂ Tame n.parts ns) : n'.parts = ns := by
  cases h with
  | kept hplaces => exact (eq_of_places_eq hns (fun _ => hn.part) hplaces).symm
  | remade _ _ hp _ => exact hp

theorem tame_label {n n' : Node Origin} (hk : n.kind = .label) (ha : n.Alike n')
    (hparts : List.Forall₂ Tame n.parts n'.parts) : Tame n n' := by
  obtain ⟨k, l⟩ := n
  obtain ⟨k', l'⟩ := n'
  obtain rfl : k = .label := hk
  obtain rfl : k' = .label := ha.kind_eq.symm
  cases l <;> cases l' <;> try cases ha
  · rename_i e e'
    obtain ⟨he, -⟩ := List.forall₂_cons.1 hparts
    obtain he | he := he
    · cases he
      exact .inl rfl
    · refine .inr ⟨.intro nofun ?_, fun p hp => he.inner p (core_region.2 hp)⟩
      intro c hc
      obtain rfl := List.mem_singleton.1 hc
      exact he.separate
  · exact .inl rfl

theorem Rebuilt.tame {n n' : Node Origin} {ns : List (Node Origin)} (h : n.Rebuilt ns n')
    (hn : Separate n) (hns : List.Forall₂ Tame n.parts ns) : Tame n n' := by
  cases h with
  | kept _ => exact .inl rfl
  | remade _ ha hp ho =>
    by_cases hk : n.kind = .label
    · exact tame_label hk ha (hp ▸ hns)
    · obtain ⟨o, hno⟩ := exists_origin? hk
      rw [hno] at ho
      have hslot : Slotted n o 0 n' := by
        refine .object hn hno ho fun c' hc' => ?_
        obtain ⟨c, hc, hcc⟩ := exists_of_mem_right hns (hp ▸ hc')
        exact .of_part hc (hcc.separate (hn.part hc)) fun _ => hcc.region
      exact .inr (hslot.fresh hno)

/-- A walk with tame answers for the parts of a separate object has one for the object. -/
theorem Walked.tame {σ : Type} {n : Node Origin} {walk : StateM σ (Object Origin n.kind)}
    (h : n.Walked (fun n _ n' _ => n.Tame n') walk) (hn : Separate n) (s : σ) :
    Tame n ⟨n.kind, (walk s).1⟩ := by
  obtain ⟨ns, hns, hr⟩ := h s
  have htame : List.Forall₂ Tame n.parts ns := hns.forall₂ fun _ _ _ _ _ h => h
  exact hr.tame hn htame

end Node

namespace Transform

variable {σ : Type}

/-- What the transform answers is tame once the answers of the parts are. -/
def IsTame (T : Transform σ) : Prop :=
  ∀ k x walk, Node.Separate ⟨k, x⟩ → Node.Walked (fun n _ n' _ => n.Tame n') ⟨k, x⟩ walk →
    ∀ s, Node.Tame ⟨k, x⟩ ⟨k, (T.visit k x walk s).1⟩

/-- On separate trees the answers of a tame transform are tame, and may be taken to be in a proof
about its runs. -/
theorem tame_induction (T : Transform σ) (hT : T.IsTame)
    {P : Node Origin → σ → Node Origin → σ → Prop}
    (block : ∀ b s b' s', P ⟨.block, b⟩ s ⟨.block, b'⟩ s' →
      P ⟨.stmt, .block b⟩ s ⟨.stmt, .block b'⟩ s')
    (visit : ∀ k x walk, Node.Separate ⟨k, x⟩ →
      Node.Walked (fun n s n' s' => n.Tame n' ∧ P n s n' s') ⟨k, x⟩ walk →
      ∀ s, P ⟨k, x⟩ s ⟨k, (T.visit k x walk s).1⟩ (T.visit k x walk s).2)
    (n : Node Origin) (hn : n.Separate) (s : σ) :
    n.Tame (T.node n s).1 ∧ P n s (T.node n s).1 (T.node n s).2 := by
  refine T.induction (P := fun n s n' s' => n.Separate → n.Tame n' ∧ P n s n' s') ?_ ?_ n s hn
  · intro b s b' s' h hb
    obtain ⟨ht, hP⟩ := h (Node.separate_block.1 hb)
    exact ⟨Node.tame_block ht, block b s b' s' hP⟩
  · intro k x walk hwalk s hx
    have hparts : Node.Walked (fun n s n' s' => n.Tame n' ∧ P n s n' s') ⟨k, x⟩ walk := by
      intro s
      obtain ⟨ns, hns, hr⟩ := hwalk s
      exact ⟨ns, hns.imp fun c hc _ _ _ h => h (hx.part hc), hr⟩
    refine ⟨hT k x walk hx (hparts.imp fun _ _ _ _ h => h.1) s, visit k x walk hx hparts s⟩

/-- On separate trees the parts of a walked object are the answers of its parts. -/
theorem exact_induction (T : Transform σ) (hT : T.IsTame)
    {P : Node Origin → σ → Node Origin → σ → Prop}
    (block : ∀ b s b' s', P ⟨.block, b⟩ s ⟨.block, b'⟩ s' →
      P ⟨.stmt, .block b⟩ s ⟨.stmt, .block b'⟩ s')
    (visit : ∀ k x walk, Node.Separate ⟨k, x⟩ → (∀ s, Node.Alike ⟨k, x⟩ ⟨k, (walk s).1⟩ ∧
        Threaded P (Node.parts ⟨k, x⟩) s (Node.parts ⟨k, (walk s).1⟩) (walk s).2) →
      ∀ s, P ⟨k, x⟩ s ⟨k, (T.visit k x walk s).1⟩ (T.visit k x walk s).2)
    (n : Node Origin) (hn : n.Separate) (s : σ) :
    n.Tame (T.node n s).1 ∧ P n s (T.node n s).1 (T.node n s).2 := by
  refine T.tame_induction hT block (fun k x walk hx hwalk s => visit k x walk hx (fun s => ?_) s)
    n hn s
  -- the parts are tame, and so the walk hands on their very answers
  obtain ⟨ns, hns, hr⟩ := hwalk s
  have hparts := hr.parts_eq hx (hns.forall₂ fun _ _ _ _ _ h => h.1)
  exact ⟨hr.alike, hparts ▸ hns.imp fun _ _ _ _ _ h => h.2⟩

theorem node_tame (T : Transform σ) (hT : T.IsTame) {n : Node Origin} (hn : n.Separate) (s : σ) :
    n.Tame (T.node n s).1 :=
  (T.exact_induction hT (P := fun _ _ _ _ => True) (fun _ _ _ _ _ => trivial)
    (fun _ _ _ _ _ _ => trivial) n hn s).1

/-- A tame transform answers a separate tree by one. -/
theorem node_separate (T : Transform σ) (hT : T.IsTame) {n : Node Origin} (hn : n.Separate)
    (s : σ) : (T.node n s).1.Separate :=
  (T.node_tame hT hn s).separate hn

/-- A visit of a separate object walks to an object around the very answers of its parts. -/
theorem exact_visits (T : Transform σ) (hT : T.IsTame) {n : Node Origin} (hn : n.Separate)
    (h : T.Visits n) : ∃ walk, T.object n.kind n.object = T.visit n.kind n.object walk ∧
      ∀ s, n.Alike ⟨n.kind, (walk s).1⟩ ∧
        Threaded T.Answers n.parts s (Node.parts ⟨n.kind, (walk s).1⟩) (walk s).2 := by
  obtain ⟨walk, hw, hwalk⟩ := h
  refine ⟨walk, hw, fun s => ?_⟩
  obtain ⟨ns, hns, hr⟩ := hwalk s
  have htame : List.Forall₂ Node.Tame n.parts ns := by
    apply hns.forall₂
    intro c hc s d t hd
    have h := T.node_tame hT (hn.part hc) s
    rwa [show T.node c s = (d, t) from hd] at h
  exact ⟨hr.alike, (hr.parts_eq hn htame).symm ▸ hns⟩

/-- A relation between the objects of a separate tree and their answers. What a visit walks to is an
object around the answers of the parts, and what it answers is the answer of the object. -/
theorem exact_relates (T : Transform σ) (hT : T.IsTame) {R : Node Origin → Node Origin → Prop}
    (block : ∀ b b', R ⟨.block, b⟩ ⟨.block, b'⟩ → R ⟨.stmt, .block b⟩ ⟨.stmt, .block b'⟩)
    (visit : ∀ k x walk s, Node.Separate ⟨k, x⟩ → T.object k x s = T.visit k x walk s →
      Node.Alike ⟨k, x⟩ ⟨k, (walk s).1⟩ →
      List.Forall₂ (fun c c' => R c c' ∧ ∃ s, (T.node c s).1 = c') (Node.parts ⟨k, x⟩)
        (Node.parts ⟨k, (walk s).1⟩) → R ⟨k, x⟩ ⟨k, (T.visit k x walk s).1⟩)
    {n : Node Origin} (hn : n.Separate) (s : σ) : R n (T.node n s).1 := by
  induction n using Node.induction generalizing s with
  | step n ih =>
    have own : ∀ m : Node Origin, m.parts = n.parts → m.Separate → T.Visits m →
        R m (T.node m s).1 := by
      intro m hm hseparate hvisits
      obtain ⟨walk, hw, hwalk⟩ := T.exact_visits hT hseparate hvisits
      obtain ⟨ha, hparts⟩ := hwalk s
      have hR := visit m.kind m.object walk s hseparate (congrFun hw s) ha <|
        hparts.forall₂ fun c hc t c' t' h => ?_
      · rwa [← congrFun hw s] at hR
      · have hc' : (T.node c t).1 = c' := congrArg Prod.fst h
        exact ⟨hc' ▸ ih c (hm ▸ hc) (hseparate.part hc) t, t, hc'⟩
    by_cases h : ∃ b, n = ⟨.stmt, .block b⟩
    · obtain ⟨b, rfl⟩ := h
      exact block b _ (own ⟨.block, b⟩ rfl (Node.separate_block.1 hn)
        (T.object_visits _ fun _ => nofun))
    · exact own n rfl hn (T.object_visits n (not_exists.1 h))

end Transform

end ScriptTree
