import ScriptTree.Proofs.Substitution

namespace ScriptTree

open Node Rename

variable {ι : Type} {names : Names}

theorem flatMap_eq_map {α β γ δ : Type} {R : α → β → Prop} {f : α → List γ} {f' : β → List δ}
    {g : γ → δ} {as : List α} {bs : List β} (h : List.Forall₂ R as bs)
    (hf : ∀ a ∈ as, ∀ b, R a b → f' b = (f a).map g) :
    bs.flatMap f' = (as.flatMap f).map g := by
  induction h with
  | nil => rfl
  | cons hab _ ih =>
    obtain ⟨hhead, htail⟩ := List.forall_mem_cons.1 hf
    rw [List.flatMap_cons, List.flatMap_cons, List.map_append, hhead _ hab, ih htail]

namespace Node

theorem occurrences_eq (n : Node ι) : n.occurrences = n.parts.flatMap occurrences ++ n.names := by
  rw [occurrences, postorder_eq, List.flatMap_append, List.flatMap_assoc, List.flatMap_singleton]
  rfl

theorem occurrences_of_part {n c : Node ι} (hc : c ∈ n.parts) : c.occurrences ⊆ n.occurrences := by
  intro x hx
  rw [occurrences_eq]
  exact List.mem_append_left _ (List.mem_flatMap.2 ⟨c, hc, hx⟩)

theorem names_subset_occurrences (n : Node ι) : n.names ⊆ n.occurrences := by
  rw [occurrences_eq]
  exact List.subset_append_right _ _

theorem ownFunctions_subset_names (n : Node ι) : n.ownFunctions ⊆ n.names := by
  obtain ⟨k, x⟩ := n
  cases k <;> try exact List.nil_subset _
  case stmt =>
    rcases x with _ | ⟨_, _ | _⟩ <;> try exact List.nil_subset _
    exact List.cons_subset.2 ⟨List.mem_cons_self, List.nil_subset _⟩
  case label => cases x <;> exact List.nil_subset _

/-- What objects of a scope tell of their names is told of occurrences. -/
theorem scope_subset_occurrences {f : Node ι → List String} (hf : ∀ n, f n ⊆ n.names)
    (n : Node ι) : n.scope.flatMap f ⊆ n.occurrences := by
  induction n using Node.induction with
  | step n ih =>
    rw [flatMap_scope]
    refine List.append_subset.2 ⟨List.Subset.trans (hf n) (names_subset_occurrences n), ?_⟩
    split
    · exact List.nil_subset _
    · intro x hx
      obtain ⟨c, hc, hx⟩ := List.mem_flatMap.1 hx
      exact occurrences_of_part hc (ih c hc hx)

theorem vars_subset_occurrences (n : Node ι) : n.vars ⊆ n.occurrences :=
  scope_subset_occurrences ownVars_subset_names n

theorem functions_subset_occurrences (n : Node ι) : n.functions ⊆ n.occurrences :=
  scope_subset_occurrences ownFunctions_subset_names n

theorem names_substitute (n : Node ι) : (n.substitute names).names = n.names.map names.apply := by
  obtain ⟨k, x⟩ := n
  cases k
  case expr =>
    obtain ⟨o, s⟩ := x
    cases s <;> try rfl
    rename_i ps b n
    cases n
    · rfl
    · simp [substitute, names_expr, ExprShape.names, ExprShape.rename]
  case stmt => rcases x with _ | ⟨_, _ | _⟩ <;> rfl
  case label => cases x <;> rfl
  all_goals rfl

theorem isFunction_substitute (n : Node ι) : (n.substitute names).isFunction = n.isFunction := by
  obtain ⟨k, x⟩ := n
  cases k
  case expr => rcases x with ⟨_, _ | _⟩ <;> rfl
  case stmt => rcases x with _ | ⟨_, _ | _⟩ <;> rfl
  all_goals rfl

theorem ownVars_substitute (n : Node ι) :
    (n.substitute names).ownVars = n.ownVars.map names.apply := by
  obtain ⟨k, x⟩ := n
  cases k
  case stmt =>
    rcases x with _ | ⟨_, _ | _⟩ <;> try rfl
    rename_i declares
    cases declares <;> rfl
  case label => cases x <;> rfl
  all_goals rfl

theorem ownFunctions_substitute (n : Node ι) :
    (n.substitute names).ownFunctions = n.ownFunctions.map names.apply := by
  obtain ⟨k, x⟩ := n
  cases k
  case stmt => rcases x with _ | ⟨_, _ | _⟩ <;> rfl
  case label => cases x <;> rfl
  all_goals rfl

end Node

namespace Rename

namespace Substituted

variable {n m : Node Unit}

theorem head (h : Substituted names n m) : m.head = n.head.substitute names := by
  cases h with
  | intro hhead _ => exact hhead

theorem parts (h : Substituted names n m) : List.Forall₂ (Substituted names) n.parts m.parts := by
  cases h with
  | intro _ hparts => exact hparts

/-- What an object tells by itself, a renamed one tells as substituting its own names does. -/
theorem own_eq {α β : Type} {f : Node Unit → α} {f' : Node Unit → β} {g : α → β}
    (hf : ∀ n : Node Unit, (n.substitute names).own f' = g (n.own f))
    (h : Substituted names n m) : m.own f' = g (n.own f) := by
  rw [← own_head f' m, h.head, hf, own_head]

theorem names_eq (h : Substituted names n m) : m.names = n.names.map names.apply :=
  h.own_eq names_substitute

theorem isFunction_eq (h : Substituted names n m) : m.isFunction = n.isFunction :=
  h.own_eq (g := id) isFunction_substitute

theorem occurrences_eq (h : Substituted names n m) :
    m.occurrences = n.occurrences.map names.apply := by
  induction n using Node.induction generalizing m with
  | step n ih =>
    rw [Node.occurrences_eq, Node.occurrences_eq n, List.map_append, h.names_eq,
      flatMap_eq_map h.parts fun c hc _ => ih c hc]

theorem scope_eq {f : Node Unit → List String}
    (hf : ∀ n : Node Unit, (n.substitute names).own f = (n.own f).map names.apply)
    (h : Substituted names n m) :
    m.scope.flatMap (own f) = (n.scope.flatMap (own f)).map names.apply := by
  induction n using Node.induction generalizing m with
  | step n ih =>
    have hparts : (m.parts.flatMap fun c => c.scope.flatMap (own f)) =
        (n.parts.flatMap fun c => c.scope.flatMap (own f)).map names.apply :=
      flatMap_eq_map h.parts fun c hc _ => ih c hc
    rw [flatMap_scope, flatMap_scope (own f) n, h.own_eq hf, hparts, h.isFunction_eq]
    cases n.isFunction <;> simp

theorem vars_eq (h : Substituted names n m) : m.vars = n.vars.map names.apply :=
  scope_eq ownVars_substitute h

theorem functions_eq (h : Substituted names n m) : m.functions = n.functions.map names.apply :=
  scope_eq ownFunctions_substitute h

end Substituted

/-- The table that gives the names among `occurring` back that the other table replaces. -/
def Names.inverse (names : Names) (occurring : List String) : Names :=
  occurring.filterMap fun x => (names.lookup x).map (·, x)

/-- No two of the names become one. -/
def Names.Separates (names : Names) (occurring : List String) : Prop :=
  ∀ a ∈ occurring, ∀ b ∈ occurring, names.apply a = names.apply b → a = b

theorem Names.apply_of_lookup {x y : String} (h : names.lookup x = some y) :
    names.apply x = y := by
  rw [Names.apply, h]
  rfl

section Inverse

variable {occurring : List String}

theorem Names.mem_inverse {x y : String} :
    (y, x) ∈ names.inverse occurring ↔ x ∈ occurring ∧ names.lookup x = some y := by
  simp only [Names.inverse, List.mem_filterMap, Option.map_eq_some_iff, Prod.mk.injEq]
  constructor
  · rintro ⟨_, hx, _, hy, rfl, rfl⟩
    exact ⟨hx, hy⟩
  · rintro ⟨hx, hy⟩
    exact ⟨x, hx, y, hy, rfl, rfl⟩

theorem Names.lookup_inverse (h : names.Separates occurring) {x y : String} :
    (names.inverse occurring).lookup y = some x ↔ x ∈ occurring ∧ names.lookup x = some y := by
  rw [← Names.mem_inverse]
  constructor
  · intro hx
    obtain ⟨before, after, heq, -⟩ := List.lookup_eq_some_iff.1 hx
    rw [heq]
    exact List.mem_append_right _ List.mem_cons_self
  · intro hx
    -- an entry of the same new name in front of this one is of the same old name
    obtain ⟨z, hz⟩ : ∃ z, (names.inverse occurring).lookup y = some z := by
      rw [← Option.isSome_iff_exists, List.lookup_isSome_iff]
      exact ⟨_, hx, beq_self_eq_true y⟩
    obtain ⟨before, after, heq, -⟩ := List.lookup_eq_some_iff.1 hz
    have hmem : (y, z) ∈ names.inverse occurring := by
      rw [heq]
      exact List.mem_append_right _ List.mem_cons_self
    obtain ⟨hxo, hx⟩ := Names.mem_inverse.1 hx
    obtain ⟨hzo, hz'⟩ := Names.mem_inverse.1 hmem
    rw [hz, h z hzo x hxo ((Names.apply_of_lookup hz').trans (Names.apply_of_lookup hx).symm)]

theorem Names.inverse_apply (h : names.Separates occurring) {x : String} (hx : x ∈ occurring) :
    (names.inverse occurring).apply (names.apply x) = x ∧
      (names.inverse occurring).isKey (names.apply x) = names.isKey x := by
  cases hy : names.lookup x with
  | some y =>
    have hback := (Names.lookup_inverse h).2 ⟨hx, hy⟩
    rw [Names.apply_of_lookup hy, Names.isKey, Names.isKey, hback, hy]
    exact ⟨Names.apply_of_lookup hback, rfl⟩
  | none =>
    have happly : names.apply x = x := by
      rw [Names.apply, hy]
      rfl
    -- a name that is kept is not what another one becomes
    have hback : (names.inverse occurring).lookup x = none := by
      rw [Option.eq_none_iff_forall_ne_some]
      intro z hz
      obtain ⟨hzo, hz⟩ := (Names.lookup_inverse h).1 hz
      obtain rfl := h z hzo x hx ((Names.apply_of_lookup hz).trans happly.symm)
      exact Option.some_ne_none z (hz.symm.trans hy)
    rw [happly, Names.isKey, Names.isKey, hback, hy, Names.apply, hback]
    exact ⟨rfl, rfl⟩

end Inverse

end Rename

namespace Node

theorem substitute_substitute {back : Names} {n : Node ι}
    (h : ∀ x ∈ n.names, back.apply (names.apply x) = x) :
    (n.substitute names).substitute back = n := by
  have hmap {ns : List String} (h : ∀ x ∈ ns, back.apply (names.apply x) = x) :
      (ns.map names.apply).map back.apply = ns := by
    rw [List.map_map]
    calc
      ns.map (back.apply ∘ names.apply) = ns.map id := List.map_congr_left h
      _ = ns := List.map_id ns
  obtain ⟨k, x⟩ := n
  cases k
  case expr =>
    obtain ⟨o, e⟩ := x
    cases e
    case identifier n =>
      have hn := h n List.mem_cons_self
      simp only [substitute, ExprShape.rename, hn]
    case function ps b n =>
      have hps := hmap fun x hx => h x (List.mem_append_right n.toList hx)
      have hn : (n.map names.apply).map back.apply = n := by
        cases n with
        | none => rfl
        | some n => exact congrArg some (h n List.mem_cons_self)
      simp only [substitute, ExprShape.rename, hn, hps]
    all_goals rfl
  case stmt =>
    cases x with
    | block b => rfl
    | node o s =>
      cases s
      case forIn n x b d =>
        have hn := h n List.mem_cons_self
        simp only [substitute, StmtShape.rename, hn]
      case function n ps b =>
        have hn := h n List.mem_cons_self
        have hps := hmap fun x hx => h x (List.mem_cons_of_mem n hx)
        simp only [substitute, StmtShape.rename, hn, hps]
      all_goals rfl
  case declaration | catchClause =>
    have hn := h x.name List.mem_cons_self
    cases x
    simp only [substitute, hn]
  all_goals rfl

end Node

namespace Rename.Substituted

variable {n m : Node Unit} {back : Names}

/-- A table that takes every new name back to the old one gives the tree back. -/
theorem symm (h : Substituted names n m)
    (hback : ∀ x ∈ n.occurrences, back.apply (names.apply x) = x) : Substituted back m n := by
  induction n using Node.induction generalizing m with
  | step n ih =>
    apply Substituted.intro
    · rw [h.head, substitute_substitute]
      intro x hx
      have hnames : n.head.names = n.names := own_head _ n
      rw [hnames] at hx
      exact hback x (names_subset_occurrences n hx)
    · have hparts : ∀ c ∈ n.parts, ∀ c', Substituted names c c' → Substituted back c' c :=
        fun c hc c' h => ih c hc h fun x hx => hback x (occurrences_of_part hc hx)
      exact (forall₂_imp_of_mem h.parts hparts).flip

/-- As many names are replaced on the way back. -/
theorem count_back (h : Substituted names n m)
    (hkey : ∀ x ∈ n.occurrences, back.isKey (names.apply x) = names.isKey x) :
    (m.occurrences.filter back.isKey).length = (n.occurrences.filter names.isKey).length := by
  rw [h.occurrences_eq, List.filter_map, List.length_map]
  exact congrArg List.length (List.filter_congr hkey)

end Rename.Substituted

end ScriptTree
