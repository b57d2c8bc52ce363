import ScriptTree.Proofs.RenamedBindings

namespace ScriptTree

open Node Rename

variable {ι : Type} {names : Names}

/-- Where an object stands in a tree: which part is taken at each step, the last step first. -/
abbrev Path := List Nat

/-- A scope, told by where the object stands that opens it. A named function expression opens two:
its own name is declared around its body. -/
inductive Scope where
  | program
  | name (function : Path)
  | body (function : Path)
  | handler (clause : Path)
  deriving DecidableEq

/-- The scopes around an object, the innermost first, each with the names that it declares. -/
abbrev Scopes := List (Scope × List String)

/-- The innermost scope that declares the name, or else that of the whole program. -/
def Scopes.resolve : Scopes → String → Scope
  | [], _ => .program
  | (scope, declared) :: scopes, name =>
    if name ∈ declared then scope else Scopes.resolve scopes name

/-- A use of a name, and the scope that it resolves to. -/
structure Use where
  path : Path
  name : String
  scope : Scope
  deriving DecidableEq

namespace Node

/-- The scopes that an object opens around its parts, where `inner` is what they bind. The body of a
function declares that beside the parameters. -/
def openedAt (path : Path) (inner : List String) : Node ι → Scopes := own fun
  | ⟨.expr, ⟨_, .function ps _ n⟩⟩ =>
    (.body path, ps ++ inner) :: n.toList.map fun n => (.name path, [n])
  | ⟨.stmt, .node _ (.function _ ps _)⟩ => [(.body path, ps ++ inner)]
  | ⟨.catchClause, c⟩ => [(.handler path, [c.name])]
  | _ => []

def opened (path : Path) (n : Node ι) : Scopes :=
  n.openedAt path (n.parts.flatMap vars ++ n.parts.flatMap functions)

/-- The names that an object refers to without declaring them. -/
def used : Node ι → List String := own fun
  | ⟨.expr, ⟨_, .identifier n⟩⟩ => [n]
  | ⟨.stmt, .node _ (.forIn n _ _ false)⟩ => [n]
  | _ => []

/-- The names that are used in a tree, in pre-order. -/
def uses (scopes : Scopes) (path : Path) (n : Node ι) : List Use :=
  n.used.map (fun x => ⟨path, x, scopes.resolve x⟩) ++
    n.parts.attach.zipIdx.flatMap fun c =>
      uses (n.opened path ++ scopes) (c.2 :: path) c.1.1
termination_by n.size
decreasing_by exact size_lt_of_mem_parts c.1.2

theorem uses_eq (scopes : Scopes) (path : Path) (n : Node ι) :
    n.uses scopes path = n.used.map (fun x => ⟨path, x, scopes.resolve x⟩) ++
      n.parts.zipIdx.flatMap fun c => uses (n.opened path ++ scopes) (c.2 :: path) c.1 := by
  have hparts : n.parts.zipIdx = n.parts.attach.zipIdx.map (Prod.map Subtype.val id) := by
    rw [← List.zipIdx_map, List.attach_map_subtype_val]
  rw [uses, hparts, List.flatMap_map]
  rfl

end Node

def Scopes.rename (names : Names) (scopes : Scopes) : Scopes :=
  scopes.map fun s => (s.1, s.2.map names.apply)

def Use.rename (names : Names) (u : Use) : Use := { u with name := names.apply u.name }

theorem Scopes.resolve_rename {scopes : Scopes} {x : String}
    (h : ∀ s ∈ scopes, ∀ y ∈ s.2, names.apply x = names.apply y → x = y) :
    (scopes.rename names).resolve (names.apply x) = scopes.resolve x := by
  induction scopes with
  | nil => rfl
  | cons s scopes ih =>
    obtain ⟨hs, hscopes⟩ := List.forall_mem_cons.1 h
    have hmem : names.apply x ∈ s.2.map names.apply ↔ x ∈ s.2 := by
      rw [List.mem_map]
      constructor
      · rintro ⟨y, hy, heq⟩
        rwa [hs y hy heq.symm]
      · exact fun hx => ⟨x, hx, rfl⟩
    change (if names.apply x ∈ s.2.map names.apply then s.1
      else (Scopes.rename names scopes).resolve (names.apply x)) = _
    rw [ih hscopes]
    exact if_congr hmem rfl rfl

theorem used_substitute (n : Node ι) : (n.substitute names).used = n.used.map names.apply := by
  obtain ⟨k, x⟩ := n
  cases k
  case expr => rcases x with ⟨_, _ | _⟩ <;> rfl
  case stmt =>
    rcases x with _ | ⟨_, _ | _⟩ <;> try rfl
    rename_i declares
    cases declares <;> rfl
  case label => cases x <;> rfl
  all_goals rfl

theorem used_subset_names (n : Node ι) : n.used ⊆ n.names := by
  obtain ⟨k, x⟩ := n
  cases k <;> try exact List.nil_subset _
  case expr =>
    rcases x with ⟨_, _ | _⟩ <;> try exact List.nil_subset _
    exact List.Subset.refl _
  case stmt =>
    rcases x with _ | ⟨_, _ | _⟩ <;> try exact List.nil_subset _
    rename_i declares
    cases declares
    · exact List.Subset.refl _
    · exact List.nil_subset _
  case label => cases x <;> exact List.nil_subset _

/-- An object opens its scopes for names that occur in it. -/
theorem opened_subset_occurrences (path : Path) (n : Node ι) :
    ∀ s ∈ n.opened path, s.2 ⊆ n.occurrences := by
  have hinner : n.parts.flatMap vars ++ n.parts.flatMap functions ⊆ n.occurrences := by
    refine List.append_subset.2 ⟨?_, ?_⟩ <;> intro x hx <;>
      obtain ⟨c, hc, hx⟩ := List.mem_flatMap.1 hx
    · exact occurrences_of_part hc (vars_subset_occurrences c hx)
    · exact occurrences_of_part hc (functions_subset_occurrences c hx)
  have hhead : n.head.names = n.names := own_head _ n
  have hnames := names_subset_occurrences n
  rw [opened, openedAt, own]
  rw [← hhead] at hnames
  generalize n.parts.flatMap vars ++ n.parts.flatMap functions = inner at hinner
  generalize n.head = m at hnames
  split
  · rename_i ps _ name
    have hnames : name.toList ++ ps ⊆ _ := hnames
    obtain ⟨hname, hps⟩ := List.append_subset.1 hnames
    refine List.forall_mem_cons.2 ⟨List.append_subset.2 ⟨hps, hinner⟩, ?_⟩
    intro s hs
    obtain ⟨x, hx, rfl⟩ := List.mem_map.1 hs
    exact List.cons_subset.2 ⟨hname hx, List.nil_subset _⟩
  · obtain ⟨-, hps⟩ := List.cons_subset.1 hnames
    exact List.forall_mem_singleton.2 (List.append_subset.2 ⟨hps, hinner⟩)
  · exact List.forall_mem_singleton.2 hnames
  · nofun

theorem openedAt_substitute (path : Path) (inner : List String) (n : Node ι) :
    (n.substitute names).openedAt path (inner.map names.apply) =
      (n.openedAt path inner).rename names := by
  obtain ⟨k, x⟩ := n
  cases k
  case expr =>
    obtain ⟨o, s⟩ := x
    cases s <;> try rfl
    rename_i ps b n
    cases n <;>
      simp [substitute, ExprShape.rename, openedAt, own, head, ExprShape.head, Scopes.rename]
  case stmt =>
    rcases x with _ | ⟨_, _ | _⟩ <;> try rfl
    simp [substitute, StmtShape.rename, openedAt, own, head, StmtShape.head, Scopes.rename]
  case label => cases x <;> rfl
  all_goals rfl

theorem zipIdx_flatMap_eq {α β γ δ : Type} {R : α → β → Prop} {f : α → Nat → List γ}
    {f' : β → Nat → List δ} {g : γ → δ} {as : List α} {bs : List β} (h : List.Forall₂ R as bs)
    (start : Nat) (hf : ∀ a ∈ as, ∀ b i, R a b → f' b i = (f a i).map g) :
    ((bs.zipIdx start).flatMap fun b => f' b.1 b.2) =
      ((as.zipIdx start).flatMap fun a => f a.1 a.2).map g := by
  induction h generalizing start with
  | nil => rfl
  | cons hab _ ih =>
    obtain ⟨hhead, htail⟩ := List.forall_mem_cons.1 hf
    rw [List.zipIdx_cons, List.zipIdx_cons, List.flatMap_cons, List.flatMap_cons, List.map_append,
      hhead _ _ hab, ih _ htail]

namespace Rename.Substituted

variable {n m : Node Unit}

theorem used_eq (h : Substituted names n m) : m.used = n.used.map names.apply :=
  h.own_eq used_substitute

/-- A renamed object opens the same scopes, for other names. -/
theorem opened_eq (h : Substituted names n m) (path : Path) :
    m.opened path = (n.opened path).rename names := by
  have hvars := flatMap_eq_map h.parts fun c _ _ hc => hc.vars_eq
  have hfunctions := flatMap_eq_map h.parts fun c _ _ hc => hc.functions_eq
  rw [opened, hvars, hfunctions, ← List.map_append]
  exact h.own_eq (openedAt_substitute path _)

/-- The uses in a renamed tree are those in the tree, under their new names. -/
theorem uses_eq {occurring : List String} (hnames : names.Separates occurring)
    (h : Substituted names n m) (hn : n.occurrences ⊆ occurring) {scopes : Scopes}
    (hscopes : ∀ s ∈ scopes, s.2 ⊆ occurring) (path : Path) :
    m.uses (scopes.rename names) path = (n.uses scopes path).map (Use.rename names) := by
  induction n using Node.induction generalizing m scopes path with
  | step n ih =>
    have hown : m.used.map (fun x => ⟨path, x, (scopes.rename names).resolve x⟩) =
        (n.used.map fun x => (⟨path, x, scopes.resolve x⟩ : Use)).map (Use.rename names) := by
      rw [h.used_eq, List.map_map, List.map_map]
      refine List.map_congr_left fun x hx => ?_
      have hx := hn (names_subset_occurrences n (used_subset_names n hx))
      have hresolve := Scopes.resolve_rename fun s hs y hy => hnames x hx y (hscopes s hs hy)
      simp only [Function.comp_apply, Use.rename, hresolve]
    -- the scopes around the parts declare names that occur as well
    have hinner : ∀ s ∈ n.opened path ++ scopes, s.2 ⊆ occurring :=
      List.forall_mem_append.2
        ⟨fun s hs => List.Subset.trans (opened_subset_occurrences path n s hs) hn, hscopes⟩
    have hparts : ∀ c ∈ n.parts, ∀ c' i, Substituted names c c' →
        c'.uses (Scopes.rename names (n.opened path ++ scopes)) (i :: path) =
          (c.uses (n.opened path ++ scopes) (i :: path)).map (Use.rename names) :=
      fun c hc c' i h => ih c hc h (List.Subset.trans (occurrences_of_part hc) hn) hinner (i :: path)
    have hrename : m.opened path ++ scopes.rename names =
        Scopes.rename names (n.opened path ++ scopes) := by
      rw [h.opened_eq]
      exact List.map_append.symm
    rw [Node.uses_eq, Node.uses_eq _ _ n, List.map_append, hown, hrename]
    exact congrArg _ (zipIdx_flatMap_eq h.parts 0 hparts)

end Rename.Substituted

namespace Rename

/-- Where a table makes no two names of a tree one, every use of a name resolves in the renamed tree
to the scope at the same place as before. Renaming by the inverse table gives the tree back, and
counts as much. -/
theorem rename_hygienic (start : Nat) (k : Kind) (x : Object Unit k) (t t' : Tally)
    (h : names.Separates (Node.mk k x).occurrences) :
    let back := names.inverse (Node.mk k x).occurrences
    let r := (transform names).object k (Object.number start k x).1 t
    let r' := (transform back).object k r.1 t'
    Node.uses [] [] ⟨k, Object.bare k r.1⟩ =
        (Node.uses [] [] ⟨k, x⟩).map (Use.rename names) ∧
      (∀ old new, back.lookup new = some old ↔
        old ∈ (Node.mk k x).occurrences ∧ names.lookup old = some new) ∧
      Object.bare k r'.1 = x ∧
      ∃ count, r.2.renamed = t.renamed + count ∧ r'.2.renamed = t'.renamed + count := by
  intro back r r'
  have hx : Separate ⟨k, (Object.number start k x).1⟩ := number_separate start k x
  have hbare : Node.bare ⟨k, (Object.number start k x).1⟩ = ⟨k, x⟩ :=
    bare_number_object start k x
  have hr : Substituted names ⟨k, x⟩ ⟨k, Object.bare k r.1⟩ := by
    have hr : Substituted names _ _ := rename_substituted hx t
    rwa [hbare] at hr
  have hr' : Substituted back ⟨k, Object.bare k r.1⟩ ⟨k, Object.bare k r'.1⟩ :=
    rename_substituted ((transform names).node_separate (rename_isTame names) hx t) t'
  have hback := hr.symm fun y hy => (Names.inverse_apply h hy).1
  have hnone : ∀ s ∈ ([] : Scopes), s.2 ⊆ (Node.mk k x).occurrences :=
    fun _ hs => absurd hs List.not_mem_nil
  have huses := hr.uses_eq h (List.Subset.refl _) hnone []
  refine ⟨huses, fun _ _ => Names.lookup_inverse h, ?_, ?_⟩
  · exact eq_of_heq (Node.mk.inj (hr'.unique hback)).2
  · have hcount : r.2 = count names (Node.mk k x).occurrences t := by
      have hcount := rename_tally names ⟨k, (Object.number start k x).1⟩ t
      rwa [hbare] at hcount
    have hcount' : r'.2 = count back (Node.mk k (Object.bare k r.1)).occurrences t' :=
      rename_tally back ⟨k, r.1⟩ t'
    refine ⟨((Node.mk k x).occurrences.filter names.isKey).length, ?_, ?_⟩
    · rw [hcount]
      rfl
    · rw [hcount', ← hr.count_back fun y hy => (Names.inverse_apply h hy).2]
      rfl

/-- A `catch` clause that shadows the parameter `x`, with `y` declared around both. -/
def shadowedParameter : Program Unit :=
  ⟨(), [.node () (.function "f" ["x"] ⟨(), ⟨(),
    [.node () (.tryCatch ⟨(), ⟨(), []⟩⟩
      (some ⟨(), "x", ⟨(), ⟨(), [.node () (.expression ⟨(), .identifier "x"⟩)]⟩⟩⟩) none),
    .node () (.expression ⟨(), .identifier "x"⟩),
    .node () (.forIn "y" ⟨(), .identifier "f"⟩ (.node () .empty) true)]⟩⟩)]⟩

/-- The uses of `x` are of the clause and of the function still when `x` and `y` change places. -/
theorem rename_hygienic_swapped_names :
    let names : Names := [("x", "y"), ("y", "x")]
    let r := (transform names).object .stmts (Object.number 0 .stmts shadowedParameter).1 ⟨0, #[]⟩
    names.Separates (Node.mk .stmts shadowedParameter).occurrences ∧
      (Node.uses [] [] ⟨.stmts, Object.bare .stmts r.1⟩).map (fun u => (u.name, u.scope)) =
        [("y", .handler [1, 0, 0, 0, 0]), ("y", .body [0]), ("f", .program)] := by
  intro names r
  have hseparates : names.Separates (Node.mk .stmts shadowedParameter).occurrences := by
    have hoccurrences : (Node.mk .stmts shadowedParameter).occurrences =
        ["x", "x", "x", "f", "y", "f", "x"] := by decide +kernel
    rw [hoccurrences]
    unfold Names.Separates
    decide
  have huses : (Node.uses [] [] ⟨.stmts, shadowedParameter⟩).map (fun u => (u.name, u.scope)) =
      [("x", .handler [1, 0, 0, 0, 0]), ("x", .body [0]), ("f", .program)] := by decide +kernel
  refine ⟨hseparates, ?_⟩
  have hrenamed := (rename_hygienic 0 .stmts shadowedParameter ⟨0, #[]⟩ ⟨0, #[]⟩ hseparates).1
  rw [hrenamed, List.map_map]
  change (Node.uses [] [] ⟨.stmts, shadowedParameter⟩).map
    (Prod.map names.apply id ∘ fun u => (u.name, u.scope)) = _
  rw [← List.map_map, huses]
  decide +kernel

end Rename

end ScriptTree
