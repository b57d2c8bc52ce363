import ScriptTree.Proofs.PassOrder
import ScriptTree.Proofs.State

namespace ScriptTree

open Node Rename

variable {ι : Type}

namespace Node

/-- The object with other names, its parts and its identity being left. -/
def substitute (names : Names) : Node ι → Node ι
  | ⟨.expr, e⟩ => ⟨.expr, ⟨e.origin, e.shape.rename names⟩⟩
  | ⟨.stmt, .node o s⟩ => ⟨.stmt, .node o (s.rename names)⟩
  | ⟨.declaration, d⟩ => ⟨.declaration, ⟨d.origin, names.apply d.name, d.init⟩⟩
  | ⟨.catchClause, c⟩ => ⟨.catchClause, ⟨c.origin, names.apply c.name, c.body⟩⟩
  | n => n

/-- The names that occur in a tree, once for each occurrence: those of an object after those of its
parts, and the name of a function before its parameters. -/
def occurrences (n : Node ι) : List String := n.postorder.flatMap names

theorem rename_head (names : Names) (n : Node Origin) :
    (n.rename names).head = n.head.substitute names := by
  obtain ⟨k, x⟩ := n
  cases k
  case expr => rcases x with ⟨_, _ | _⟩ <;> rfl
  case stmt => rcases x with _ | ⟨_, _ | _⟩ <;> rfl
  case label => cases x <;> rfl
  all_goals rfl

end Node

namespace Rename

variable {names : Names}

theorem Names.apply_of_not_isKey {name : String} (h : names.isKey name = false) :
    names.apply name = name := by
  rw [Names.isKey, Option.isSome_eq_false_iff, Option.isNone_iff_eq_none] at h
  rw [Names.apply, h]
  rfl

theorem map_apply_of_not_isKey {ns : List String} (h : ∀ n ∈ ns, names.isKey n = false) :
    ns.map names.apply = ns := by
  calc
    ns.map names.apply = ns.map id :=
      List.map_congr_left fun n hn => Names.apply_of_not_isKey (h n hn)
    _ = ns := List.map_id ns

theorem substitute_of_not_isKey {n : Node ι} (h : ∀ x ∈ n.names, names.isKey x = false) :
    n.substitute names = n := by
  obtain ⟨k, x⟩ := n
  cases k
  case expr =>
    obtain ⟨o, e⟩ := x
    cases e
    case identifier n =>
      have hn := Names.apply_of_not_isKey (h n List.mem_cons_self)
      simp only [substitute, ExprShape.rename, hn]
    case function ps b n =>
      have hn : n.map names.apply = n := by
        cases n with
        | none => rfl
        | some n => exact congrArg some (Names.apply_of_not_isKey (h n List.mem_cons_self))
      have hps := map_apply_of_not_isKey fun x hx => h x (List.mem_append_right n.toList hx)
      simp only [substitute, ExprShape.rename, hn, hps]
    all_goals rfl
  case stmt =>
    cases x with
    | block b => rfl
    | node o s =>
      cases s
      case forIn n x b d =>
        have hn := Names.apply_of_not_isKey (h n List.mem_cons_self)
        simp only [substitute, StmtShape.rename, hn]
      case function n ps b =>
        have hn := Names.apply_of_not_isKey (h n List.mem_cons_self)
        have hps := map_apply_of_not_isKey fun x hx => h x (List.mem_cons_of_mem n hx)
        simp only [substitute, StmtShape.rename, hn, hps]
      all_goals rfl
  case declaration | catchClause =>
    have hn := Names.apply_of_not_isKey (h x.name List.mem_cons_self)
    cases x
    simp only [substitute, hn]
  all_goals rfl

/-- The second tree is the first with every name that occurs in it replaced by its entry, if it has
one. -/
inductive Substituted (names : Names) : Node Unit → Node Unit → Prop
  | intro {n n'} : n'.head = n.head.substitute names →
      List.Forall₂ (Substituted names) n.parts n'.parts → Substituted names n n'

theorem Substituted.unique {n a b : Node Unit} (ha : Substituted names n a)
    (hb : Substituted names n b) : a = b := by
  induction n using Node.induction generalizing a b with
  | step n ih =>
    obtain ⟨hhead, hparts⟩ := ha
    obtain ⟨hhead', hparts'⟩ := hb
    have halike : a.Alike b := hhead.trans hhead'.symm
    exact bare_eq_of_parts halike (eq_of_forall₂ hparts hparts' fun c hc _ _ => ih c hc)

theorem Substituted.of_parts {n n' : Node Origin} (hhead : n'.head = n.head.substitute names)
    (hparts : List.Forall₂ (fun c c' => Substituted names c.bare c'.bare) n.parts n'.parts) :
    Substituted names n.bare n'.bare := by
  apply Substituted.intro
  · rw [bare_head, bare_head, hhead]
  · rw [bare_parts, bare_parts, List.forall₂_map_left_iff, List.forall₂_map_right_iff]
    exact hparts

theorem rename_substituted {n : Node Origin} (hn : Separate n) (t : Tally) :
    Substituted names n.bare ((transform names).node n t).1.bare := by
  refine ((transform names).exact_induction (rename_isTame names)
    (P := fun n _ n' _ => Substituted names n.bare n'.bare) ?_ ?_ n hn t).2
  · intro b _ b' _ h
    obtain ⟨-, hparts⟩ := h
    apply Substituted.intro rfl
    rw [bare_block_parts, bare_block_parts]
    exact hparts
  · intro k x walk _ hwalk t
    obtain ⟨ha, hparts⟩ := hwalk t
    have hparts := hparts.forall₂ fun _ _ _ _ _ h => h
    rw [visit_fst]
    split
    · apply Substituted.of_parts
      · rw [rename_head, ha]
      · rw [rename_parts]
        exact hparts
    · rename_i hkey
      have hnone : ∀ y ∈ (Node.head ⟨k, x⟩).names, names.isKey y = false := by
        have hnames : (Node.head ⟨k, x⟩).names = Node.names ⟨k, (walk t).1⟩ :=
          (congrArg Node.names ha).trans (own_head _ _)
        rw [hnames]
        exact unrenamed_of_any hkey
      apply Substituted.of_parts ?_ hparts
      rw [substitute_of_not_isKey hnone, ha]

/-- Counts and logs those of the names that have an entry. -/
def count (names : Names) (ns : List String) (t : Tally) : Tally where
  renamed := t.renamed + (ns.filter names.isKey).length
  log := t.log ++ (ns.filter names.isKey).map fun n => Record.renamed n (names.apply n)

theorem count_nil (t : Tally) : count names [] t = t := by
  simp [count]

theorem count_append (ns ns' : List String) (t : Tally) :
    count names (ns ++ ns') t = count names ns' (count names ns t) := by
  simp only [count, List.filter_append, List.length_append, List.map_append, Nat.add_assoc,
    appendList_append]

theorem count_flatMap {α : Type} (f : α → List String) (as : List α) (t : Tally) :
    as.foldl (fun t a => count names (f a) t) t = count names (as.flatMap f) t := by
  induction as generalizing t with
  | nil => exact (count_nil t).symm
  | cons a as ih => rw [List.foldl_cons, ih, List.flatMap_cons, count_append]

variable (names)

theorem take_snd (name : String) (t : Tally) : (take names name t).2 = count names [name] t := by
  cases h : names.lookup name <;> simp [take, count, Names.isKey, Names.apply, h]
  rfl

theorem takeEach_snd (ns : List String) (t : Tally) :
    (takeEach names ns t).2 = count names ns t := by
  induction ns generalizing t with
  | nil => exact (count_nil t).symm
  | cons n ns ih =>
    change (takeEach names ns (take names n t).2).2 = count names ([n] ++ ns) t
    rw [ih, take_snd, count_append]

theorem exprShape_snd (e : ExprShape Origin) (t : Tally) :
    (exprShape names e t).2 = count names e.names t := by
  cases e
  case identifier n => exact take_snd names n t
  case function ps b n =>
    cases n with
    | none => exact takeEach_snd names ps t
    | some n =>
      change (takeEach names ps (take names n t).2).2 = count names ([n] ++ ps) t
      rw [takeEach_snd, take_snd, count_append]
  all_goals exact (count_nil t).symm

theorem stmtShape_snd (s : StmtShape Origin) (t : Tally) :
    (stmtShape names s t).2 = count names s.names t := by
  cases s
  case forIn n x b d => exact take_snd names n t
  case function n ps b =>
    change (takeEach names ps (take names n t).2).2 = count names ([n] ++ ps) t
    rw [takeEach_snd, take_snd, count_append]
  all_goals exact (count_nil t).symm

/-- What renaming counts and logs at an object, its parts being answered. -/
theorem visit_snd (k : Kind) (x : Object Origin k) (walk : StateM Tally (Object Origin k))
    (t : Tally) :
    ((transform names).visit k x walk t).2 =
      count names (Node.names ⟨k, (walk t).1⟩) (walk t).2 := by
  cases k
  case expr =>
    rcases hw : walk t with ⟨z, t'⟩
    have h := exprShape_snd names z.shape t'
    rcases hs : exprShape names z.shape t' with ⟨r, t''⟩
    simp only [transform, bind, StateT.bind, hw, hs] at h ⊢
    rw [Node.names_expr]
    cases r <;> exact h
  case stmt =>
    rcases hw : walk t with ⟨z, t'⟩
    cases z with
    | block b =>
      simp only [transform, bind, StateT.bind, hw]
      exact (count_nil t').symm
    | node o z =>
      have h := stmtShape_snd names z t'
      rcases hs : stmtShape names z t' with ⟨r, t''⟩
      simp only [transform, bind, StateT.bind, hw, hs] at h ⊢
      rw [Node.names_stmt]
      cases r <;> exact h
  case declaration | catchClause =>
    rcases hw : walk t with ⟨z, t'⟩
    have h := take_snd names z.name t'
    rcases hs : take names z.name t' with ⟨r, t''⟩
    simp only [transform, bind, StateT.bind, hw, hs] at h ⊢
    cases r <;> exact h
  case label =>
    rw [Node.names_label]
    exact (count_nil _).symm
  all_goals exact (count_nil _).symm

theorem rename_reports : (transform names).Reports fun m => count names m.names where
  visit k x walk t := by
    rw [visit_snd]
    exact congrArg (count names · _) (bare_own _ _).symm
  width k x walk t := by
    rw [visit_fst]
    split
    · exact width_rename names _
    · rfl
  congr n z ha _ := congrArg (count names) (ha.own_eq _)
  block b := rfl

/-- Renaming counts and logs the occurrences of a tree. -/
theorem rename_tally (n : Node Origin) (t : Tally) :
    ((transform names).node n t).2 = count names n.bare.occurrences t := by
  rw [(rename_reports names).node_snd, count_flatMap]
  rfl

/-- Renaming substitutes the table simultaneously, and counts and logs every occurrence of an old
name, the contents of an object before the names that it binds. -/
theorem rename_eq_substitution (start : Nat) (k : Kind) (x : Object Unit k)
    (t : Tally) :
    let r := (transform names).object k (Object.number start k x).1 t
    let found := (Node.mk k x).occurrences.filter names.isKey
    (∀ y, Substituted names ⟨k, x⟩ ⟨k, y⟩ ↔ y = Object.bare k r.1) ∧
      r.2.renamed = t.renamed + found.length ∧
      r.2.log = t.log ++ found.map (fun n => Record.renamed n (names.apply n)) ∧
      ∀ n ∈ found, (Record.renamed n (names.apply n)).level = .trace ∧
        (Record.renamed n (names.apply n)).message = "rename " ++ n ++ " -> " ++ names.apply n := by
  intro r found
  have hbare : Node.bare ⟨k, (Object.number start k x).1⟩ = ⟨k, x⟩ :=
    bare_number_object start k x
  have hr : Substituted names ⟨k, x⟩ ⟨k, Object.bare k r.1⟩ := by
    have h : Substituted names _ _ := rename_substituted (number_separate start k x) t
    rwa [hbare] at h
  have htally : r.2 = count names (Node.mk k x).occurrences t := by
    have h := rename_tally names ⟨k, (Object.number start k x).1⟩ t
    rwa [hbare] at h
  refine ⟨fun y => ⟨fun hy => ?_, ?_⟩, ?_, ?_, fun _ _ => ⟨rfl, rfl⟩⟩
  · exact eq_of_heq (Node.mk.inj (hy.unique hr)).2
  · rintro rfl
    exact hr
  · rw [htally]
    rfl
  · rw [htally]
    rfl

end Rename

end ScriptTree
