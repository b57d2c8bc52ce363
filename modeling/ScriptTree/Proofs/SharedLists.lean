import ScriptTree.Proofs.Identity

namespace ScriptTree

section Lists

variable {α β σ : Type}

theorem mapM_cons_run (f : α → StateM σ β) (x : α) (xs : List α) (s : σ) :
    (x :: xs).mapM f s = ((f x s).1 :: (xs.mapM f (f x s).2).1, (xs.mapM f (f x s).2).2) := by
  rw [List.mapM_cons]
  rfl

theorem mapM_append_run (f : α → StateM σ β) (xs ys : List α) (s : σ) :
    (xs ++ ys).mapM f s = ((xs.mapM f s).1 ++ (ys.mapM f (xs.mapM f s).2).1,
      (ys.mapM f (xs.mapM f s).2).2) := by
  rw [List.mapM_append]
  rfl

theorem length_mapM (f : α → StateM σ β) (xs : List α) (s : σ) :
    (xs.mapM f s).1.length = xs.length := by
  induction xs generalizing s with
  | nil => rfl
  | cons x xs ih =>
    rw [mapM_cons_run, List.length_cons, ih, List.length_cons]

theorem Threaded.of_mapM (f : α → StateM σ β) (as : List α) (s : σ) :
    Threaded (fun a s b t => f a s = (b, t)) as s (as.mapM f s).1 (as.mapM f s).2 := by
  induction as generalizing s with
  | nil => exact .nil s
  | cons a as ih =>
    rw [mapM_cons_run]
    exact .cons rfl (ih (f a s).2)

end Lists

namespace NodeList

variable {α σ : Type}

/-- The callback, with a list of the items that it was called with. -/
def recorded (f : α → StateM σ α) (a : α) : StateM (σ × List α) α := fun (s, calls) =>
  ((f a s).1, (f a s).2, calls ++ [a])

theorem mapM_recorded (f : α → StateM σ α) (as : List α) (s : σ) (calls : List α) :
    as.mapM (recorded f) (s, calls) = ((as.mapM f s).1, (as.mapM f s).2, calls ++ as) := by
  induction as generalizing s calls with
  | nil =>
    rw [List.append_nil]
    rfl
  | cons a as ih =>
    rw [mapM_cons_run, mapM_cons_run, recorded, ih, List.append_assoc, List.singleton_append]

variable [Placed α]

theorem changed?_cons (f : α → StateM σ α) (a : α) (as : List α) (s : σ) :
    changed? f (a :: as) s =
      if same (f a s).1 a then
        ((changed? f as (f a s).2).1.map (a :: ·), (changed? f as (f a s).2).2)
      else (some ((f a s).1 :: (as.mapM f (f a s).2).1), (as.mapM f (f a s).2).2) := by
  rcases hf : f a s with ⟨b, t⟩
  by_cases h : same b a
  · simp only [changed?, bind, StateT.bind, hf, h, if_true]
    rfl
  · simp only [changed?, bind, StateT.bind, hf, h, if_false, Bool.false_eq_true]
    rfl

theorem changed?_snd (f : α → StateM σ α) (as : List α) (s : σ) :
    (changed? f as s).2 = (as.mapM f s).2 := by
  induction as generalizing s with
  | nil => rfl
  | cons a as ih =>
    rw [changed?_cons, mapM_cons_run]
    split
    · exact ih (f a s).2
    · rfl

/-- Either no item was changed, or the new items are the instances that were answered. -/
theorem changed?_fst (f : α → StateM σ α) (as : List α) (s : σ) :
    ((changed? f as s).1 = none ∧ List.Forall₂ (same · ·) (as.mapM f s).1 as) ∨
      ∃ items, (changed? f as s).1 = some items ∧
        List.Forall₂ (same · ·) items (as.mapM f s).1 ∧
        ¬List.Forall₂ (same · ·) (as.mapM f s).1 as := by
  induction as generalizing s with
  | nil => exact .inl ⟨rfl, .nil⟩
  | cons a as ih =>
    rw [changed?_cons, mapM_cons_run, List.forall₂_cons]
    by_cases h : same (f a s).1 a
    · rw [if_pos h]
      -- the item itself stands before whatever was changed after it
      obtain ⟨hnone, hsame⟩ | ⟨items, hsome, hitems, hchanged⟩ := ih (f a s).2
      · exact .inl ⟨by rw [hnone]; rfl, h, hsame⟩
      · exact .inr ⟨a :: items, by rw [hsome]; rfl, .cons (same_symm h) hitems,
          fun hsame => hchanged hsame.2⟩
    · rw [if_neg h]
      exact .inr ⟨_, rfl, List.forall₂_same.2 fun b _ => same_self b, fun hsame => h hsame.1⟩

theorem changed?_recorded (f : α → StateM σ α) (as : List α) (s : σ) (calls : List α) :
    changed? (recorded f) as (s, calls) =
      ((changed? f as s).1, (changed? f as s).2, calls ++ as) := by
  induction as generalizing s calls with
  | nil =>
    rw [List.append_nil]
    rfl
  | cons a as ih =>
    have hcall : recorded f a (s, calls) = ((f a s).1, (f a s).2, calls ++ [a]) := rfl
    rw [changed?_cons, changed?_cons, hcall]
    by_cases h : same (f a s).1 a
    · simp only [h, if_true, ih, List.append_assoc, List.singleton_append]
    · simp only [h, if_false, Bool.false_eq_true, mapM_recorded, List.append_assoc,
        List.singleton_append]

theorem mapM_run (f : α → StateM σ α) (l : NodeList Origin α) (s : σ) :
    l.mapM f s = (match (changed? f l.items s).1 with
      | none => l
      | some items => ⟨l.origin.remade, items⟩, (l.items.mapM f s).2) := by
  rw [← changed?_snd, mapM]
  simp only [bind, StateT.bind]
  rcases changed? f l.items s with ⟨_ | items, t⟩ <;> rfl

theorem mapM_snd (f : α → StateM σ α) (l : NodeList Origin α) (s : σ) :
    (l.mapM f s).2 = (l.items.mapM f s).2 := by
  rw [mapM_run]

theorem mapM_fst (f : α → StateM σ α) (l : NodeList Origin α) (s : σ) :
    ((l.mapM f s).1 = l ∧ List.Forall₂ (same · ·) (l.items.mapM f s).1 l.items) ∨
      (l.mapM f s).1.origin = l.origin.remade ∧
        List.Forall₂ (same · ·) (l.mapM f s).1.items (l.items.mapM f s).1 ∧
        ¬List.Forall₂ (same · ·) (l.items.mapM f s).1 l.items := by
  rw [mapM_run]
  obtain ⟨hnone, hsame⟩ | ⟨items, hsome, hchanged⟩ := changed?_fst f l.items s
  · exact .inl ⟨by rw [hnone], hsame⟩
  · rw [hsome]
    exact .inr ⟨rfl, hchanged⟩

theorem same_mapM_iff (f : α → StateM σ α) (l : NodeList Origin α) (s : σ) :
    same (l.mapM f s).1 l ↔ List.Forall₂ (same · ·) (l.items.mapM f s).1 l.items := by
  obtain ⟨hkept, hsame⟩ | ⟨hmade, -, hchanged⟩ := mapM_fst f l s
  · rw [hkept]
    exact iff_of_true (same_self l) hsame
  · refine iff_of_false (fun h => ?_) hchanged
    have horigin : (l.mapM f s).1.origin = l.origin := Option.some.inj (of_decide_eq_true h)
    exact l.origin.remade_ne (hmade.symm.trans horigin)

/-- A list is answered item by item, each from the state that the one before left. It is kept
exactly where every answer is the instance of its item; a new list has the instances that were
answered as its items. -/
theorem mapM_shares (f : α → StateM σ α) (l : NodeList Origin α) (s : σ) (calls : List α) :
    let r := l.mapM f s
    l.mapM (recorded f) (s, calls) = (r.1, r.2, calls ++ l.items) ∧
      ∃ answers, Threaded (fun a s b t => f a s = (b, t)) l.items s answers r.2 ∧
        r.1.items.length = l.items.length ∧
        List.Forall₂ (same · ·) r.1.items answers ∧
        (same r.1 l ↔ List.Forall₂ (same · ·) answers l.items) ∧
        (r.1 = l ∨ r.1.origin = l.origin.remade) := by
  intro r
  constructor
  · rw [mapM_run, changed?_recorded, mapM_recorded]
    simp only [r, mapM_run f l s]
  · have hanswers := Threaded.of_mapM f l.items s
    rw [← mapM_snd] at hanswers
    refine ⟨_, hanswers, ?_⟩
    obtain ⟨hkept, hsame⟩ | ⟨hmade, hitems, -⟩ := mapM_fst f l s
    · have hr : r.1.items = l.items := congrArg NodeList.items hkept
      refine ⟨congrArg List.length hr, ?_, same_mapM_iff f l s, .inl hkept⟩
      rw [hr]
      exact hsame.flip.imp fun _ _ h => same_symm h
    · have hlength := hitems.length_eq.trans (length_mapM f l.items s)
      exact ⟨hlength, hitems, same_mapM_iff f l s, .inr hmade⟩

/-- Where only an item itself is answered as its instance, the answers make up the list. -/
theorem changed?_of_kept {f : α → StateM σ α} {as : List α}
    (hf : ∀ a ∈ as, ∀ s, same (f a s).1 a → (f a s).1 = a) (s : σ) :
    ((changed? f as s).1 = none ∧ (as.mapM f s).1 = as) ∨
      (changed? f as s).1 = some (as.mapM f s).1 ∧
        (as.mapM f s).1.map origin? ≠ as.map origin? := by
  induction as generalizing s with
  | nil => exact .inl ⟨rfl, rfl⟩
  | cons a as ih =>
    obtain ⟨ha, has⟩ := List.forall_mem_cons.1 hf
    rw [changed?_cons, mapM_cons_run]
    by_cases h : same (f a s).1 a
    · rw [if_pos h, ha s h]
      obtain ⟨hnone, hrest⟩ | ⟨hsome, hrest⟩ := ih has (f a s).2
      · exact .inl ⟨by rw [hnone]; rfl, congrArg (a :: ·) hrest⟩
      · exact .inr ⟨by rw [hsome]; rfl, fun heq => hrest (List.cons.inj heq).2⟩
    · rw [if_neg h]
      exact .inr ⟨rfl, fun heq => h (decide_eq_true (List.cons.inj heq).1)⟩

theorem mapM_of_kept {f : α → StateM σ α} {l : NodeList Origin α}
    (hf : ∀ a ∈ l.items, ∀ s, same (f a s).1 a → (f a s).1 = a) :
    l.mapM f = l.update <$> l.items.mapM f := by
  funext s
  rw [mapM_run]
  change _ = (l.update (l.items.mapM f s).1, (l.items.mapM f s).2)
  obtain ⟨hnone, hanswers⟩ | ⟨hsome, hplaces⟩ := changed?_of_kept hf s
  · rw [hnone, hanswers, update_items]
  · rw [hsome, update, if_neg hplaces]

theorem mapM_items_of_kept {f : α → StateM σ α} {l : NodeList Origin α}
    (hf : ∀ a ∈ l.items, ∀ s, same (f a s).1 a → (f a s).1 = a) (s : σ) :
    (l.mapM f s).1.items = (l.items.mapM f s).1 := by
  rw [mapM_run]
  obtain ⟨hnone, hanswers⟩ | ⟨hsome, -⟩ := changed?_of_kept hf s
  · rw [hnone, hanswers]
  · rw [hsome]

end NodeList

namespace Transform

open Node

variable {σ : Type} {T : Transform σ}

theorem each_eq_mapM (k : Kind) (each : List (Object Origin k) → StateM σ (List (Object Origin k)))
    (nil : each [] = pure [])
    (cons : ∀ x xs, each (x :: xs) = do return (← T.object k x) :: (← each xs))
    (xs : List (Object Origin k)) : each xs = xs.mapM (T.object k) := by
  induction xs with
  | nil => exact nil
  | cons x xs ih => rw [cons, List.mapM_cons, ih]

/-- On a separate tree only an object itself is answered as its instance. -/
theorem eq_of_same (hT : T.IsTame) {k : Kind} [Placed (Object Origin k)]
    (hplace : ∀ x : Object Origin k, place ⟨k, x⟩ = ScriptTree.origin? x) {x : Object Origin k}
    (hx : Separate ⟨k, x⟩) (s : σ) (hsame : same (T.object k x s).1 x) :
    (T.object k x s).1 = x := by
  have hkept : place (T.node ⟨k, x⟩ s).1 = place ⟨k, x⟩ := by
    rw [hplace]
    exact (hplace _).trans (of_decide_eq_true hsame)
  have heq := (T.node_tame hT hx s).eq_of_place_eq hx hkept
  exact eq_of_heq (Node.mk.inj heq).2

theorem walk_eq_mapM (hT : T.IsTame) (k : Kind) [Placed (Object Origin k)]
    (hplace : ∀ x : Object Origin k, place ⟨k, x⟩ = ScriptTree.origin? x)
    (each : List (Object Origin k) → StateM σ (List (Object Origin k))) (nil : each [] = pure [])
    (cons : ∀ x xs, each (x :: xs) = do return (← T.object k x) :: (← each xs))
    {l : NodeList Origin (Object Origin k)}
    (hl : ∀ c ∈ l.items.map (Node.mk k), Separate c) :
    l.update <$> each l.items = l.mapM (T.object k) := by
  rw [each_eq_mapM k each nil cons]
  refine (NodeList.mapM_of_kept fun x hx => ?_).symm
  exact eq_of_same hT hplace (hl _ (List.mem_map_of_mem hx))

/-- The lists of a separate tree are answered item by item, and kept where every item is. -/
theorem list_walks (hT : T.IsTame) :
    (∀ l, Separate ⟨.exprs, l⟩ → T.exprs l = T.visit .exprs l (l.mapM T.expr)) ∧
      (∀ l, Separate ⟨.properties, l⟩ →
        T.properties l = T.visit .properties l (l.mapM T.property)) ∧
      (∀ l, Separate ⟨.stmts, l⟩ → T.stmts l = T.visit .stmts l (l.mapM T.stmt)) ∧
      (∀ l, Separate ⟨.declarations, l⟩ →
        T.declarations l = T.visit .declarations l (l.mapM T.declaration)) ∧
      (∀ l, Separate ⟨.sections, l⟩ →
        T.sections l = T.visit .sections l (l.mapM T.caseSection)) ∧
      ∀ l, Separate ⟨.labels, l⟩ → T.labels l = T.visit .labels l (l.mapM T.label) := by
  refine ⟨?_, ?_, ?_, ?_, ?_, ?_⟩ <;> rintro ⟨o, xs⟩ hl
  · exact congrArg (T.visit .exprs ⟨o, xs⟩) (walk_eq_mapM hT .expr (fun _ => rfl) T.eachExpr rfl
      (fun _ _ => rfl) fun _ => hl.part)
  · exact congrArg (T.visit .properties ⟨o, xs⟩) (walk_eq_mapM hT .property (fun _ => rfl)
      T.eachProperty rfl (fun _ _ => rfl) fun _ => hl.part)
  · exact congrArg (T.visit .stmts ⟨o, xs⟩) (walk_eq_mapM hT .stmt (fun _ => rfl) T.eachStmt rfl
      (fun _ _ => rfl) fun _ => hl.part)
  · exact congrArg (T.visit .declarations ⟨o, xs⟩) (walk_eq_mapM hT .declaration (fun _ => rfl)
      T.eachDeclaration rfl (fun _ _ => rfl) fun _ => hl.part)
  · exact congrArg (T.visit .sections ⟨o, xs⟩) (walk_eq_mapM hT .caseSection (fun _ => rfl)
      T.eachSection rfl (fun _ _ => rfl) fun _ => hl.part)
  · exact congrArg (T.visit .labels ⟨o, xs⟩) (walk_eq_mapM hT .label (fun _ => rfl) T.eachLabel
      rfl (fun _ _ => rfl) fun _ => hl.part)

end Transform

end ScriptTree
