import ScriptTree.Proofs.Numbering

namespace ScriptTree

variable {ι κ : Type}

theorem ExprShape.eq_of_parts {s t : ExprShape ι} (hhead : s.head = t.head)
    (hparts : s.parts = t.parts) : s = t := by
  cases s <;> cases t <;> simp only [ExprShape.head, reduceCtorEq] at hhead <;>
    simp_all [ExprShape.parts]

theorem StmtShape.eq_of_parts {s t : StmtShape ι} (hhead : s.head = t.head)
    (hparts : s.parts = t.parts) : s = t := by
  -- the heads agree on which optional parts there are
  cases s <;> cases t <;> try (simp [StmtShape.head] at hhead; done)
  case forLoop.forLoop i c t b i' c' t' b' =>
    cases i <;> cases i' <;> cases c <;> cases c' <;> cases t <;> cases t' <;>
      simp_all [StmtShape.head, StmtShape.parts, Node.ofOption]
  case ifElse.ifElse c t e c' t' e' =>
    cases e <;> cases e' <;> simp_all [StmtShape.head, StmtShape.parts, Node.ofOption]
  case tryCatch.tryCatch b c f b' c' f' =>
    cases c <;> cases c' <;> cases f <;> cases f' <;>
      simp_all [StmtShape.head, StmtShape.parts, Node.ofOption]
  case ret.ret v v' | yield.yield v v' =>
    cases v <;> cases v' <;> simp_all [StmtShape.head, StmtShape.parts, Node.ofOption]
  all_goals simp_all [StmtShape.head, StmtShape.parts]

theorem eq_of_forall₂ {α β : Type} {R : α → β → Prop} {as : List α} {bs bs' : List β}
    (h : List.Forall₂ R as bs) (h' : List.Forall₂ R as bs')
    (hunique : ∀ a ∈ as, ∀ b b', R a b → R a b' → b = b') : bs = bs' := by
  induction h generalizing bs' with
  | nil =>
    cases h'
    rfl
  | cons hab _ ih =>
    cases h' with
    | cons hab' h' =>
      obtain ⟨hu, hus⟩ := List.forall_mem_cons.1 hunique
      rw [hu _ _ hab hab', ih h' hus]

namespace Node

theorem list_eq_of_parts {α : Type} {f : α → Node ι} (hf : ∀ a b, f a = f b → a = b)
    {l l' : NodeList ι α} (horigin : l.origin = l'.origin)
    (hparts : l.items.map f = l'.items.map f) : l = l' := by
  have hinj : Function.Injective f := fun a b => hf a b
  have hitems : l.items = l'.items := List.map_injective_iff.2 hinj hparts
  obtain ⟨o, xs⟩ := l
  obtain ⟨o', xs'⟩ := l'
  exact congrArg₂ NodeList.mk horigin hitems

/-- An object is determined by what it holds itself, its identity and its parts. -/
theorem eq_of_parts {n n' : Node ι} (ha : n.Alike n')
    (horigin : Object.origin? n.kind n.object = Object.origin? n'.kind n'.object)
    (hparts : n.parts = n'.parts) : n = n' := by
  obtain ⟨k, x⟩ := n
  obtain ⟨k', x'⟩ := n'
  obtain rfl : k = k' := ha.kind_eq
  have hinj {k : Kind} : ∀ a b, Node.mk (ι := ι) k a = ⟨k, b⟩ → a = b := by
    rintro a b ⟨⟩
    rfl
  cases k
  case expr =>
    obtain ⟨o, s⟩ := x
    obtain ⟨o', s'⟩ := x'
    obtain rfl : o = o' := Option.some.inj horigin
    obtain rfl : s = s' := ExprShape.eq_of_parts (alike_expr_iff.1 ha) hparts
    rfl
  case stmt =>
    cases x <;> cases x' <;> simp [Alike, head] at ha
    · rename_i b b'
      obtain ⟨o, l⟩ := b
      obtain ⟨o', l'⟩ := b'
      obtain rfl : o = o' := Option.some.inj horigin
      obtain rfl : l = l' := hinj _ _ (List.singleton_inj.1 hparts)
      rfl
    · rename_i o s o' s'
      obtain rfl : o = o' := Option.some.inj horigin
      obtain rfl : s = s' := StmtShape.eq_of_parts ha hparts
      rfl
  case label =>
    cases x <;> cases x' <;> simp [Alike, head] at ha
    · rename_i e e'
      obtain rfl : e = e' := hinj _ _ (List.singleton_inj.1 hparts)
      rfl
    · rfl
  case exprs | stmts | properties | declarations | sections | labels =>
    have horigin : x.origin = x'.origin := Option.some.inj horigin
    exact congrArg (Node.mk _) (list_eq_of_parts hinj horigin hparts)
  case declaration =>
    obtain ⟨o, d, v⟩ := x
    obtain ⟨o', d', v'⟩ := x'
    obtain rfl : o = o' := Option.some.inj horigin
    cases v <;> cases v' <;> simp_all [Alike, head, parts, ofOption]
  all_goals
    cases x
    cases x'
    simp_all [Alike, head, parts, Object.origin?]

/-- The objects of a tree, each after its parts. -/
def postorder (n : Node ι) : List (Node ι) :=
  (n.parts.attach.flatMap fun c => postorder c.1) ++ [n]
termination_by n.size
decreasing_by exact size_lt_of_mem_parts c.2

theorem postorder_eq (n : Node ι) : n.postorder = n.parts.flatMap postorder ++ [n] := by
  rw [postorder]
  simp only [List.flatMap_subtype, List.unattach_attach]

def bare (n : Node ι) : Node Unit := ⟨n.kind, Object.bare n.kind n.object⟩

theorem bare_each (k : Kind) (each : List (Object ι k) → Id (List (Object Unit k)))
    (nil : each [] = pure [])
    (cons : ∀ x xs, each (x :: xs) = do
      return (← Relabel.object (fun _ => pure ()) k x) :: (← each xs))
    (xs : List (Object ι k)) :
    (each xs).run.map (Node.mk k) = (xs.map (Node.mk k)).map bare := by
  induction xs with
  | nil =>
    rw [nil]
    rfl
  | cons x xs ih =>
    rw [cons, List.map_cons, List.map_cons, ← ih]
    rfl

theorem bare_parts (n : Node ι) : n.bare.parts = n.parts.map bare := by
  obtain ⟨k, x⟩ := n
  cases k
  case expr => rcases x with ⟨_, _ | _⟩ <;> rfl
  case stmt =>
    rcases x with ⟨_, _⟩ | ⟨_, s⟩
    · rfl
    · cases s
      case forLoop i c t b => cases i <;> cases c <;> cases t <;> rfl
      case ifElse c t e => cases e <;> rfl
      case tryCatch b h c => cases h <;> cases c <;> rfl
      case ret v | yield v => cases v <;> rfl
      all_goals rfl
  case label => cases x <;> rfl
  case declaration => rcases x with ⟨_, _, _ | _⟩ <;> rfl
  case block | property | caseSection | catchClause =>
    cases x
    rfl
  all_goals obtain ⟨_, xs⟩ := x
  case exprs => exact bare_each .expr (Relabel.eachExpr _) rfl (fun _ _ => rfl) xs
  case stmts => exact bare_each .stmt (Relabel.eachStmt _) rfl (fun _ _ => rfl) xs
  case properties => exact bare_each .property (Relabel.eachProperty _) rfl (fun _ _ => rfl) xs
  case declarations =>
    exact bare_each .declaration (Relabel.eachDeclaration _) rfl (fun _ _ => rfl) xs
  case sections => exact bare_each .caseSection (Relabel.eachSection _) rfl (fun _ _ => rfl) xs
  case labels => exact bare_each .label (Relabel.eachLabel _) rfl (fun _ _ => rfl) xs

/-- A block has the parts of the statement that it stands as. -/
theorem bare_block_parts (b : Block ι) :
    (bare ⟨.stmt, .block b⟩).parts = (bare ⟨.block, b⟩).parts := by
  rw [bare_parts, bare_parts]
  rfl

theorem bare_head (n : Node ι) : n.bare.head = n.head := by
  obtain ⟨k, x⟩ := n
  cases k
  case expr => rcases x with ⟨_, _ | _⟩ <;> rfl
  case stmt =>
    rcases x with ⟨_, _⟩ | ⟨_, s⟩
    · rfl
    · cases s
      case forLoop i c t b => cases i <;> cases c <;> cases t <;> rfl
      case ifElse c t e => cases e <;> rfl
      case tryCatch b h c => cases h <;> cases c <;> rfl
      case ret v | yield v => cases v <;> rfl
      all_goals rfl
  case label => cases x <;> rfl
  case declaration => rcases x with ⟨_, _, _ | _⟩ <;> rfl
  all_goals
    cases x
    rfl

theorem bare_own {α : Type} (f : Node Unit → α) (n : Node ι) : n.bare.own f = n.own f :=
  congrArg f n.bare_head

/-- A bare object is determined by what it holds itself and its parts. -/
theorem bare_eq_of_parts {n n' : Node Unit} (ha : n.Alike n') (hparts : n.parts = n'.parts) :
    n = n' := by
  have horigin : Object.origin? n.kind n.object = Object.origin? n'.kind n'.object := by
    obtain ⟨k, x⟩ := n
    obtain ⟨k', x'⟩ := n'
    obtain rfl : k = k' := ha.kind_eq
    cases k <;> rfl
  exact eq_of_parts ha horigin hparts

theorem bare_self (n : Node Unit) : n.bare = n := by
  induction n using Node.induction with
  | step n ih =>
    apply bare_eq_of_parts (bare_head n)
    rw [bare_parts]
    calc
      n.parts.map bare = n.parts.map id := List.map_congr_left ih
      _ = n.parts := List.map_id n.parts

theorem postorder_bare (n : Node ι) : n.bare.postorder = n.postorder.map bare := by
  induction n using Node.induction with
  | step n ih =>
    rw [postorder_eq, postorder_eq n, bare_parts, List.map_append, List.flatMap_map,
      List.map_flatMap, List.flatMap_congr ih]
    rfl

theorem number_head (n : Node ι) (s : Nat) : (n.number s).1.head = n.head := by
  obtain ⟨k, x⟩ := n
  cases k
  case expr => rcases x with ⟨_, _ | _⟩ <;> rfl
  case stmt =>
    rcases x with ⟨_, _⟩ | ⟨_, s⟩
    · rfl
    · cases s
      case forLoop i c t b => cases i <;> cases c <;> cases t <;> rfl
      case ifElse c t e => cases e <;> rfl
      case tryCatch b h c => cases h <;> cases c <;> rfl
      case ret v | yield v => cases v <;> rfl
      all_goals rfl
  case label => cases x <;> rfl
  case declaration => rcases x with ⟨_, _, _ | _⟩ <;> rfl
  all_goals
    cases x
    rfl

/-- Numbering a tree only gives identities. -/
theorem bare_number (n : Node ι) (s : Nat) : (n.number s).1.bare = n.bare := by
  induction n using Node.induction generalizing s with
  | step n ih =>
    apply bare_eq_of_parts
    · rw [Alike, bare_head, bare_head, number_head]
    · rw [bare_parts, bare_parts]
      have hparts {s t ns} (h : Threaded Numbers n.parts s ns t) :
          ns.map bare = n.parts.map bare := by
        apply h.map_eq
        intro c hc s m t hm
        have hbare := ih c hc s
        rwa [show c.number s = (m, t) from hm] at hbare
      obtain ⟨-, h⟩ | ⟨-, h⟩ := number_parts n s
      · exact hparts h
      · exact hparts h

theorem bare_number_object (start : Nat) (k : Kind) (x : Object Unit k) :
    Node.bare ⟨k, (Object.number start k x).1⟩ = ⟨k, x⟩ :=
  (bare_number ⟨k, x⟩ start).trans (bare_self ⟨k, x⟩)

end Node

end ScriptTree
