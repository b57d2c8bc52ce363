import ScriptTree.Numbering
import ScriptTree.Proofs.Identity

namespace ScriptTree

open Node

variable {ι : Type}

namespace Node

/-- Numbers the objects from a number on, and leaves the next free one. -/
def number (n : Node ι) : StateM Nat (Node Origin) := fun s =>
  (⟨n.kind, (Object.number s n.kind n.object).1⟩, (Object.number s n.kind n.object).2)

/-- Numbering `n` from `s` on gives `n'` and leaves `t`. -/
def Numbers (n : Node ι) (s : Nat) (n' : Node Origin) (t : Nat) : Prop := n.number s = (n', t)

theorem number_exprShape (s : Nat) (e : ExprShape ι) :
    Threaded Numbers e.parts s (Relabel.exprShape (fun _ => Origin.fresh) e s).1.parts
      (Relabel.exprShape (fun _ => Origin.fresh) e s).2 := by
  cases e <;> repeat (first | exact .nil _ | refine .cons rfl ?_)

theorem number_stmtShape (s : Nat) (e : StmtShape ι) :
    Threaded Numbers e.parts s (Relabel.stmtShape (fun _ => Origin.fresh) e s).1.parts
      (Relabel.stmtShape (fun _ => Origin.fresh) e s).2 := by
  cases e
  case forLoop i c t b =>
    cases i <;> cases c <;> cases t <;> repeat (first | exact .nil _ | refine .cons rfl ?_)
  case ifElse c t e => cases e <;> repeat (first | exact .nil _ | refine .cons rfl ?_)
  case tryCatch b h c =>
    cases h <;> cases c <;> repeat (first | exact .nil _ | refine .cons rfl ?_)
  case ret v | yield v => cases v <;> repeat (first | exact .nil _ | refine .cons rfl ?_)
  all_goals repeat (first | exact .nil _ | refine .cons rfl ?_)

theorem number_each (k : Kind) (each : List (Object ι k) → StateM Nat (List (Object Origin k)))
    (nil : each [] = pure [])
    (cons : ∀ x xs, each (x :: xs) = do
      return (← Relabel.object (fun _ => Origin.fresh) k x) :: (← each xs))
    (s : Nat) (xs : List (Object ι k)) :
    Threaded Numbers (xs.map (Node.mk k)) s ((each xs s).1.map (Node.mk k)) (each xs s).2 := by
  induction xs generalizing s with
  | nil =>
    rw [nil]
    exact .nil s
  | cons x xs ih =>
    rw [cons]
    exact .cons rfl (ih _)

/-- An object takes a number and leaves the following ones to its parts; a label takes none. -/
theorem number_parts (n : Node ι) (s : Nat) :
    ((n.number s).1.origin? = none ∧
        Threaded Numbers n.parts s (n.number s).1.parts (n.number s).2) ∨
      (n.number s).1.origin? = some (.given s) ∧
        Threaded Numbers n.parts (s + 1) (n.number s).1.parts (n.number s).2 := by
  obtain ⟨k, x⟩ := n
  cases k
  case expr =>
    cases x
    exact .inr ⟨rfl, number_exprShape _ _⟩
  case stmt =>
    cases x with
    | block b =>
      cases b
      exact .inr ⟨rfl, .cons rfl (.nil _)⟩
    | node o e => exact .inr ⟨rfl, number_stmtShape _ _⟩
  case label =>
    cases x with
    | value e => exact .inl ⟨rfl, .cons rfl (.nil _)⟩
    | default => exact .inl ⟨rfl, .nil _⟩
  case declaration =>
    obtain ⟨o, n, v⟩ := x
    cases v with
    | none => exact .inr ⟨rfl, .nil _⟩
    | some v => exact .inr ⟨rfl, .cons rfl (.nil _)⟩
  case block | property | catchClause =>
    cases x
    exact .inr ⟨rfl, .cons rfl (.nil _)⟩
  case caseSection =>
    cases x
    exact .inr ⟨rfl, .cons rfl (.cons rfl (.nil _))⟩
  case exprs =>
    obtain ⟨o, xs⟩ := x
    exact .inr ⟨rfl, number_each .expr (Relabel.eachExpr _) rfl (fun _ _ => rfl) _ _⟩
  case stmts =>
    obtain ⟨o, xs⟩ := x
    exact .inr ⟨rfl, number_each .stmt (Relabel.eachStmt _) rfl (fun _ _ => rfl) _ _⟩
  case properties =>
    obtain ⟨o, xs⟩ := x
    exact .inr ⟨rfl, number_each .property (Relabel.eachProperty _) rfl (fun _ _ => rfl) _ _⟩
  case declarations =>
    obtain ⟨o, xs⟩ := x
    exact .inr ⟨rfl, number_each .declaration (Relabel.eachDeclaration _) rfl (fun _ _ => rfl)
      _ _⟩
  case sections =>
    obtain ⟨o, xs⟩ := x
    exact .inr ⟨rfl, number_each .caseSection (Relabel.eachSection _) rfl (fun _ _ => rfl) _ _⟩
  case labels =>
    obtain ⟨o, xs⟩ := x
    exact .inr ⟨rfl, number_each .label (Relabel.eachLabel _) rfl (fun _ _ => rfl) _ _⟩

/-- The origins of the tree are numbers from `s` to below `t`, or can be made in their places. -/
def Within (s t : Nat) (n : Node Origin) : Prop :=
  ∀ p, Region n p → ∃ m, s ≤ m ∧ m < t ∧ (Origin.given m).Covers p

theorem Within.mono {s s' t t' : Nat} {n : Node Origin} (h : Within s t n) (hs : s' ≤ s)
    (ht : t ≤ t') : Within s' t' n := by
  intro p hp
  obtain ⟨m, hsm, hmt, hm⟩ := h p hp
  exact ⟨m, Nat.le_trans hs hsm, Nat.lt_of_lt_of_le hmt ht, hm⟩

/-- A separate tree that was numbered from `s` on and left `t` as the next number. -/
structure Numbered (n : Node Origin) (s t : Nat) : Prop where
  le : s ≤ t
  separate : Separate n
  within : Within s t n

theorem Numbered.threaded {cs : List (Node ι)} {ns : List (Node Origin)} {s t : Nat}
    (h : Threaded (fun _ s n t => Numbered n s t) cs s ns t) :
    s ≤ t ∧ ∀ n ∈ ns, Separate n ∧ Within s t n := by
  induction h with
  | nil s => exact ⟨Nat.le_refl s, nofun⟩
  | cons hn _ ih =>
    obtain ⟨htu, hns⟩ := ih
    have hhead := hn.within.mono (Nat.le_refl _) htu
    refine ⟨Nat.le_trans hn.le htu, List.forall_mem_cons.2 ⟨⟨hn.separate, hhead⟩, ?_⟩⟩
    intro m hm
    obtain ⟨hseparate, hwithin⟩ := hns m hm
    exact ⟨hseparate, hwithin.mono hn.le (Nat.le_refl _)⟩

theorem number_numbered (n : Node ι) (s : Nat) : Numbered (n.number s).1 s (n.number s).2 := by
  induction n using Node.induction generalizing s with
  | step n ih =>
    have hthreaded {s ns t} (h : Threaded Numbers n.parts s ns t) :
        s ≤ t ∧ ∀ n ∈ ns, Separate n ∧ Within s t n := by
      refine Numbered.threaded (h.imp fun c hc s m t hm => ?_)
      have hnumbered := ih c hc s
      rw [hm] at hnumbered
      exact hnumbered
    obtain ⟨ho, h⟩ | ⟨ho, h⟩ := number_parts n s
    · obtain ⟨hle, hns⟩ := hthreaded h
      refine ⟨hle, .intro ?_ fun c hc => (hns c hc).1, fun p hp => ?_⟩
      · intro o p ho'
        exact absurd (ho.symm.trans ho') nofun
      · obtain ⟨o, ho', -⟩ | ⟨c, hc, hp⟩ := region_iff.1 hp
        · exact absurd (ho.symm.trans ho') nofun
        · exact (hns c hc).2 p hp
    · obtain ⟨hle, hns⟩ := hthreaded h
      refine ⟨Nat.le_of_succ_le hle, .intro ?_ fun c hc => (hns c hc).1, fun p hp => ?_⟩
      · -- the object's own number is smaller than those below it
        intro o p ho' hp c hc hcp
        obtain rfl := Option.some.inj (ho.symm.trans ho')
        obtain ⟨m, hm, -, hmp⟩ := (hns c hc).2 p hcp
        have := hp.number_eq hmp
        omega
      · obtain ⟨o, ho', hp⟩ | ⟨c, hc, hp⟩ := region_iff.1 hp
        · obtain rfl := Option.some.inj (ho.symm.trans ho')
          exact ⟨s, Nat.le_refl s, hle, hp⟩
        · exact (hns c hc).2.mono (Nat.le_succ s) (Nat.le_refl _) p hp

end Node

theorem number_separate (start : Nat) (k : Kind) (x : Object ι k) :
    Separate ⟨k, (Object.number start k x).1⟩ :=
  (number_numbered ⟨k, x⟩ start).separate

theorem Threaded.append {α β γ : Type} {f : α → List γ} {as : List α} {bs : List β}
    {s t : Array γ} (h : Threaded (fun a s _ t => t.toList = s.toList ++ f a) as s bs t) :
    t.toList = s.toList ++ as.flatMap f := by
  induction h with
  | nil s => exact (List.append_nil _).symm
  | cons ht _ ih => rw [ih, ht, List.flatMap_cons, List.append_assoc]

/-- The number of an object that is among the first `known`. -/
def Node.known? (known : Nat) (n : Node Origin) : Option Nat := n.origin?.bind (·.known? known)

/-- What a census tells of a tree. -/
def Node.entries (known : Nat) (n : Node Origin) : List (Option Nat) :=
  (n.preorder fun m => (m.known? known).isNone).filterMap fun m => m.origin?.map (·.known? known)

theorem entries_eq (known : Nat) (n : Node Origin) :
    n.entries known = (n.origin?.map (·.known? known)).toList ++
      if (n.known? known).isNone then n.parts.flatMap (Node.entries known) else [] :=
  filterMap_preorder _ _ n

/-- One step of a census, the traversal below having told of what is there. -/
theorem census_visit (known : Nat) (k : Kind) (x : Object Origin k)
    (walk : StateM (Array (Option Nat)) (Object Origin k))
    (hwalk : ∀ s, (walk s).1 = x ∧
      (walk s).2.toList = s.toList ++ (parts ⟨k, x⟩).flatMap (Node.entries known))
    (s : Array (Option Nat)) :
    ((Transform.census known).visit k x walk s).1 = x ∧
      ((Transform.census known).visit k x walk s).2.toList =
        s.toList ++ Node.entries known ⟨k, x⟩ := by
  rw [entries_eq, Node.known?]
  cases ho : Object.origin? k x with
  | none =>
    have ho' : Node.origin? ⟨k, x⟩ = none := ho
    simpa [Transform.census, ho, ho'] using hwalk s
  | some o =>
    have ho' : Node.origin? ⟨k, x⟩ = some o := ho
    cases hn : o.known? known with
    | none =>
      obtain ⟨hfst, hsnd⟩ := hwalk (s.push none)
      simp only [Transform.census, ho, ho', hn]
      exact ⟨hfst, hsnd.trans (by simp [hn])⟩
    | some n =>
      simp only [Transform.census, ho, ho', hn]
      refine ⟨rfl, ?_⟩
      change (s.push (some n)).toList = _
      simp [hn]

/-- The census tells of the objects in pre-order, none of them below a known one. -/
theorem census_eq (known : Nat) (k : Kind) (x : Object Origin k) :
    Object.census known k x = Node.entries known ⟨k, x⟩ := by
  have hnode : ∀ (n : Node Origin) (s : Array (Option Nat)),
      ((Transform.census known).node n s).1 = n ∧
        ((Transform.census known).node n s).2.toList = s.toList ++ n.entries known := by
    refine (Transform.census known).induction (P := fun n s n' s' =>
      n' = n ∧ s'.toList = s.toList ++ n.entries known) ?_ ?_
    · rintro b s b' s' ⟨heq, hs⟩
      cases heq
      refine ⟨rfl, ?_⟩
      rw [hs, entries_eq, entries_eq known ⟨.stmt, .block b⟩]
      rfl
    · intro k x walk hwalk s
      have hwalked : ∀ s, (walk s).1 = x ∧
          (walk s).2.toList = s.toList ++ (parts ⟨k, x⟩).flatMap (Node.entries known) := by
        intro s
        obtain ⟨ns, hns, hr⟩ := hwalk s
        have hsame : List.Forall₂ Eq (parts ⟨k, x⟩) ns := hns.forall₂ fun _ _ _ _ _ h => h.1.symm
        rw [List.forall₂_eq_eq_eq] at hsame
        subst hsame
        have hs := (hns.imp fun _ _ _ _ _ h => h.2).append
        exact ⟨eq_of_heq (Node.mk.inj hr.eq_self).2, hs⟩
      obtain ⟨hfst, hsnd⟩ := census_visit known k x walk hwalked s
      exact ⟨congrArg (Node.mk k) hfst, hsnd⟩
  exact (hnode ⟨k, x⟩ #[]).2

end ScriptTree
