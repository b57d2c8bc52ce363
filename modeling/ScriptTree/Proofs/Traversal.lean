import ScriptTree.Proofs.Node
import ScriptTree.Transform

namespace ScriptTree

/-- The items of two lists are related in order, each pair from the state the one before left. -/
inductive Threaded {α β σ : Type} (R : α → σ → β → σ → Prop) : List α → σ → List β → σ → Prop
  | nil (s : σ) : Threaded R [] s [] s
  | cons {a b s t u as bs} : R a s b t → Threaded R as t bs u → Threaded R (a :: as) s (b :: bs) u

namespace Threaded

variable {α β σ : Type} {R : α → σ → β → σ → Prop} {as : List α} {bs : List β} {s t : σ}

theorem imp {Q : α → σ → β → σ → Prop} (h : Threaded R as s bs t)
    (himp : ∀ a ∈ as, ∀ s b t, R a s b t → Q a s b t) : Threaded Q as s bs t := by
  induction h with
  | nil s => exact .nil s
  | cons hab _ ih =>
    exact .cons (himp _ List.mem_cons_self _ _ _ hab)
      (ih fun a ha => himp a (List.mem_cons_of_mem _ ha))

theorem forall₂ {Q : α → β → Prop} (h : Threaded R as s bs t)
    (himp : ∀ a ∈ as, ∀ s b t, R a s b t → Q a b) : List.Forall₂ Q as bs := by
  induction h with
  | nil s => exact .nil
  | cons hab _ ih =>
    exact .cons (himp _ List.mem_cons_self _ _ _ hab)
      (ih fun a ha => himp a (List.mem_cons_of_mem _ ha))

theorem forall_right {Q : β → Prop} (h : Threaded R as s bs t)
    (himp : ∀ a s b t, R a s b t → Q b) : ∀ b ∈ bs, Q b := by
  induction h with
  | nil s => nofun
  | cons hab _ ih => exact List.forall_mem_cons.2 ⟨himp _ _ _ _ hab, ih⟩

/-- Two lists that are related item by item, each answered from a state on. -/
theorem forall₂_both {α' β' τ : Type} {R' : α' → τ → β' → τ → Prop} {A : α → α' → Prop}
    {B : β → β' → Prop} {D : σ → τ → Prop} {as' : List α'} {bs' : List β'} {s' t' : τ}
    (h : Threaded R as s bs t) (h' : Threaded R' as' s' bs' t') (hA : List.Forall₂ A as as')
    (hD : D s s') (himp : ∀ a ∈ as, ∀ a' ∈ as', A a a' → ∀ s b t s' b' t', D s s' →
      R a s b t → R' a' s' b' t' → B b b' ∧ D t t') :
    List.Forall₂ B bs bs' ∧ D t t' := by
  induction h generalizing as' bs' s' t' with
  | nil s =>
    cases hA
    cases h'
    exact ⟨.nil, hD⟩
  | cons hab _ ih =>
    cases hA with
    | cons haa hA =>
      cases h' with
      | cons hab' h' =>
        obtain ⟨hbb, hD⟩ :=
          himp _ List.mem_cons_self _ List.mem_cons_self haa _ _ _ _ _ _ hD hab hab'
        obtain ⟨hbs, hD⟩ := ih h' hA hD fun a ha a' ha' =>
          himp a (List.mem_cons_of_mem _ ha) a' (List.mem_cons_of_mem _ ha')
        exact ⟨.cons hbb hbs, hD⟩

/-- What each answer asks of the state before it, from the last to the first. -/
theorem backward {I : σ → Prop} {Q : β → Prop} (h : Threaded R as s bs t)
    (himp : ∀ a s b t, R a s b t → I t → I s ∧ Q b) (ht : I t) : I s ∧ ∀ b ∈ bs, Q b := by
  induction h with
  | nil s => exact ⟨ht, nofun⟩
  | cons hab _ ih =>
    obtain ⟨hu, hbs⟩ := ih ht
    obtain ⟨hs, hb⟩ := himp _ _ _ _ hab hu
    exact ⟨hs, List.forall_mem_cons.2 ⟨hb, hbs⟩⟩

theorem eq_self {R : α → σ → α → σ → Prop} {as bs : List α} (h : Threaded R as s bs t)
    (himp : ∀ a ∈ as, ∀ s b t, R a s b t → b = a ∧ t = s) : bs = as ∧ t = s := by
  induction h with
  | nil s => exact ⟨rfl, rfl⟩
  | cons hab _ ih =>
    obtain ⟨rfl, rfl⟩ := himp _ List.mem_cons_self _ _ _ hab
    obtain ⟨rfl, rfl⟩ := ih fun a ha => himp a (List.mem_cons_of_mem _ ha)
    exact ⟨rfl, rfl⟩

theorem map_eq {τ : Type} {f : α → τ} {g : β → τ} (h : Threaded R as s bs t)
    (himp : ∀ a ∈ as, ∀ s b t, R a s b t → g b = f a) : bs.map g = as.map f := by
  induction h with
  | nil s => rfl
  | cons hab _ ih =>
    rw [List.map_cons, List.map_cons, himp _ List.mem_cons_self _ _ _ hab,
      ih fun a ha => himp a (List.mem_cons_of_mem _ ha)]

end Threaded

theorem exists_of_mem_right {α β : Type} {R : α → β → Prop} {as : List α} {bs : List β}
    (h : List.Forall₂ R as bs) {b : β} (hb : b ∈ bs) : ∃ a ∈ as, R a b := by
  induction h with
  | nil => exact absurd hb List.not_mem_nil
  | cons hab _ ih =>
    obtain rfl | hb := List.mem_cons.1 hb
    · exact ⟨_, List.mem_cons_self, hab⟩
    · obtain ⟨a, ha, hab⟩ := ih hb
      exact ⟨a, List.mem_cons_of_mem _ ha, hab⟩

theorem forall₂_imp_of_mem {α β : Type} {R Q : α → β → Prop} {as : List α} {bs : List β}
    (h : List.Forall₂ R as bs) (himp : ∀ a ∈ as, ∀ b, R a b → Q a b) : List.Forall₂ Q as bs :=
  ((List.forall₂_and_left as bs).2 ⟨himp, h⟩).imp fun _ b hab => hab.1 b hab.2

theorem forall₂_trans_of_mem {α β τ : Type} {R : α → β → Prop} {S : β → τ → Prop}
    {Q : α → τ → Prop} {as : List α} {bs : List β} {cs : List τ} (h : List.Forall₂ R as bs)
    (h' : List.Forall₂ S bs cs) (himp : ∀ a ∈ as, ∀ b c, R a b → S b c → Q a c) :
    List.Forall₂ Q as cs := by
  induction h generalizing cs with
  | nil =>
    cases h'
    exact .nil
  | cons hab _ ih =>
    obtain ⟨hhead, htail⟩ := List.forall_mem_cons.1 himp
    cases h' with
    | cons hbc h' => exact .cons (hhead _ _ hab hbc) (ih h' htail)

theorem map_eq_map_iff_forall₂ {α β τ : Type} {f : α → τ} {g : β → τ} {as : List α}
    {bs : List β} : as.map f = bs.map g ↔ List.Forall₂ (fun a b => f a = g b) as bs := by
  rw [← List.forall₂_eq_eq_eq, List.forall₂_map_left_iff, List.forall₂_map_right_iff]

namespace Node

def origin? (n : Node Origin) : Option Origin := Object.origin? n.kind n.object

/-- The origin by which an object is told from others; that of a case label is its expression's. -/
def place : Node Origin → Option Origin
  | ⟨.label, l⟩ => ScriptTree.origin? l
  | ⟨k, x⟩ => Object.origin? k x

theorem place_eq_origin? {n : Node Origin} (h : n.kind ≠ .label) : n.place = n.origin? := by
  obtain ⟨k, x⟩ := n
  cases k <;> first | rfl | exact absurd rfl h

theorem exists_origin? {n : Node Origin} (h : n.kind ≠ .label) : ∃ o, n.origin? = some o := by
  obtain ⟨k, x⟩ := n
  cases k <;> first | exact ⟨_, rfl⟩ | exact absurd rfl h

theorem map_place_eq_iff {α : Type} [Placed α] {f : α → Node Origin}
    (hf : ∀ a, (f a).place = ScriptTree.origin? a) {xs ys : List α} :
    xs.map ScriptTree.origin? = ys.map ScriptTree.origin? ↔
      (xs.map f).map place = (ys.map f).map place := by
  simp only [List.map_map, Function.comp_def, hf]

/-- What a traversal makes of an object whose parts were answered by `ns`. -/
inductive Rebuilt (n : Node Origin) (ns : List (Node Origin)) : Node Origin → Prop
  | kept : ns.map place = n.parts.map place → Rebuilt n ns n
  | remade {n'} : (n.kind ≠ .label → ns.map place ≠ n.parts.map place) → n.Alike n' →
      n'.parts = ns → n'.origin? = n.origin?.map .remade → Rebuilt n ns n'

theorem Rebuilt.of_ite {k : Kind} {x y : Object Origin k} {ns : List (Node Origin)} {c : Prop}
    [Decidable c] (hc : c ↔ ns.map place = (parts ⟨k, x⟩).map place) (ha : Alike ⟨k, x⟩ ⟨k, y⟩)
    (hp : parts ⟨k, y⟩ = ns) (ho : origin? ⟨k, y⟩ = (origin? ⟨k, x⟩).map .remade) :
    Rebuilt ⟨k, x⟩ ns ⟨k, if c then x else y⟩ := by
  by_cases h : c
  · rw [if_pos h]
    exact .kept (hc.1 h)
  · rw [if_neg h]
    exact .remade (fun _ hn => h (hc.2 hn)) ha hp ho

theorem Rebuilt.alike {n n' : Node Origin} {ns : List (Node Origin)} (h : n.Rebuilt ns n') :
    n.Alike n' := by
  cases h with
  | kept _ => exact .refl n
  | remade _ ha _ _ => exact ha

theorem Rebuilt.length_parts {n n' : Node Origin} {ns : List (Node Origin)} (h : n.Rebuilt ns n') :
    n'.parts.length = ns.length := by
  cases h with
  | kept hplaces => simpa using (congrArg List.length hplaces).symm
  | remade _ _ hp _ => rw [hp]

theorem eq_of_label {n n' : Node Origin} (hk : n.kind = .label) (ha : n.Alike n')
    (hp : n'.parts = n.parts) : n' = n := by
  obtain ⟨k, l⟩ := n
  obtain ⟨k', l'⟩ := n'
  obtain rfl : k = .label := hk
  obtain rfl : k' = .label := ha.kind_eq.symm
  cases l <;> cases l' <;> try cases ha
  · cases hp
    rfl
  · rfl

theorem Rebuilt.eq_self {n n' : Node Origin} (h : n.Rebuilt n.parts n') : n' = n := by
  cases h with
  | kept _ => rfl
  | remade hne ha hp _ =>
    have hk : n.kind = .label := by
      by_contra hk
      exact hne hk rfl
    exact eq_of_label hk ha hp

/-- The object is the instance that it was exactly when every part is. -/
theorem Rebuilt.place_eq_iff {n n' : Node Origin} {ns : List (Node Origin)} (h : n.Rebuilt ns n') :
    n'.place = n.place ↔ ns.map place = n.parts.map place := by
  cases h with
  | kept hplaces => exact iff_of_true rfl hplaces
  | remade hne ha hp ho =>
    by_cases hk : n.kind = .label
    · obtain ⟨k, l⟩ := n
      obtain ⟨k', l'⟩ := n'
      obtain rfl : k = .label := hk
      obtain rfl : k' = .label := ha.kind_eq.symm
      subst hp
      cases l <;> cases l' <;> try cases ha
      · simp [parts, place, ScriptTree.origin?, Object.origin?]
      · exact iff_of_true rfl rfl
    · refine iff_of_false ?_ (hne hk)
      obtain ⟨o, hno⟩ := exists_origin? hk
      rw [place_eq_origin? hk, place_eq_origin? (ha.kind_eq ▸ hk), ho, hno]
      exact fun heq => o.remade_ne (Option.some.inj heq)

/-- `walk` answers the parts of `n` in order, as `R` says, and rebuilds the object around them. -/
def Walked {σ : Type} (R : Node Origin → σ → Node Origin → σ → Prop) (n : Node Origin)
    (walk : StateM σ (Object Origin n.kind)) : Prop :=
  ∀ s, ∃ ns, Threaded R n.parts s ns (walk s).2 ∧ n.Rebuilt ns ⟨n.kind, (walk s).1⟩

theorem Walked.imp {σ : Type} {R Q : Node Origin → σ → Node Origin → σ → Prop} {n : Node Origin}
    {walk : StateM σ (Object Origin n.kind)} (h : n.Walked R walk)
    (himp : ∀ n s n' s', R n s n' s' → Q n s n' s') : n.Walked Q walk := by
  intro s
  obtain ⟨ns, hns, hr⟩ := h s
  exact ⟨ns, hns.imp fun a _ s b t => himp a s b t, hr⟩

end Node

theorem ExprShape.map_place_parts (e : ExprShape Origin) : e.parts.map Node.place = e.children := by
  cases e <;> rfl

/-- An absent part has an entry among the children and none among the parts. -/
theorem StmtShape.children_eq_iff {s t : StmtShape Origin} (h : s.head = t.head) :
    t.children = s.children ↔ t.parts.map Node.place = s.parts.map Node.place := by
  -- the heads agree on which optional parts there are
  cases s <;> cases t <;> try (simp [StmtShape.head] at h; done)
  case forLoop.forLoop i c t b i' c' t' b' =>
    cases i <;> cases i' <;> cases c <;> cases c' <;> cases t <;> cases t' <;>
      simp [StmtShape.head] at h <;>
      simp [StmtShape.children, StmtShape.parts, Node.ofOption, Node.place, origin?, Object.origin?]
  case ifElse.ifElse c t e c' t' e' =>
    cases e <;> cases e' <;> simp [StmtShape.head] at h <;>
      simp [StmtShape.children, StmtShape.parts, Node.ofOption, Node.place, origin?, Object.origin?]
  case tryCatch.tryCatch b c f b' c' f' =>
    cases c <;> cases c' <;> cases f <;> cases f' <;> simp [StmtShape.head] at h <;>
      simp [StmtShape.children, StmtShape.parts, Node.ofOption, Node.place, origin?, Object.origin?]
  case ret.ret v v' | yield.yield v v' =>
    cases v <;> cases v' <;> simp [StmtShape.head] at h <;>
      simp [StmtShape.children, StmtShape.parts, Node.ofOption, Node.place, origin?, Object.origin?]
  all_goals rfl

namespace Transform

variable {σ : Type}

def node (T : Transform σ) (n : Node Origin) : StateM σ (Node Origin) := fun s =>
  (⟨n.kind, (T.object n.kind n.object s).1⟩, (T.object n.kind n.object s).2)

def Answers (T : Transform σ) (n : Node Origin) (s : σ) (n' : Node Origin) (s' : σ) : Prop :=
  T.node n s = (n', s')

theorem Answers.object_eq {T : Transform σ} {k : Kind} {x y : Object Origin k} {s t : σ}
    (h : T.Answers ⟨k, x⟩ s ⟨k, y⟩ t) : T.object k x s = (y, t) := by
  obtain ⟨hfst, hsnd⟩ := Prod.mk.inj h
  exact Prod.ext (eq_of_heq (Node.mk.inj hfst).2) hsnd

section Shapes

variable (T : Transform σ) (s : σ)

theorem exprShape_head (e : ExprShape Origin) : (T.exprShape e s).1.head = e.head := by
  cases e <;> rfl

theorem exprShape_answers (e : ExprShape Origin) :
    Threaded T.Answers e.parts s (T.exprShape e s).1.parts (T.exprShape e s).2 := by
  cases e <;> repeat (first | exact .nil _ | refine .cons rfl ?_)

theorem stmtShape_head (e : StmtShape Origin) : (T.stmtShape e s).1.head = e.head := by
  cases e
  case forLoop i c t b => cases i <;> cases c <;> cases t <;> rfl
  case ifElse c t e => cases e <;> rfl
  case tryCatch b h c => cases h <;> cases c <;> rfl
  case ret v | yield v => cases v <;> rfl
  all_goals rfl

theorem stmtShape_answers (e : StmtShape Origin) :
    Threaded T.Answers e.parts s (T.stmtShape e s).1.parts (T.stmtShape e s).2 := by
  cases e
  case forLoop i c t b =>
    cases i <;> cases c <;> cases t <;> repeat (first | exact .nil _ | refine .cons rfl ?_)
  case ifElse c t e => cases e <;> repeat (first | exact .nil _ | refine .cons rfl ?_)
  case tryCatch b h c =>
    cases h <;> cases c <;> repeat (first | exact .nil _ | refine .cons rfl ?_)
  case ret v | yield v => cases v <;> repeat (first | exact .nil _ | refine .cons rfl ?_)
  all_goals repeat (first | exact .nil _ | refine .cons rfl ?_)

theorem each_answers (k : Kind) (each : List (Object Origin k) → StateM σ (List (Object Origin k)))
    (nil : each [] = pure [])
    (cons : ∀ x xs, each (x :: xs) = do return (← T.object k x) :: (← each xs))
    (xs : List (Object Origin k)) :
    Threaded T.Answers (xs.map (Node.mk k)) s ((each xs s).1.map (Node.mk k)) (each xs s).2 := by
  induction xs generalizing s with
  | nil =>
    rw [nil]
    exact .nil s
  | cons x xs ih =>
    rw [cons]
    exact .cons rfl (ih _)

end Shapes

/-- A traversal of the parts of `n` by the transform itself, as `visit` is given one. -/
def Visits (T : Transform σ) (n : Node Origin) : Prop :=
  ∃ walk, T.object n.kind n.object = T.visit n.kind n.object walk ∧ n.Walked T.Answers walk

section Visits

open Node

variable (T : Transform σ)

theorem expr_visits (e : Expr Origin) : T.Visits ⟨.expr, e⟩ := by
  obtain ⟨o, e⟩ := e
  refine ⟨_, rfl, fun s => ⟨_, T.exprShape_answers s e, .of_ite ?_ ?_ rfl rfl⟩⟩
  · rw [← ExprShape.map_place_parts, ← ExprShape.map_place_parts]
    rfl
  · exact congrArg (fun h => (⟨.expr, ⟨(), h⟩⟩ : Node Unit)) (T.exprShape_head s e).symm

theorem stmt_visits (o : Origin) (e : StmtShape Origin) : T.Visits ⟨.stmt, .node o e⟩ := by
  refine ⟨_, rfl, fun s => ⟨_, T.stmtShape_answers s e, .of_ite ?_ ?_ rfl rfl⟩⟩
  · exact StmtShape.children_eq_iff (T.stmtShape_head s e).symm
  · exact congrArg (fun h => (⟨.stmt, .node () h⟩ : Node Unit)) (T.stmtShape_head s e).symm

theorem declaration_visits (d : Declaration Origin) : T.Visits ⟨.declaration, d⟩ := by
  obtain ⟨o, n, v⟩ := d
  cases v with
  | none => exact ⟨_, rfl, fun s => ⟨[], .nil s, .kept rfl⟩⟩
  | some v =>
    refine ⟨_, rfl, fun s => ⟨_, .cons rfl (.nil _), .of_ite ?_ rfl rfl rfl⟩⟩
    simp [same, parts, place, ScriptTree.origin?, Object.origin?, object, ofOption]

theorem object_visits (n : Node Origin) (h : ∀ b, n ≠ ⟨.stmt, .block b⟩) : T.Visits n := by
  obtain ⟨k, x⟩ := n
  cases k
  case expr => exact T.expr_visits x
  case stmt =>
    cases x with
    | block b => exact absurd rfl (h b)
    | node o s => exact T.stmt_visits o s
  case declaration => exact T.declaration_visits x
  case label =>
    -- a label is built again even where its expression is kept
    cases x with
    | value e =>
      exact ⟨_, rfl, fun s => ⟨_, .cons rfl (.nil _), .remade (absurd rfl) rfl rfl rfl⟩⟩
    | default => exact ⟨_, rfl, fun s => ⟨_, .nil s, .remade (absurd rfl) rfl rfl rfl⟩⟩
  case block | property | catchClause =>
    cases x
    refine ⟨_, rfl, fun s => ⟨_, .cons rfl (.nil _), .of_ite ?_ rfl rfl rfl⟩⟩
    simp [same, parts, place, ScriptTree.origin?, Object.origin?, object]
  case caseSection =>
    cases x
    refine ⟨_, rfl, fun s => ⟨_, .cons rfl (.cons rfl (.nil _)), .of_ite ?_ rfl rfl rfl⟩⟩
    simp [same, parts, place, ScriptTree.origin?, Object.origin?, object]
  all_goals obtain ⟨o, xs⟩ := x
  case exprs =>
    exact ⟨_, rfl, fun s => ⟨_, T.each_answers s .expr T.eachExpr rfl (fun _ _ => rfl) xs,
      .of_ite (map_place_eq_iff fun _ => rfl) rfl rfl rfl⟩⟩
  case stmts =>
    exact ⟨_, rfl, fun s => ⟨_, T.each_answers s .stmt T.eachStmt rfl (fun _ _ => rfl) xs,
      .of_ite (map_place_eq_iff fun _ => rfl) rfl rfl rfl⟩⟩
  case properties =>
    exact ⟨_, rfl, fun s => ⟨_, T.each_answers s .property T.eachProperty rfl (fun _ _ => rfl) xs,
      .of_ite (map_place_eq_iff fun _ => rfl) rfl rfl rfl⟩⟩
  case declarations =>
    exact ⟨_, rfl, fun s => ⟨_, T.each_answers s .declaration T.eachDeclaration rfl
      (fun _ _ => rfl) xs, .of_ite (map_place_eq_iff fun _ => rfl) rfl rfl rfl⟩⟩
  case sections =>
    exact ⟨_, rfl, fun s => ⟨_, T.each_answers s .caseSection T.eachSection rfl (fun _ _ => rfl) xs,
      .of_ite (map_place_eq_iff fun _ => rfl) rfl rfl rfl⟩⟩
  case labels =>
    exact ⟨_, rfl, fun s => ⟨_, T.each_answers s .label T.eachLabel rfl (fun _ _ => rfl) xs,
      .of_ite (map_place_eq_iff fun _ => rfl) rfl rfl rfl⟩⟩

end Visits

/-- A property of runs holds of every run when `visit` passes it on from the parts of an object to
the object, and a block to the statement that it stands as. -/
theorem induction (T : Transform σ) {P : Node Origin → σ → Node Origin → σ → Prop}
    (block : ∀ b s b' s', P ⟨.block, b⟩ s ⟨.block, b'⟩ s' →
      P ⟨.stmt, .block b⟩ s ⟨.stmt, .block b'⟩ s')
    (visit : ∀ k x walk, Node.Walked P ⟨k, x⟩ walk →
      ∀ s, P ⟨k, x⟩ s ⟨k, (T.visit k x walk s).1⟩ (T.visit k x walk s).2)
    (n : Node Origin) (s : σ) : P n s (T.node n s).1 (T.node n s).2 := by
  induction n using Node.induction generalizing s with
  | step n ih =>
    -- a statement that is a block is visited as the block, which has the same parts
    have own : ∀ m : Node Origin, m.parts = n.parts → T.Visits m →
        P m s (T.node m s).1 (T.node m s).2 := by
      intro m hm ⟨walk, hw, hwalk⟩
      have hP : m.Walked P walk := by
        intro s
        obtain ⟨ns, hns, hr⟩ := hwalk s
        refine ⟨ns, hns.imp ?_, hr⟩
        intro c hc s c' s' hcs
        have := ih c (hm ▸ hc) s
        rwa [show T.node c s = (c', s') from hcs] at this
      have := visit m.kind m.object walk hP s
      rwa [← hw] at this
    by_cases h : ∃ b, n = ⟨.stmt, .block b⟩
    · obtain ⟨b, rfl⟩ := h
      exact block b s _ _ (own ⟨.block, b⟩ rfl (T.object_visits _ fun _ => nofun))
    · exact own n rfl (T.object_visits n (not_exists.1 h))

/-- A relation between an object and its answer, whatever the state. -/
theorem relates (T : Transform σ) {R : Node Origin → Node Origin → Prop} (refl : ∀ n, R n n)
    (block : ∀ b b', R ⟨.block, b⟩ ⟨.block, b'⟩ → R ⟨.stmt, .block b⟩ ⟨.stmt, .block b'⟩)
    (visit : ∀ k x walk, (∀ s, Node.Alike ⟨k, x⟩ ⟨k, (walk s).1⟩ ∧
        List.Forall₂ R (Node.parts ⟨k, x⟩) (Node.parts ⟨k, (walk s).1⟩)) →
      ∀ s, R ⟨k, x⟩ ⟨k, (T.visit k x walk s).1⟩)
    (n : Node Origin) (s : σ) : R n (T.node n s).1 := by
  refine T.induction (P := fun n _ n' _ => R n n') (fun b _ b' _ => block b b') ?_ n s
  intro k x walk hwalk s
  refine visit k x walk (fun s => ?_) s
  obtain ⟨ns, hns, hr⟩ := hwalk s
  refine ⟨hr.alike, ?_⟩
  generalize (⟨k, (walk s).1⟩ : Node Origin) = n' at hr
  cases hr with
  | kept _ => exact List.forall₂_same.2 fun c _ => refl c
  | remade _ _ hp _ => exact hp ▸ hns.forall₂ fun _ _ _ _ _ h => h

end Transform

end ScriptTree
