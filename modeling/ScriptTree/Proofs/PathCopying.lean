import ScriptTree.Proofs.Traversal
import ScriptTree.Trace

namespace ScriptTree

open Node

theorem Origin.remade_remade_ne (o : Origin) : o.remade.remade ≠ o := by
  intro h
  have := congrArg sizeOf h
  simp only [remade, made.sizeOf_spec] at this
  omega

namespace Node

def copy (n : Node Origin) : Node Origin := ⟨n.kind, Object.copy n.kind n.object⟩

theorem copy_alike (n : Node Origin) : n.Alike n.copy := by
  obtain ⟨k, x⟩ := n
  cases k
  case stmt => cases x <;> rfl
  all_goals rfl

theorem copy_parts (n : Node Origin) : n.copy.parts = n.parts := by
  obtain ⟨k, x⟩ := n
  cases k
  case stmt => cases x <;> rfl
  case label => cases x <;> rfl
  all_goals rfl

theorem copy_origin? (n : Node Origin) : n.copy.origin? = n.origin?.map .remade := by
  obtain ⟨k, x⟩ := n
  cases k
  case stmt => cases x <;> rfl
  all_goals rfl

end Node

namespace Edits

variable (E : Edits)

/-- The expression that stands for an object after the traversal, if it is replaced. -/
def replaced? : Node Origin → Option (Expr Origin)
  | ⟨.expr, e⟩ => E.replacement? e.origin
  | _ => none

/-- Nothing below the object is visited. -/
def stops (n : Node Origin) : Bool :=
  match Call.of? n.kind n.object with
  | some (.object _ o) => (E.replaced? n).isSome || E.isPruned o
  | _ => false

/-- The object is replaced, or it is touched and not pruned. -/
def edits (n : Node Origin) : Bool :=
  match Call.of? n.kind n.object with
  | some (.object name o) => (E.replaced? n).isSome || E.isTouched name o && !E.isPruned o
  | _ => false

/-- An object that is visited from this one on, itself included, is edited. -/
def Changes (n : Node Origin) : Prop := ∃ m ∈ n.preorder fun m => !E.stops m, E.edits m

theorem changes_iff (n : Node Origin) :
    E.Changes n ↔ E.edits n ∨ E.stops n = false ∧ ∃ c ∈ n.parts, E.Changes c := by
  have hstops : (!E.stops n) = true ↔ E.stops n = false := Bool.not_eq_true' _ ▸ Iff.rfl
  constructor
  · rintro ⟨m, hm, he⟩
    obtain rfl | ⟨hs, c, hc, hm⟩ := mem_preorder.1 hm
    · exact .inl he
    · exact .inr ⟨hstops.1 hs, c, hc, m, hm, he⟩
  · rintro (he | ⟨hs, c, hc, m, hm, he⟩)
    · exact ⟨n, mem_preorder_self _ n, he⟩
    · have hbelow : m ∈ n.preorder fun m => !E.stops m :=
        mem_preorder.2 (.inr ⟨hstops.2 hs, c, hc, hm⟩)
      exact ⟨m, hbelow, he⟩

/-- What stands in the place of an object after the traversal: the expression that replaces it, the
very instance where nothing from it on is changed, or else a new object of its variant with its
fields around what stands in the places of its parts. -/
inductive Answers : Node Origin → Node Origin → Prop
  | replaced {n e} : E.replaced? n = some e → Answers n ⟨.expr, e⟩
  | kept {n} : ¬E.Changes n → Answers n n
  | copied {n n'} : E.replaced? n = none → E.Changes n → n.Alike n' →
      (n'.origin? = n.origin?.map .remade ∨ n'.origin? = n.origin?.map fun o => o.remade.remade) →
      List.Forall₂ Answers n.parts n'.parts → Answers n n'

/-- Every expression that replaces another is a different one. -/
def ReplacesAnew : Prop := ∀ o e, E.replacement? o = some e → e.origin ≠ o

variable {E}

theorem edits_of_replaced {n : Node Origin} {e : Expr Origin} (h : E.replaced? n = some e) :
    E.edits n := by
  obtain ⟨k, x⟩ := n
  cases k <;> first | cases h | simp [edits, Call.of?, h]

theorem changes_of_edits {n : Node Origin} (h : E.edits n) : E.Changes n :=
  (E.changes_iff n).2 (.inl h)

theorem changes_label {e : Expr Origin} :
    E.Changes ⟨.label, .value e⟩ ↔ E.Changes ⟨.expr, e⟩ := by
  rw [changes_iff]
  simp [edits, stops, Call.of?, parts]

theorem not_changes_default : ¬E.Changes ⟨.label, .default⟩ := by
  rw [changes_iff]
  simp [edits, Call.of?, parts]

theorem Answers.place_ne (hE : E.ReplacesAnew) {n n' : Node Origin} (h : E.Answers n n')
    (hc : E.Changes n) : n'.place ≠ n.place := by
  induction n using Node.induction generalizing n' with
  | step n ih =>
    cases h with
    | @replaced _ e hr =>
      obtain ⟨k, x⟩ := n
      cases k <;> try cases hr
      intro h
      exact hE _ _ hr (Option.some.inj h)
    | kept hn => exact absurd hc hn
    | copied hr _ ha ho hp =>
      by_cases hk : n.kind = .label
      · obtain ⟨k, l⟩ := n
        obtain ⟨k', l'⟩ := n'
        obtain rfl : k = .label := hk
        obtain rfl : k' = .label := ha.kind_eq.symm
        -- a label is told apart by its expression
        cases l <;> cases l' <;> try cases ha
        · obtain ⟨h, -⟩ := List.forall₂_cons.1 hp
          exact fun hplace => ih _ List.mem_cons_self h (changes_label.1 hc) hplace
        · exact absurd hc not_changes_default
      · obtain ⟨o, hn⟩ := exists_origin? hk
        rw [place_eq_origin? hk, place_eq_origin? (ha.kind_eq ▸ hk), hn]
        rw [hn] at ho
        intro h
        obtain ho | ho := ho
        · exact o.remade_ne (Option.some.inj (ho.symm.trans h))
        · exact o.remade_remade_ne (Option.some.inj (ho.symm.trans h))

theorem Answers.eq_of_not_changes {n n' : Node Origin} (h : E.Answers n n')
    (hn : ¬E.Changes n) : n' = n := by
  cases h with
  | replaced hr => exact absurd (changes_of_edits (edits_of_replaced hr)) hn
  | kept _ => rfl
  | copied _ hc _ _ _ => exact absurd hc hn

theorem answers_eq_of_not_changes {ns cs : List (Node Origin)} (h : List.Forall₂ E.Answers cs ns)
    (hcs : ∀ c ∈ cs, ¬E.Changes c) : ns = cs := by
  induction h with
  | nil => rfl
  | cons hc _ ih =>
    obtain ⟨hn, hns⟩ := List.forall_mem_cons.1 hcs
    rw [hc.eq_of_not_changes hn, ih hns]

theorem not_changes_of_places_eq (hE : E.ReplacesAnew) {ns cs : List (Node Origin)}
    (h : List.Forall₂ E.Answers cs ns) (hplaces : ns.map place = cs.map place) :
    ∀ c ∈ cs, ¬E.Changes c := by
  induction h with
  | nil => nofun
  | cons hc _ ih =>
    obtain ⟨hplace, htail⟩ := List.cons.inj hplaces
    have hn : ¬E.Changes _ := fun hcc => hc.place_ne hE hcc hplace
    exact List.forall_mem_cons.2 ⟨hn, ih htail⟩

/-- An object that is not edited itself, rebuilt around the answers of its parts. -/
theorem Answers.of_rebuilt (hE : E.ReplacesAnew) {n n' : Node Origin} {ns : List (Node Origin)}
    (hs : E.stops n = false) (he : E.edits n = false) (h : List.Forall₂ E.Answers n.parts ns)
    (hr : n.Rebuilt ns n') : E.Answers n n' := by
  have hiff : E.Changes n ↔ ∃ c ∈ n.parts, E.Changes c := by
    rw [changes_iff, hs, he]
    simp
  have hnone : E.replaced? n = none := by
    by_contra hsome
    obtain ⟨e, hr⟩ := Option.ne_none_iff_exists'.1 hsome
    exact absurd (edits_of_replaced hr) (by simp [he])
  cases hr with
  | kept hplaces =>
    refine .kept fun hc => ?_
    obtain ⟨c, hc, hcc⟩ := hiff.1 hc
    exact not_changes_of_places_eq hE h hplaces c hc hcc
  | remade hne ha hp ho =>
    by_cases hc : E.Changes n
    · exact .copied hnone hc ha (.inl ho) (hp ▸ h)
    -- a label is always built anew, and is then itself again
    · have hns : ns = n.parts :=
        answers_eq_of_not_changes h fun c hcm hcc => hc (hiff.2 ⟨c, hcm, hcc⟩)
      have hself : n' = n := Rebuilt.eq_self (hns ▸ .remade hne ha hp ho)
      rw [hself]
      exact .kept hc

/-- An edited object is copied, whether or not the traversal rebuilt it. -/
theorem Answers.of_copy (hE : E.ReplacesAnew) {n n' : Node Origin} {ns : List (Node Origin)}
    (hnone : E.replaced? n = none) (he : E.edits n) (h : List.Forall₂ E.Answers n.parts ns)
    (hr : n.Rebuilt ns n') : E.Answers n n'.copy := by
  have hc : E.Changes n := (E.changes_iff n).2 (.inl he)
  have ha : n.Alike n'.copy := hr.alike.trans n'.copy_alike
  apply Answers.copied hnone hc ha
  · rw [copy_origin?]
    cases hr with
    | kept _ => exact .inl rfl
    | remade _ _ _ ho =>
      rw [ho, Option.map_map]
      exact .inr rfl
  · rw [copy_parts]
    cases hr with
    | kept hplaces =>
      have hcs := not_changes_of_places_eq hE h hplaces
      rwa [answers_eq_of_not_changes h hcs] at h
    | remade _ _ hp _ =>
      rw [hp]
      exact h

theorem answers_stmt_block {b b' : Block Origin} (h : E.Answers ⟨.block, b⟩ ⟨.block, b'⟩) :
    E.Answers ⟨.stmt, .block b⟩ ⟨.stmt, .block b'⟩ := by
  have hiff : E.Changes ⟨.stmt, .block b⟩ ↔ E.Changes ⟨.block, b⟩ := by
    rw [changes_iff, changes_iff]
    rfl
  cases h with
  | kept hc => exact .kept (hiff.not.2 hc)
  | copied _ hc _ ho hp => exact .copied rfl (hiff.2 hc) rfl ho hp

theorem answer?_eq {k : Kind} {x : Object Origin k} {name : String} {o : Origin}
    (h : Call.of? k x = some (.object name o)) :
    (E.answer? o k x).map (Node.mk k) = ((E.replaced? ⟨k, x⟩).map (Node.mk .expr) <|>
      if E.isPruned o then some ⟨k, x⟩ else none) := by
  cases k
  case expr =>
    cases h
    simp only [answer?, replaced?]
    cases E.replacement? x.origin <;> cases E.isPruned x.origin <;> rfl
  all_goals
    simp only [answer?, replaced?]
    cases E.isPruned o <;> rfl

theorem answers_walk (hE : E.ReplacesAnew) {n : Node Origin} (hs : E.stops n = false)
    (he : E.edits n = false) {walk : StateM (Array Call) (Object Origin n.kind)}
    (hwalk : n.Walked (fun n _ n' _ => E.Answers n n') walk) (log : Array Call) :
    E.Answers n ⟨n.kind, (walk log).1⟩ := by
  obtain ⟨ns, hns, hr⟩ := hwalk log
  have hans : List.Forall₂ E.Answers n.parts ns := hns.forall₂ fun _ _ _ _ _ h => h
  exact .of_rebuilt hE hs he hans hr

theorem answers_object (hE : E.ReplacesAnew) {k : Kind} {x : Object Origin k} {name : String}
    {o : Origin} (hcall : Call.of? k x = some (.object name o))
    {walk : StateM (Array Call) (Object Origin k)}
    (hwalk : Walked (fun n _ n' _ => E.Answers n n') ⟨k, x⟩ walk) (log : Array Call) :
    E.Answers ⟨k, x⟩ ⟨k, (E.trace.visit k x walk log).1⟩ := by
  have hans := answer?_eq (E := E) hcall
  simp only [trace, hcall]
  cases hr : E.replaced? ⟨k, x⟩ with
  | some e =>
    rw [hr] at hans
    obtain ⟨y, hy, hye⟩ := Option.map_eq_some_iff.1 hans
    rw [hy]
    exact hye ▸ .replaced hr
  | none =>
    rw [hr] at hans
    cases hprune : E.isPruned o with
    | true =>
      rw [hprune] at hans
      obtain ⟨y, hy, hyx⟩ := Option.map_eq_some_iff.1 hans
      rw [hy]
      have hn : ¬E.Changes ⟨k, x⟩ := by
        rw [changes_iff]
        simp [edits, stops, hcall, hr, hprune]
      exact (congrArg (E.Answers ⟨k, x⟩) hyx).mpr (.kept hn)
    | false =>
      rw [hprune] at hans
      rw [Option.map_eq_none_iff.1 hans]
      cases htouch : E.isTouched name o with
      | true =>
        obtain ⟨ns, hns, hreb⟩ := hwalk (log.push (.object name o))
        have hns : List.Forall₂ E.Answers (parts ⟨k, x⟩) ns := hns.forall₂ fun _ _ _ _ _ h => h
        have he : E.edits ⟨k, x⟩ := by simp [edits, hcall, htouch, hprune]
        exact .of_copy hE hr he hns hreb
      | false =>
        have hs : E.stops ⟨k, x⟩ = false := by simp [stops, hcall, hr, hprune]
        have he : E.edits ⟨k, x⟩ = false := by simp [edits, hcall, hr, htouch]
        exact answers_walk hE hs he hwalk (log.push (.object name o))

/-- A traversal with edits keeps the instances that hold no change and copies those that do. -/
theorem trace_answers (hE : E.ReplacesAnew) (n : Node Origin) (log : Array Call) :
    E.Answers n (E.trace.node n log).1 ∧
      (E.replaced? n = none →
        ((E.trace.node n log).1.place = n.place ↔ ¬E.Changes n)) := by
  have h : E.Answers n (E.trace.node n log).1 := by
    refine E.trace.induction (P := fun n _ n' _ => E.Answers n n') ?_ ?_ n log
    · intro b _ b' _
      exact answers_stmt_block
    · intro k x walk hwalk log
      cases hcall : Call.of? k x with
      | none =>
        simp only [trace, hcall]
        exact answers_walk hE (by simp [stops, hcall]) (by simp [edits, hcall]) hwalk log
      | some call =>
        cases call with
        | label d =>
          simp only [trace, hcall]
          exact answers_walk hE (by simp [stops, hcall]) (by simp [edits, hcall]) hwalk _
        | object name o => exact answers_object hE hcall hwalk log
  refine ⟨h, fun _ => ⟨?_, ?_⟩⟩
  · intro hplace hc
    exact h.place_ne hE hc hplace
  · intro hn
    rw [h.eq_of_not_changes hn]

theorem trace_answers_replaced_item :
    let E : Edits := ⟨fun o => if o = .given 1 then some ⟨.given 9, .this⟩ else none,
      fun _ => false, fun _ _ => false⟩
    E.ReplacesAnew ∧
      E.Answers ⟨.exprs, ⟨.given 0, [⟨.given 1, .this⟩, ⟨.given 2, .this⟩]⟩⟩
        ⟨.exprs, ⟨.made (.given 0) 0, [⟨.given 9, .this⟩, ⟨.given 2, .this⟩]⟩⟩ := by
  intro E
  have hE : E.ReplacesAnew := by
    intro o e h
    obtain ⟨rfl, h⟩ := Option.ite_none_right_eq_some.1 h
    obtain rfl := Option.some.inj h
    decide
  exact ⟨hE, (trace_answers hE ⟨.exprs, _⟩ #[]).1⟩

end Edits

end ScriptTree
