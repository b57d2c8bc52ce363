import ScriptTree.Proofs.NormalForm
import ScriptTree.Proofs.Structure

namespace ScriptTree

open Node

theorem appendList_append {α : Type} (xs : Array α) (as bs : List α) :
    xs ++ (as ++ bs) = xs ++ as ++ bs := by
  apply Array.ext'
  simp only [Array.toList_appendList, List.append_assoc]

theorem Threaded.foldl_eq {α β σ : Type} {f : σ → α → σ} {as : List α} {bs : List β} {s t : σ}
    (h : Threaded (fun a s _ t => t = f s a) as s bs t) : t = as.foldl f s := by
  induction h with
  | nil s => rfl
  | cons hab _ ih => rw [List.foldl_cons, ← hab, ih]

/-- The answers of the parts determine what a traversal makes of an object; a label is told from
another by its expression, so that it might be kept or not. -/
theorem Node.Rebuilt.unique {n a b : Node Origin} {ns : List (Node Origin)}
    (hk : n.kind ≠ .label) (ha : n.Rebuilt ns a) (hb : n.Rebuilt ns b) : a = b := by
  cases ha with
  | kept hplaces =>
    cases hb with
    | kept _ => rfl
    | remade hne _ _ _ => exact absurd hplaces (hne hk)
  | remade hne haa hpa hoa =>
    cases hb with
    | kept hplaces => exact absurd hplaces (hne hk)
    | remade _ hab hpb hob =>
      have halike : a.Alike b := (haa.symm : a.head = n.head).trans hab
      exact eq_of_parts halike (hoa.trans hob.symm) (hpa.trans hpb.symm)

theorem Node.width_bare {ι : Type} (n : Node ι) : n.bare.width = n.width := by
  have hkind : n.bare.kind = n.kind := rfl
  rw [width, width, hkind, bare_parts, List.length_map]

namespace Transform

variable {σ : Type}

/-- What the transform answers for an object depends on the state only through the answers of the
parts. -/
def Stateless (T : Transform σ) : Prop :=
  ∀ k x walk walk' s s', (walk s).1 = (walk' s').1 →
    (T.visit k x walk s).1 = (T.visit k x walk' s').1

theorem Stateless.of_visit {T : Transform σ} (answer : Node Origin → Node Origin)
    (h : ∀ k x walk s, ⟨k, (T.visit k x walk s).1⟩ = answer ⟨k, (walk s).1⟩) : T.Stateless := by
  intro k x walk walk' s s' hwalk
  have hnode : (⟨k, (T.visit k x walk s).1⟩ : Node Origin) = ⟨k, (T.visit k x walk' s').1⟩ := by
    rw [h, h, hwalk]
  exact eq_of_heq (Node.mk.inj hnode).2

/-- From related states, once the parts have the same answers and leave related states, the transform
answers the same and leaves related states. -/
def Respects (T : Transform σ) (D : σ → σ → Prop) : Prop :=
  ∀ k x walk walk' s s', (walk s).1 = (walk' s').1 → D (walk s).2 (walk' s').2 →
    (T.visit k x walk s).1 = (T.visit k x walk' s').1 ∧
      D (T.visit k x walk s).2 (T.visit k x walk' s').2

theorem Stateless.respects {T : Transform σ} (hT : T.Stateless) : T.Respects fun _ _ => True :=
  fun k x walk walk' s s' hwalk _ => ⟨hT k x walk walk' s s' hwalk, trivial⟩

theorem Respects.node {T : Transform σ} {D : σ → σ → Prop} (hT : T.Respects D) (n : Node Origin)
    {s s' : σ} (hD : D s s') :
    (T.node n s).1 = (T.node n s').1 ∧ D (T.node n s).2 (T.node n s').2 := by
  induction n using Node.induction generalizing s s' with
  | step n ih =>
    have own : ∀ m : Node Origin, m.parts = n.parts → m.kind ≠ .label → T.Visits m →
        (T.object m.kind m.object s).1 = (T.object m.kind m.object s').1 ∧
          D (T.object m.kind m.object s).2 (T.object m.kind m.object s').2 := by
      rintro m hm hk ⟨walk, hw, hwalk⟩
      obtain ⟨ns, hns, hr⟩ := hwalk s
      obtain ⟨ns', hns', hr'⟩ := hwalk s'
      have hanswers : List.Forall₂ Eq ns ns' ∧ D (walk s).2 (walk s').2 := by
        refine hns.forall₂_both (A := Eq) hns' (List.forall₂_refl m.parts) hD ?_
        rintro c hc _ - rfl u d t u' d' t' hD hd hd'
        have hc := ih c (hm ▸ hc) hD
        rwa [show T.node c u = (d, t) from hd, show T.node c u' = (d', t') from hd'] at hc
      obtain ⟨heq, hD⟩ := hanswers
      rw [List.forall₂_eq_eq_eq] at heq
      have hwalked := Rebuilt.unique hk hr (heq ▸ hr')
      rw [hw]
      exact hT _ _ _ _ s s' (eq_of_heq (Node.mk.inj hwalked).2) hD
    by_cases hlabel : n.kind = .label
    · obtain ⟨k, l⟩ := n
      obtain rfl : k = .label := hlabel
      have hl : (T.label l s).1 = (T.label l s').1 ∧ D (T.label l s).2 (T.label l s').2 := by
        cases l with
        | value e =>
          obtain ⟨he, hD⟩ := ih ⟨.expr, e⟩ List.mem_cons_self hD
          have he : (T.expr e s).1 = (T.expr e s').1 := eq_of_heq (Node.mk.inj he).2
          exact hT .label _ (CaseLabel.value <$> T.expr e) _ s s' (congrArg CaseLabel.value he) hD
        | default => exact hT .label _ (pure .default) (pure .default) s s' rfl hD
      exact ⟨congrArg (Node.mk .label) hl.1, hl.2⟩
    · by_cases h : ∃ b, n = ⟨.stmt, .block b⟩
      · obtain ⟨b, rfl⟩ := h
        have hb := own ⟨.block, b⟩ rfl nofun (T.object_visits _ fun _ => nofun)
        exact ⟨congrArg (fun b => (⟨.stmt, .block b⟩ : Node Origin)) hb.1, hb.2⟩
      · have hn := own n rfl hlabel (T.object_visits n (not_exists.1 h))
        exact ⟨congrArg (Node.mk n.kind) hn.1, hn.2⟩

theorem node_fst {T : Transform σ} (hT : T.Stateless) (n : Node Origin) (s s' : σ) :
    (T.node n s).1 = (T.node n s').1 :=
  (hT.respects.node n trivial).1

/-- The transform adds to the state, at each object, what the object's own fields and the widths of
its parts say. -/
structure Reports (T : Transform σ) (report : Node Unit → σ → σ) : Prop where
  visit : ∀ k x walk s,
    (T.visit k x walk s).2 = report (Node.bare ⟨k, (walk s).1⟩) (walk s).2
  width : ∀ k x walk s, width ⟨k, (T.visit k x walk s).1⟩ = width ⟨k, (walk s).1⟩
  congr : ∀ n z : Node Unit, n.Alike z → n.parts.map Node.width = z.parts.map Node.width →
    report n = report z
  block : ∀ b, report ⟨.stmt, .block b⟩ = report ⟨.block, b⟩

theorem Reports.node_snd {T : Transform σ} {report : Node Unit → σ → σ} (hT : T.Reports report)
    (n : Node Origin) (s : σ) :
    (T.node n s).2 = n.bare.postorder.foldl (fun s m => report m s) s := by
  refine (T.induction (P := fun n s n' s' => n'.width = n.width ∧
    s' = n.bare.postorder.foldl (fun s m => report m s) s) ?_ ?_ n s).2
  · rintro b s b' s' ⟨-, h⟩
    refine ⟨rfl, ?_⟩
    have hblock : report (bare ⟨.stmt, .block b⟩) = report (bare ⟨.block, b⟩) := hT.block _
    rw [h, postorder_eq, postorder_eq (bare ⟨.stmt, .block b⟩), bare_block_parts,
      List.foldl_append, List.foldl_append, List.foldl_cons, List.foldl_cons, hblock]
  · intro k x walk hwalk s
    obtain ⟨ns, hns, hr⟩ := hwalk s
    have hwidths : ns.map Node.width = (parts ⟨k, x⟩).map Node.width :=
      hns.map_eq fun _ _ _ _ _ h => h.1
    have hparts : (parts ⟨k, (walk s).1⟩).map Node.width = (parts ⟨k, x⟩).map Node.width := by
      generalize (⟨k, (walk s).1⟩ : Node Origin) = z at hr
      cases hr with
      | kept _ => rfl
      | remade _ _ hp _ => rw [hp, hwidths]
    have hreport : report (bare ⟨k, (walk s).1⟩) = report (bare ⟨k, x⟩) := by
      apply hT.congr
      · rw [Alike, bare_head, bare_head, hr.alike]
      · simp only [bare_parts, List.map_map, Function.comp_def, width_bare]
        exact hparts
    have hbelow : (walk s).2 = ((parts ⟨k, x⟩).map bare).foldl
        (fun s c => c.postorder.foldl (fun s m => report m s) s) s := by
      rw [List.foldl_map]
      exact Threaded.foldl_eq (hns.imp fun _ _ _ _ _ h => h.2)
    constructor
    · rw [hT.width]
      exact width_local _ _ hr.alike.symm hparts
    · rw [hT.visit, hreport, hbelow, postorder_eq, bare_parts, List.foldl_append,
        List.foldl_flatMap]
      rfl

end Transform

end ScriptTree
