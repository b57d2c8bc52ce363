import ScriptTree.Proofs.Numbering
import ScriptTree.Proofs.Runs
import Mathlib.Data.List.Flatten

namespace ScriptTree

open Node

namespace Origin

/-- Neither object is the other, nor made in the place of it. -/
def Apart (o p : Origin) : Prop := ¬o.Covers p ∧ ¬p.Covers o

namespace Apart

variable {o p o' p' : Origin}

theorem ne (h : Apart o p) : o ≠ p := by
  rintro rfl
  exact h.1 .refl

theorem mono (h : Apart o p) (ho : o.Covers o') (hp : p.Covers p') : Apart o' p' := by
  constructor
  · intro h'
    obtain h' | h' := (ho.trans h').total hp
    · exact h.1 h'
    · exact h.2 h'
  · intro h'
    obtain h' | h' := ho.total (hp.trans h')
    · exact h.1 h'
    · exact h.2 h'

theorem symm (h : Apart o p) : Apart p o := ⟨h.2, h.1⟩

theorem made {i j : Nat} (h : i ≠ j) : Apart (.made o i) (.made o j) :=
  ⟨fun h' => h (h'.index_eq .refl), fun h' => h (Covers.index_eq .refl h')⟩

theorem given {m n : Nat} (h : m ≠ n) : Apart (.given m) (.given n) :=
  ⟨fun h' => h (h'.number_eq .refl), fun h' => h (Covers.number_eq .refl h')⟩

end Apart

end Origin

open Origin

namespace Node

section Objects

variable {ι : Type}

/-- The object, which for a block that stands as a statement is the block. -/
def asBlock : Node ι → Node ι
  | ⟨.stmt, .block b⟩ => ⟨.block, b⟩
  | n => n

/-- The objects of a tree, and its labels, in pre-order. -/
def objects (n : Node ι) : List (Node ι) := (n.preorder fun _ => true).map asBlock

theorem objects_eq (n : Node ι) : n.objects = n.asBlock :: n.parts.flatMap objects := by
  rw [objects, preorder_eq, if_pos rfl, List.map_cons, List.map_flatMap]
  rfl

theorem objects_block (b : Block ι) : objects ⟨.stmt, .block b⟩ = objects ⟨.block, b⟩ := by
  rw [objects_eq, objects_eq]
  rfl

theorem objects_below_sublist (n : Node ι) : (n.parts.flatMap objects).Sublist n.objects := by
  rw [objects_eq]
  exact List.sublist_cons_self _ _

theorem objects_sublist_below {n c : Node ι} (h : c ∈ n.parts) :
    c.objects.Sublist (n.parts.flatMap objects) := by
  rw [List.flatMap_def]
  exact List.sublist_flatten_of_mem (List.mem_map_of_mem h)

theorem objects_sublist {n c : Node ι} (h : c ∈ n.parts) : c.objects.Sublist n.objects :=
  (objects_sublist_below h).trans (objects_below_sublist n)

end Objects

/-- The number under which the object was handed in, if it was. -/
def number? (n : Node Origin) : Option Nat := n.origin?.bind Origin.number?

@[simp] theorem asBlock_origin? (n : Node Origin) : n.asBlock.origin? = n.origin? := by
  obtain ⟨k, x⟩ := n
  cases k
  case stmt => cases x <;> rfl
  all_goals rfl

def origins (ms : List (Node Origin)) : List Origin := ms.filterMap origin?

def numbered (ms : List (Node Origin)) : List (Node Origin) := ms.filter (·.number?.isSome)

@[simp] theorem origins_append (ms ms' : List (Node Origin)) :
    origins (ms ++ ms') = origins ms ++ origins ms' := List.filterMap_append

@[simp] theorem numbered_append (ms ms' : List (Node Origin)) :
    numbered (ms ++ ms') = numbered ms ++ numbered ms' := List.filter_append ms ms'

theorem numbered_of_made {ms : List (Node Origin)} {o : Origin} {is : List Nat}
    (h : origins ms = is.map (.made o)) : numbered ms = [] := by
  rw [numbered, List.filter_eq_nil_iff]
  intro m hm
  rw [number?]
  cases ho : m.origin? with
  | none => exact nofun
  | some p =>
    have hp : p ∈ origins ms := List.mem_filterMap.2 ⟨m, hm, ho⟩
    rw [h] at hp
    obtain ⟨i, -, rfl⟩ := List.mem_map.1 hp
    exact nofun

/-- What is left of some objects, with what was made in their places. -/
structure Survives (ms ms' : List (Node Origin)) : Prop where
  order : (numbered ms').Sublist (numbered ms)
  covered : ∀ p ∈ origins ms', ∃ o ∈ origins ms, o.Covers p
  apart : (origins ms).Pairwise Apart → (origins ms').Pairwise Apart

namespace Survives

variable {ms ms' ls ls' : List (Node Origin)}

theorem of_sublist (h : ms'.Sublist ms) : Survives ms ms' where
  order := h.filter _
  covered p hp := ⟨p, (h.filterMap _).subset hp, .refl⟩
  apart := .sublist (h.filterMap _)

theorem refl (ms : List (Node Origin)) : Survives ms ms := .of_sublist (.refl ms)

theorem trans (h : Survives ms ms') (h' : Survives ms' ls) : Survives ms ls where
  order := h'.order.trans h.order
  covered p hp := by
    obtain ⟨q, hq, hqp⟩ := h'.covered p hp
    obtain ⟨o, ho, hoq⟩ := h.covered q hq
    exact ⟨o, ho, hoq.trans hqp⟩
  apart := h'.apart ∘ h.apart

/-- Objects that are apart stay apart. -/
theorem apart_append (h : Survives ms ms') (h' : Survives ls ls')
    (hapart : ∀ o ∈ origins ms, ∀ p ∈ origins ls, Apart o p) :
    ∀ o ∈ origins ms', ∀ p ∈ origins ls', Apart o p := by
  intro o' ho' p' hp'
  obtain ⟨o, ho, hoo'⟩ := h.covered o' ho'
  obtain ⟨p, hp, hpp'⟩ := h'.covered p' hp'
  exact (hapart o ho p hp).mono hoo' hpp'

theorem append (h : Survives ms ms') (h' : Survives ls ls') :
    Survives (ms ++ ls) (ms' ++ ls') := by
  constructor
  · simp only [numbered_append]
    exact h.order.append h'.order
  · simp only [origins_append, List.mem_append]
    rintro p (hp | hp)
    · obtain ⟨o, ho, hop⟩ := h.covered p hp
      exact ⟨o, .inl ho, hop⟩
    · obtain ⟨o, ho, hop⟩ := h'.covered p hp
      exact ⟨o, .inr ho, hop⟩
  · simp only [origins_append, List.pairwise_append]
    rintro ⟨hms, hls, hapart⟩
    exact ⟨h.apart hms, h'.apart hls, h.apart_append h' hapart⟩

theorem flatMap {cs ns : List (Node Origin)}
    (h : List.Forall₂ (fun c n => Survives c.objects n.objects) cs ns) :
    Survives (cs.flatMap objects) (ns.flatMap objects) := by
  induction h with
  | nil => exact .refl []
  | cons hc _ ih =>
    rw [List.flatMap_cons, List.flatMap_cons]
    exact hc.append ih

end Survives

theorem origins_objects {n : Node Origin} {o : Origin} (ho : n.origin? = some o) :
    origins n.objects = o :: origins (n.parts.flatMap objects) := by
  rw [objects_eq]
  exact List.filterMap_cons_some (by simpa using ho)

section Made

variable {n n' : Node Origin} {o : Origin} {ms before after : List (Node Origin)} {is js : List Nat}

/-- What is made in the place of an object around what is left of those below it. -/
theorem survives_around (ho : n.origin? = some o) (h : Survives (n.parts.flatMap objects) ms)
    (hbefore : origins before = is.map (.made o)) (hafter : origins after = js.map (.made o))
    (hnodup : (is ++ js).Nodup) : Survives n.objects (before ++ (ms ++ after)) := by
  have hbelow := (Survives.of_sublist (objects_below_sublist n)).trans h
  have hmade : ∀ {i}, o.Covers (.made o i) := fun {i} => Covers.refl.made i
  constructor
  · simp only [numbered_append, numbered_of_made hbefore, numbered_of_made hafter,
      List.nil_append, List.append_nil]
    exact hbelow.order
  · have hself : o ∈ origins n.objects := origins_objects ho ▸ List.mem_cons_self
    simp only [origins_append, hbefore, hafter, List.mem_append, List.mem_map]
    rintro p (⟨i, -, rfl⟩ | hp | ⟨j, -, rfl⟩)
    · exact ⟨o, hself, hmade⟩
    · exact hbelow.covered p hp
    · exact ⟨o, hself, hmade⟩
  · rw [origins_objects ho, List.pairwise_cons]
    rintro ⟨hown, hms⟩
    have hnew : ∀ i, ∀ p ∈ origins ms, Apart (.made o i) p := by
      intro i p hp
      obtain ⟨q, hq, hqp⟩ := h.covered p hp
      exact (hown q hq).mono hmade hqp
    have hmap : ∀ {ks : List Nat}, ks.Nodup → (ks.map (.made o)).Pairwise Apart :=
      fun hks => List.pairwise_map.2 (hks.imp fun h => .made h)
    obtain ⟨his, hjs, hdisjoint⟩ := List.nodup_append.1 hnodup
    simp only [origins_append, hbefore, hafter, List.pairwise_append, List.mem_append,
      List.mem_map]
    refine ⟨hmap his, ⟨h.apart hms, hmap hjs, ?_⟩, ?_⟩
    · rintro p hp _ ⟨j, -, rfl⟩
      exact (hnew j p hp).symm
    · rintro _ ⟨i, hi, rfl⟩ p (hp | ⟨j, hj, rfl⟩)
      · exact hnew i p hp
      · exact .made (hdisjoint i hi j hj)

theorem survives_before (ho : n.origin? = some o) (h : Survives (n.parts.flatMap objects) ms)
    (hbefore : origins before = is.map (.made o)) (hnodup : is.Nodup) :
    Survives n.objects (before ++ ms) := by
  have hafter : origins [] = ([] : List Nat).map (.made o) := rfl
  have hsurvives := survives_around ho h hbefore hafter (by rwa [List.append_nil])
  rwa [List.append_nil] at hsurvives

theorem survives_made (ho : n.origin? = some o) (h : origins ms = is.map (.made o))
    (hnodup : is.Nodup) : Survives n.objects ms := by
  have := survives_before ho (.of_sublist (List.nil_sublist _)) h hnodup
  rwa [List.append_nil] at this

/-- A changed copy of an object around what is left of its parts. -/
theorem survives_remade (ho : n'.origin? = n.origin?.map .remade)
    (h : Survives (n.parts.flatMap objects) (n'.parts.flatMap objects)) :
    Survives n.objects n'.objects := by
  cases hn : n.origin? with
  | some o =>
    rw [hn] at ho
    have hown : origins [n'.asBlock] = [0].map (.made o) := by simp [origins, ho, Origin.remade]
    rw [objects_eq n']
    exact survives_before hn h hown (by simp)
  | none =>
    -- a label is no object
    have hn' : n'.origin? = none := by rw [ho, hn]; rfl
    have hlabel : Survives [n.asBlock] [n'.asBlock] := by
      constructor <;> simp [numbered, number?, origins, hn']
    rw [objects_eq, objects_eq n']
    exact hlabel.append h

end Made

theorem Rebuilt.survives {n n' : Node Origin} {ns : List (Node Origin)} (h : n.Rebuilt ns n')
    (hns : List.Forall₂ (fun c c' => Survives c.objects c'.objects) n.parts ns) :
    Survives n.objects n'.objects := by
  cases h with
  | kept _ => exact .refl _
  | remade _ _ hp ho => exact survives_remade ho (hp ▸ .flatMap hns)

end Node

/-- A transform answers what survives of an object, if each visit does. -/
theorem Transform.survives {σ : Type} (T : Transform σ)
    (visit : ∀ k x walk, Walked (fun n _ n' _ => Survives n.objects n'.objects) ⟨k, x⟩ walk →
      ∀ s, Survives (objects ⟨k, x⟩) (objects ⟨k, (T.visit k x walk s).1⟩))
    (n : Node Origin) (s : σ) : Survives n.objects (T.node n s).1.objects := by
  refine T.induction (P := fun n _ n' _ => Survives n.objects n'.objects) ?_ visit n s
  intro b _ b' _ h
  rw [objects_block, objects_block]
  exact h

theorem Node.Walked.survives {σ : Type} {n : Node Origin} {walk : StateM σ (Object Origin n.kind)}
    (h : n.Walked (fun n _ n' _ => Survives n.objects n'.objects) walk) (s : σ) :
    Survives n.objects (objects ⟨n.kind, (walk s).1⟩) := by
  obtain ⟨ns, hns, hr⟩ := h s
  exact hr.survives (hns.forall₂ fun _ _ _ _ _ h => h)

theorem rename_survives (names : Rename.Names) (n : Node Origin) (t : Rename.Tally) :
    Survives n.objects ((Rename.transform names).node n t).1.objects := by
  refine (Rename.transform names).survives (fun k x walk hwalk t => ?_) n t
  have hz := hwalk.survives t
  rw [Rename.visit_fst]
  split
  · rename_i hkey
    obtain ⟨name, hname, -⟩ := List.any_eq_true.1 hkey
    refine hz.trans (survives_remade (rename_origin? (List.ne_nil_of_mem hname)) ?_)
    rw [rename_parts]
    exact .refl _
  · exact hz

theorem collapse_survives (n : Node Origin) (t : Collapse.Tally) :
    Survives n.objects (Collapse.transform.node n t).1.objects := by
  refine Collapse.transform.survives (fun k x walk hwalk t => ?_) n t
  have hz := hwalk.survives t
  rw [Collapse.visit_fst]
  cases ha : chosen? ⟨k, (walk t).1⟩ with
  | none => exact hz
  | some a =>
    obtain ⟨c, hc, hac⟩ := mem_parts_of_chosen? ha
    exact hz.trans (.of_sublist
      ((objects_sublist hac).trans (objects_sublist hc)))

namespace Fold

theorem value?_survives {z v : Expr Origin} (h : value? z = some v) :
    Survives (objects ⟨.expr, z⟩) (objects ⟨.expr, v⟩) := by
  obtain ⟨c, rfl⟩ | hv := value?_cases h
  · have hmade : origins (objects ⟨.expr, ⟨z.origin.remade, .constant c⟩⟩) =
        [0].map (.made z.origin) := by rw [objects_eq]; rfl
    exact survives_made rfl hmade (by simp)
  · exact .of_sublist (objects_sublist hv)

/-- The statement, its list and the names in it take the numbers from two on. -/
theorem declare_origins (o : Origin) (names : List String) :
    origins (objects ⟨.stmt, declare o names⟩) =
      (List.range' 2 (names.length + 2)).map (.made o) := by
  let ds : List (Declaration Origin) := names.mapIdx fun i n => ⟨.made o (i + 4), n, none⟩
  have hobjects : (ds.map (Node.mk .declaration)).flatMap objects =
      ds.map (Node.mk .declaration) := by
    rw [List.flatMap_map, List.map_eq_flatMap]
    refine List.flatMap_congr fun d hd => ?_
    obtain ⟨i, hi, rfl⟩ := List.mem_mapIdx.1 hd
    rw [objects_eq]
    rfl
  have horigins : origins (ds.map (Node.mk .declaration)) =
      (List.range' 4 names.length).map (.made o) := by
    rw [origins, List.filterMap_map]
    change ds.filterMap (some ∘ Declaration.origin) = _
    rw [List.filterMap_eq_map]
    apply List.ext_getElem <;> simp [ds, Nat.add_comm]
  have hlist : origins (objects ⟨.declarations, ⟨.made o 3, ds⟩⟩) =
      .made o 3 :: origins (ds.map (Node.mk .declaration)) :=
    (origins_objects rfl).trans (congrArg (fun ms => _ :: origins ms) hobjects)
  rw [origins_objects rfl]
  change _ :: origins (objects ⟨.declarations, ⟨.made o 3, ds⟩⟩ ++ []) = _
  rw [List.append_nil, hlist, horigins, List.range'_succ, List.range'_succ]
  rfl

theorem selectBranch_survives {n : Node Origin} {o : Origin} {live dead : Option (Block Origin)}
    {y : Stmt Origin} (ho : n.origin? = some o)
    (hlive : ∀ b, live = some b → ⟨.block, b⟩ ∈ n.parts) (h : selectBranch o live dead = some y) :
    Survives n.objects (objects ⟨.stmt, y⟩) := by
  cases (selectBranch_cases h).2 with
  | live =>
    rw [objects_block]
    exact .of_sublist (objects_sublist (hlive _ rfl))
  | @extended live _ =>
    have hblock := objects_sublist_below (hlive _ rfl)
    have hlist : (⟨.stmts, live.statements⟩ : Node Origin) ∈ parts ⟨.block, live⟩ :=
      List.mem_cons_self
    have hitems := (objects_below_sublist ⟨.stmts, live.statements⟩).trans
      ((objects_sublist hlist).trans hblock)
    have hnew (s : Stmt Origin) : objects ⟨.stmt, .block ⟨.made o 0, ⟨.made o 1,
          live.statements.items ++ [s]⟩⟩⟩ =
        [⟨.block, ⟨.made o 0, ⟨.made o 1, live.statements.items ++ [s]⟩⟩⟩,
          ⟨.stmts, ⟨.made o 1, live.statements.items ++ [s]⟩⟩] ++
        ((parts ⟨.stmts, live.statements⟩).flatMap objects ++ objects ⟨.stmt, s⟩) := by
      rw [objects_block, objects_eq, parts, List.flatMap_singleton, objects_eq]
      simp [parts, asBlock]
    rw [hnew]
    have hnodup {k : Nat} : ([0, 1] ++ List.range' 2 k).Nodup :=
      List.nodup_range' (s := 0) (n := k + 2)
    exact survives_around ho (.of_sublist hitems) rfl (declare_origins o _) hnodup
  | empty =>
    have hmade : origins (objects ⟨.stmt, .node (.made o 0) .empty⟩) = [0].map (.made o) := by
      rw [objects_eq]
      rfl
    exact survives_made ho hmade (by simp)
  | declaration => exact survives_made ho (declare_origins o _) List.nodup_range'

theorem branch?_survives {z y : Stmt Origin} (h : branch? z = some y) :
    Survives (objects ⟨.stmt, z⟩) (objects ⟨.stmt, y⟩) := by
  obtain ⟨o, test, value, t, e, live, dead, rfl, -, hb, h⟩ := branch?_cases h
  refine selectBranch_survives rfl ?_ h
  rintro b rfl
  exact mem_parts_of_branches hb

/-- Four objects are made around a guarded callee and the arguments. -/
theorem guarded_objects (o : Origin) (c : Expr Origin) (es : NodeList Origin (Expr Origin)) :
    ∃ before, origins before = [0, 1, 2, 3].map (.made o) ∧
      objects ⟨.expr, ⟨o.remade, .call ⟨.made o 1, .comma
          ⟨.made o 2, [⟨.made o 3, .constant (.number 0)⟩, c]⟩⟩ es⟩⟩ =
        before ++ (parts ⟨.expr, ⟨o.remade, .call c es⟩⟩).flatMap objects := by
  let zero : Expr Origin := ⟨.made o 3, .constant (.number 0)⟩
  let list : NodeList Origin (Expr Origin) := ⟨.made o 2, [zero, c]⟩
  let comma : Expr Origin := ⟨.made o 1, .comma list⟩
  let call : Expr Origin := ⟨o.remade, .call comma es⟩
  have hzero : objects ⟨.expr, zero⟩ = [⟨.expr, zero⟩] := by
    rw [objects_eq]
    rfl
  have hlist : objects ⟨.exprs, list⟩ = ⟨.exprs, list⟩ :: ⟨.expr, zero⟩ :: objects ⟨.expr, c⟩ := by
    rw [objects_eq]
    simp [parts, list, hzero, asBlock]
  have hcomma : objects ⟨.expr, comma⟩ = ⟨.expr, comma⟩ :: objects ⟨.exprs, list⟩ := by
    rw [objects_eq]
    simp [parts, ExprShape.parts, comma, asBlock]
  refine ⟨[⟨.expr, call⟩, ⟨.expr, comma⟩, ⟨.exprs, list⟩, ⟨.expr, zero⟩], rfl, ?_⟩
  change objects ⟨.expr, call⟩ = _
  rw [objects_eq]
  simp [parts, ExprShape.parts, call, hcomma, hlist, asBlock]

theorem guardCallee_survives {e z : Expr Origin} {ns : List (Node Origin)}
    (hr : Rebuilt ⟨.expr, e⟩ ns ⟨.expr, z⟩)
    (hns : List.Forall₂ (fun c c' => Survives c.objects c'.objects) (parts ⟨.expr, e⟩) ns) :
    Survives (objects ⟨.expr, e⟩) (objects ⟨.expr, guardCallee e z⟩) := by
  obtain hself | ⟨o, o', c, c', es, es', rfl, rfl, hnew, hold, hguard⟩ := guardCallee_cases e z
  · rw [hself]
    exact hr.survives hns
  · rw [hguard]
    -- a guard is only put where the callee changed, and there the call was rebuilt
    cases hr with
    | kept _ => exact absurd (hold.symm.trans hnew) nofun
    | remade _ _ hp ho =>
      obtain rfl := Option.some.inj ho
      subst hp
      obtain ⟨before, hbefore, hobjects⟩ := guarded_objects o c' es'
      rw [hobjects]
      exact survives_before rfl (.flatMap hns) hbefore (by decide)

end Fold

theorem fold_survives (n : Node Origin) (folded : Nat) :
    Survives n.objects (Fold.transform.node n folded).1.objects := by
  refine Fold.transform.survives (fun k x walk hwalk s => ?_) n folded
  have hz := hwalk.survives s
  cases k
  case expr =>
    rw [Fold.visit_expr]
    cases hv : Fold.value? (walk s).1 with
    | some v => exact hz.trans (Fold.value?_survives hv)
    | none =>
      obtain ⟨ns, hns, hr⟩ := hwalk s
      exact Fold.guardCallee_survives hr (hns.forall₂ fun _ _ _ _ _ h => h)
  case stmt =>
    rw [Fold.visit_stmt]
    cases hb : Fold.branch? (walk s).1 with
    | some y => exact hz.trans (Fold.branch?_survives hb)
    | none => exact hz
  all_goals exact hz

theorem Pass.run_survives (pass : Pass) (p : Program Origin) (w : Workspace) :
    Survives (objects ⟨.stmts, p⟩) (objects ⟨.stmts, (pass.run p w).1⟩) := by
  cases pass
  case rename => exact rename_survives w.names ⟨.stmts, p⟩ _
  case fold => exact fold_survives ⟨.stmts, p⟩ _
  case inlineCode => exact collapse_survives ⟨.stmts, p⟩ _

theorem Pipeline.Reaches.survives {passes : List Pass} {p q : Program Origin} {w v : Workspace}
    (h : Reaches passes p w q v) : Survives (objects ⟨.stmts, p⟩) (objects ⟨.stmts, q⟩) := by
  induction h with
  | start => exact .refl _
  | pass _ _ ih => exact ih.trans (Pass.run_survives _ _ _)
  | record r _ ih => exact ih

section Numbers

variable {ι : Type}

/-- The origins of the objects are the numbers from `s` to below `t`, in order. -/
def Node.Ordered (s : Nat) (ms : List (Node Origin)) (t : Nat) : Prop :=
  s ≤ t ∧ origins ms = (List.range' s (t - s)).map .given

theorem Node.Ordered.threaded {cs : List (Node ι)} {ns : List (Node Origin)} {s t : Nat}
    (h : Threaded (fun _ s n t => Ordered s n.objects t) cs s ns t) :
    Ordered s (ns.flatMap objects) t := by
  induction h with
  | nil s => exact ⟨Nat.le_refl s, by simp [origins]⟩
  | @cons _ _ s t u _ _ hn _ ih =>
    obtain ⟨hst, hn⟩ := hn
    obtain ⟨htu, hns⟩ := ih
    refine ⟨Nat.le_trans hst htu, ?_⟩
    have hrange : List.range' s (u - s) = List.range' s (t - s) ++ List.range' t (u - t) := by
      have hsum : u - s = (t - s) + (u - t) := by omega
      have ht : t = s + 1 * (t - s) := by omega
      rw [hsum, ← List.range'_append, ← ht]
    rw [List.flatMap_cons, origins_append, hn, hns, hrange, List.map_append]

/-- The objects of a tree that is handed in are numbered in pre-order. -/
theorem number_ordered (n : Node ι) (s : Nat) :
    Ordered s (n.number s).1.objects (n.number s).2 := by
  induction n using Node.induction generalizing s with
  | step n ih =>
    have hthreaded {s ns t} (h : Threaded Numbers n.parts s ns t) :
        Ordered s (ns.flatMap objects) t := by
      refine Ordered.threaded (h.imp fun c hc s m t hm => ?_)
      have hordered := ih c hc s
      rw [hm] at hordered
      exact hordered
    obtain ⟨ho, h⟩ | ⟨ho, h⟩ := number_parts n s
    · have hlabel : origins (n.number s).1.objects =
          origins ((n.number s).1.parts.flatMap objects) := by
        rw [objects_eq]
        exact List.filterMap_cons_none (by simpa using ho)
      obtain ⟨hle, hbelow⟩ := hthreaded h
      exact ⟨hle, hlabel.trans hbelow⟩
    · obtain ⟨hle, hbelow⟩ := hthreaded h
      refine ⟨Nat.le_of_succ_le hle, ?_⟩
      have hrange : (n.number s).2 - s = ((n.number s).2 - (s + 1)) + 1 := by omega
      rw [origins_objects ho, hbelow, hrange, List.range'_succ]
      rfl

/-- What remains of a tree `n₀` whose objects had the numbers below `known`: the census meets them
in order, no object is there twice, and those with numbers are the very objects that had them. -/
structure Node.Remains (known : Nat) (n₀ n : Node Origin) : Prop where
  increasing : ((Object.census known n.kind n.object).filterMap id).Pairwise (· < ·)
  nodup : (origins n.objects).Nodup
  kept : ∀ m ∈ n.objects, ∀ i, m.origin? = some (.given i) → m ∈ n₀.objects

theorem preorder_sublist (enter : Node ι → Bool) (n : Node ι) :
    (n.preorder enter).Sublist (n.preorder fun _ => true) := by
  induction n using Node.induction with
  | step n ih =>
    rw [preorder_eq, preorder_eq (fun _ => true), if_pos rfl]
    refine .cons_cons n ?_
    split
    · exact .flatMap_right _ ih
    · exact List.nil_sublist _

end Numbers

theorem known?_eq (known : Nat) (n : Node Origin) :
    n.known? known = n.number?.filter (· < known) := by
  rw [Node.known?, Node.number?]
  cases n.origin? with
  | none => rfl
  | some o =>
    cases o with
    | given i => by_cases hi : i < known <;> simp [Origin.known?, Origin.number?, Option.filter, hi]
    | made place k => rfl

/-- The numbers in a census are among those of all objects. -/
theorem census_sublist (known : Nat) (n : Node Origin) :
    ((Object.census known n.kind n.object).filterMap id).Sublist
      (n.objects.filterMap Node.number?) := by
  have hcensus : (Object.census known n.kind n.object).filterMap id =
      (n.preorder fun m => (m.known? known).isNone).filterMap (Node.known? known) := by
    rw [census_eq, Node.entries, List.filterMap_filterMap]
    refine List.filterMap_congr fun m _ => ?_
    rw [Node.known?]
    cases m.origin? <;> rfl
  have hobjects : n.objects.filterMap Node.number? =
      (n.preorder fun _ => true).filterMap Node.number? := by
    rw [objects, List.filterMap_map]
    exact List.filterMap_congr fun m _ => congrArg (·.bind Origin.number?) (asBlock_origin? m)
  have hknown : (n.preorder fun _ => true).filterMap (Node.known? known) =
      ((n.preorder fun _ => true).filterMap Node.number?).filter (· < known) := by
    rw [List.filter_filterMap]
    exact List.filterMap_congr fun m _ => known?_eq known m
  rw [hcensus, hobjects]
  refine ((preorder_sublist _ n).filterMap _).trans ?_
  rw [hknown]
  exact List.filter_sublist

theorem numbered_filterMap (ms : List (Node Origin)) :
    (numbered ms).filterMap Node.number? = ms.filterMap Node.number? := by
  rw [numbered, List.filterMap_filter]
  refine List.filterMap_congr fun m _ => ?_
  cases m.number? <;> rfl

theorem Survives.remains {n : Node Unit} {n' : Node Origin}
    (h : Survives (n.number 0).1.objects n'.objects) :
    Remains (n.number 0).2 (n.number 0).1 n' := by
  obtain ⟨-, hordered⟩ := number_ordered n 0
  have hnumbers : ((n.number 0).1.objects.filterMap Node.number?).Pairwise (· < ·) := by
    have heq : (n.number 0).1.objects.filterMap Node.number? =
        (origins (n.number 0).1.objects).filterMap Origin.number? := List.filterMap_filterMap.symm
    rw [heq, hordered, List.filterMap_map]
    change ((List.range' 0 _).filterMap some).Pairwise _
    rw [List.filterMap_some]
    exact List.pairwise_lt_range'
  constructor
  · refine hnumbers.sublist ((census_sublist _ n').trans ?_)
    rw [← numbered_filterMap, ← numbered_filterMap (n.number 0).1.objects]
    exact h.order.filterMap _
  · have hapart : (origins (n.number 0).1.objects).Pairwise Apart := by
      rw [hordered, List.pairwise_map]
      exact List.Pairwise.imp .given List.nodup_range'
    exact (h.apart hapart).imp fun h => h.ne
  · intro m hm i ho
    have hmem : m ∈ numbered n'.objects :=
      List.mem_filter.2 ⟨hm, by rw [Node.number?, ho]; rfl⟩
    exact (List.mem_filter.1 (h.order.subset hmem)).1

namespace Pipeline

/-- The objects of a tree are numbered in pre-order; a pass with any table, and a run without an
error, leaves those that it leaves in that order and none of them twice. -/
theorem run_remains :
    (∀ (k : Kind) (x : Object Unit k),
      let x₀ := (Object.number 0 k x).1
      let known := (Object.number 0 k x).2
      origins (objects ⟨k, x₀⟩) = (List.range known).map .given ∧
      (∀ names t, Remains known ⟨k, x₀⟩ ⟨k, ((Rename.transform names).object k x₀ t).1⟩) ∧
      (∀ n, Remains known ⟨k, x₀⟩ ⟨k, (Fold.transform.object k x₀ n).1⟩) ∧
      ∀ t, Remains known ⟨k, x₀⟩ ⟨k, (Collapse.transform.object k x₀ t).1⟩) ∧
    ∀ (P : Pipeline) (p : Program Unit) (r : Outcome) (log : List Record),
      let p₀ := (Object.number 0 .stmts p).1
      let known := (Object.number 0 .stmts p).2
      P.run p₀ = (.ok r, log) → Remains known ⟨.stmts, p₀⟩ ⟨.stmts, r.program⟩ := by
  constructor
  · intro k x x₀ known
    refine ⟨?_, fun names t => ?_, fun n => ?_, fun t => ?_⟩
    · rw [List.range_eq_range']
      exact (number_ordered ⟨k, x⟩ 0).2
    · exact Survives.remains (n := ⟨k, x⟩) (rename_survives names _ t)
    · exact Survives.remains (n := ⟨k, x⟩) (fold_survives _ n)
    · exact Survives.remains (n := ⟨k, x⟩) (collapse_survives _ t)
  · intro P p r log p₀ known hrun
    obtain ⟨v, hreaches, -⟩ := run_reaches hrun
    exact Survives.remains (n := ⟨.stmts, p⟩) hreaches.survives

/-- The statements around an `if` and one of those in the branch that runs keep their places, around
the renamed one and what the other branch declares. -/
theorem run_remains_live_branch :
    let P : Pipeline := ⟨[.fold, .rename], [("b", "c")], 2⟩
    let use (x : String) : Stmt Unit := .node () (.expression ⟨(), .identifier x⟩)
    let p : Program Unit := ⟨(), [use "a", .node () (.ifElse ⟨(), .constant (.bool true)⟩
      ⟨(), ⟨(), [use "b", use "a"]⟩⟩
      (some ⟨(), ⟨(), [.node () (.vars ⟨(), [⟨(), "x", none⟩]⟩)]⟩⟩)), use "a"]⟩
    let p₀ := (Object.number 0 .stmts p).1
    ∃ r log, P.run p₀ = (.ok r, log) ∧ Remains 18 ⟨.stmts, p₀⟩ ⟨.stmts, r.program⟩ ∧
      Object.census 18 .stmts r.program = [none, some 1, none, none, none, none, some 9, none, none,
        none, some 16] := by
  intro P use p p₀
  have hcensus : (P.run p₀).1.toOption.map (fun r => Object.census 18 .stmts r.program) =
      some [none, some 1, none, none, none, none, some 9, none, none, none, some 16] := by
    decide +kernel
  have hknown : (Object.number 0 .stmts p).2 = 18 := by decide +kernel
  rcases hrun : P.run p₀ with ⟨e | r, log⟩ <;> rw [hrun] at hcensus
  · exact absurd hcensus nofun
  · exact ⟨r, log, rfl, hknown ▸ run_remains.2 P p r log hrun, Option.some.inj hcensus⟩

end Pipeline

end ScriptTree
