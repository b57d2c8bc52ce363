import ScriptTree.Proofs.FoldCongruence
import ScriptTree.Proofs.PassOrder
import ScriptTree.Proofs.RenamedBindings
import ScriptTree.Proofs.Replacement

namespace ScriptTree

open Node Rename

variable {names : Names} {n m : Node Unit}

theorem forall₂_square {α β γ δ : Type} {R : α → γ → Prop} {S : α → β → Prop} {T : γ → δ → Prop}
    {Q : β → δ → Prop} {as : List α} {bs : List β} {cs : List γ} {ds : List δ}
    (hR : List.Forall₂ R as cs) (hS : List.Forall₂ S as bs) (hT : List.Forall₂ T cs ds)
    (hQ : ∀ a ∈ as, ∀ b c d, R a c → S a b → T c d → Q b d) : List.Forall₂ Q bs ds := by
  induction hR generalizing bs ds with
  | nil =>
    cases hS
    cases hT
    exact .nil
  | cons hac _ ih =>
    cases hS with
    | cons hab hS =>
      cases hT with
      | cons hcd hT =>
        obtain ⟨hhead, htail⟩ := List.forall_mem_cons.1 hQ
        exact .cons (hhead _ _ _ hac hab hcd) (ih hS hT htail)

theorem Node.flatMap_scope_bare {ι β : Type} {f : Node ι → List β} {g : Node Unit → List β}
    (h : ∀ n : Node ι, g n.bare = f n) (n : Node ι) :
    n.bare.scope.flatMap g = n.scope.flatMap f := by
  induction n using Node.induction with
  | step n ih =>
    have hfun : n.bare.isFunction = n.isFunction := bare_own _ n
    rw [flatMap_scope, flatMap_scope f, h, hfun, bare_parts, List.flatMap_map,
      List.flatMap_congr ih]

theorem templateAt_substitute (h : Node Unit) (available : List Nat) :
    templateAt (h.substitute names) available = templateAt h available := by
  obtain ⟨k, x⟩ := h
  cases k
  case expr => rcases x with ⟨_, _ | _⟩ <;> rfl
  case stmt => rcases x with _ | ⟨_, _ | _⟩ <;> rfl
  all_goals rfl

namespace Rename.Substituted

theorem kind_eq (h : Substituted names n m) : m.kind = n.kind := by
  have hkind : ∀ n : Node Unit, (n.substitute names).kind = n.kind := by
    rintro ⟨k, x⟩
    cases k
    case stmt => cases x <;> rfl
    all_goals rfl
  rw [← head_kind m, h.head, hkind, head_kind]

theorem width_eq (h : Substituted names n m) : m.width = n.width := by
  rw [width, width, h.kind_eq, h.parts.length_eq]

theorem template?_eq (h : Substituted names n m) : m.template? = n.template? := by
  have hwidths : m.parts.map width = n.parts.map width :=
    (map_eq_map_iff_forall₂.2 (h.parts.imp fun _ _ h => h.width_eq.symm)).symm
  rw [Node.template?_eq, Node.template?_eq n, h.head, templateAt_substitute, hwidths]

/-- A literal stands for the same argument in the renamed tree. -/
theorem chosen? (h : Substituted names n m) : n.chosen? = none ∧ m.chosen? = none ∨
    ∃ a b, n.chosen? = some a ∧ m.chosen? = some b ∧ Substituted names a b := by
  have hargs : List.Forall₂ (Substituted names) (n.parts.flatMap Node.parts)
      (m.parts.flatMap Node.parts) :=
    List.rel_flatMap h.parts fun _ _ h => h.parts
  rw [chosen?_eq, chosen?_eq m, h.template?_eq]
  cases n.template? with
  | none => exact .inl ⟨rfl, rfl⟩
  | some template =>
    cases hs : Collapse.sole? template.1 with
    | none => simp [hs]
    | some i => simpa [hs] using Collapse.forall₂_getElem? hargs i

theorem postorder (h : Substituted names n m) :
    List.Forall₂ (Substituted names) n.postorder m.postorder := by
  induction n using Node.induction generalizing m with
  | step n ih =>
    have hparts : List.Forall₂ (fun c c' => c ∈ n.parts ∧ Substituted names c c') n.parts
        m.parts := (List.forall₂_and_left _ _).2 ⟨fun _ hc => hc, h.parts⟩
    rw [postorder_eq, postorder_eq m]
    exact List.rel_append (List.rel_flatMap hparts fun c _ hc => ih c hc.1 hc.2)
      (.cons h .nil)

/-- The objects of a renamed tree report what those of the tree do. -/
theorem tally_eq {ns ms : List (Node Unit)} (h : List.Forall₂ (Substituted names) ns ms)
    (t : Collapse.Tally) : Collapse.tally ms t = Collapse.tally ns t := by
  rw [← Collapse.tally_foldl, ← Collapse.tally_foldl]
  induction h generalizing t with
  | nil => rfl
  | cons hnm _ ih =>
    rw [List.foldl_cons, List.foldl_cons, Collapse.tally_congr hnm.template?_eq, ih]

end Rename.Substituted

/-- Renaming takes a tree and what replaces it to a tree and what replaces that. -/
theorem Collapse.Replaced.substituted {n m c d : Node Unit} (hc : Replaced n c)
    (hm : Substituted names n m) (hd : Substituted names c d) : Replaced m d := by
  cases hc with
  | literal ha hc =>
    obtain ⟨hn, -⟩ | ⟨a, b, hn, hm, hab⟩ := hm.chosen?
    · exact absurd (hn.symm.trans ha) nofun
    · obtain rfl := Option.some.inj (hn.symm.trans ha)
      exact .literal hm (hc.substituted hab hd)
  | kept hn halike hparts =>
    obtain ⟨-, hm'⟩ | ⟨a, b, hn', -, -⟩ := hm.chosen?
    · refine .kept hm' ?_ ?_
      · rw [Alike, hm.head, hd.head, halike]
      · exact forall₂_square hparts hm.parts hd.parts fun a ha _ _ _ hac hab hcd =>
          hac.substituted hab hcd
    · exact absurd (hn.symm.trans hn') nofun
termination_by n.size
decreasing_by
  · exact size_lt_of_chosen? ‹_›
  · exact size_lt_of_mem_parts ha

/-- The second tree is the first with other names, whatever their objects are. -/
def Rename.Renamed (names : Names) (n m : Node Origin) : Prop := Substituted names n.bare m.bare

theorem Rename.Names.eraseDups_map {occurring : List String} (h : names.Separates occurring)
    {xs : List String} (hxs : xs ⊆ occurring) :
    (xs.map names.apply).eraseDups = xs.eraseDups.map names.apply := by
  induction hn : xs.length using Nat.strong_induction_on generalizing xs with
  | _ n ih =>
    cases xs with
    | nil => rfl
    | cons x xs =>
      obtain ⟨hx, hxs⟩ := List.cons_subset.1 hxs
      have hfilter : (xs.map names.apply).filter (fun y => !y == names.apply x) =
          (xs.filter fun y => !y == x).map names.apply := by
        rw [List.filter_map]
        congr 1
        refine List.filter_congr fun y hy => ?_
        have heq : names.apply y = names.apply x ↔ y = x :=
          ⟨h y (hxs hy) x hx, congrArg names.apply⟩
        simp [heq]
      have hlength := List.length_filter_le (fun y => !y == x) xs
      have hrest := ih (xs.filter fun y => !y == x).length
        (by rw [← hn, List.length_cons]; omega)
        (List.Subset.trans (List.filter_subset_self _) hxs) rfl
      rw [List.map_cons, List.eraseDups_cons, List.eraseDups_cons, List.map_cons, hfilter, hrest]

namespace Rename.Renamed

variable {n m : Node Origin}

theorem head (h : Renamed names n m) : m.head = n.head.substitute names := by
  rw [← bare_head m, Substituted.head h, bare_head]

theorem parts (h : Renamed names n m) : List.Forall₂ (Renamed names) n.parts m.parts := by
  have hparts := Substituted.parts h
  rwa [bare_parts, bare_parts, List.forall₂_map_left_iff, List.forall₂_map_right_iff] at hparts

theorem kind_eq (h : Renamed names n m) : m.kind = n.kind := Substituted.kind_eq h

/-- An object without names of its own is renamed to one like it. -/
theorem alike (h : Renamed names n m) (hn : n.names = []) : n.Alike m := by
  have hnone : ∀ x ∈ n.head.names, names.isKey x = false := by
    have hnames : n.head.names = [] := (own_head _ n).trans hn
    rw [hnames]
    exact nofun
  rw [Alike, h.head, substitute_of_not_isKey hnone]

theorem vars_eq (h : Renamed names n m) : m.vars = n.vars.map names.apply := by
  have hbare (n : Node Origin) : n.bare.vars = n.vars :=
    flatMap_scope_bare (bare_own _) n
  rw [← hbare, ← hbare n]
  exact Substituted.vars_eq h

theorem functions_eq (h : Renamed names n m) : m.functions = n.functions.map names.apply := by
  have hbare (n : Node Origin) : n.bare.functions = n.functions :=
    flatMap_scope_bare (bare_own _) n
  rw [← hbare, ← hbare n]
  exact Substituted.functions_eq h

theorem hoistsFunction_eq (h : Renamed names n m) : m.hoistsFunction = n.hoistsFunction := by
  have hiff : m.hoistsFunction = false ↔ n.hoistsFunction = false := by
    rw [← functions_eq_nil_iff, ← functions_eq_nil_iff, h.functions_eq, List.map_eq_nil_iff]
  cases hm : m.hoistsFunction
  · exact (hiff.1 hm).symm
  · cases hn : n.hoistsFunction
    · exact hm.symm.trans (hiff.2 hn)
    · rfl

theorem constant?_eq (h : Renamed names n m) : Fold.constant? m = Fold.constant? n := by
  have hsubstitute (n : Node Unit) : Fold.constant? (n.substitute names) = Fold.constant? n := by
    obtain ⟨k, x⟩ := n
    cases k
    case expr => rcases x with ⟨_, _ | _⟩ <;> rfl
    case stmt => rcases x with _ | ⟨_, _ | _⟩ <;> rfl
    all_goals rfl
  rw [← Fold.constant?_head m, h.head, hsubstitute, Fold.constant?_head]

theorem foldable_iff (h : Renamed names n m) : Fold.Foldable m ↔ Fold.Foldable n := by
  have hsubstitute (n : Node Unit) : Fold.foldsAt (n.substitute names) = Fold.foldsAt n := by
    obtain ⟨k, x⟩ := n
    cases k
    case expr => rcases x with ⟨_, _ | _⟩ <;> rfl
    case stmt => rcases x with _ | ⟨_, _ | _⟩ <;> rfl
    all_goals rfl
  have hreadings : m.parts.map Fold.reading = n.parts.map Fold.reading := by
    rw [eq_comm, map_eq_map_iff_forall₂]
    exact h.parts.imp fun _ _ h =>
      congrArg₂ Prod.mk h.constant?_eq.symm h.hoistsFunction_eq.symm
  rw [Fold.foldable_iff, Fold.foldable_iff n, h.head, hsubstitute, hreadings]

theorem of_parts (hhead : m.head = n.head.substitute names)
    (hparts : List.Forall₂ (Renamed names) n.parts m.parts) : Renamed names n m :=
  Substituted.of_parts hhead hparts

theorem block {b b' : Block Origin} (h : Renamed names ⟨.block, b⟩ ⟨.block, b'⟩) :
    Renamed names ⟨.stmt, .block b⟩ ⟨.stmt, .block b'⟩ :=
  .of_parts rfl h.parts

/-- A block is renamed to a block. -/
theorem exists_block_iff (h : Renamed names n m) :
    (∃ b, m = ⟨.stmt, .block b⟩) ↔ ∃ b, n = ⟨.stmt, .block b⟩ := by
  obtain ⟨k, x⟩ := n
  obtain ⟨k', x'⟩ := m
  obtain rfl : k' = k := h.kind_eq
  have hhead := h.head
  cases k'
  case stmt =>
    cases x <;> cases x'
    case block.block => exact iff_of_true ⟨_, rfl⟩ ⟨_, rfl⟩
    case node.node => exact iff_of_false nofun nofun
    all_goals exact absurd hhead nofun
  all_goals exact iff_of_false nofun nofun

theorem constant (o o' : Origin) (c : Constant) :
    Renamed names ⟨.expr, ⟨o, .constant c⟩⟩ ⟨.expr, ⟨o', .constant c⟩⟩ :=
  .of_parts rfl .nil

theorem asConstant?_eq {e e' : Expr Origin} (h : Renamed names ⟨.expr, e⟩ ⟨.expr, e'⟩) :
    e'.asConstant? = e.asConstant? :=
  h.constant?_eq

theorem value? {z z' v : Expr Origin} (h : Renamed names ⟨.expr, z⟩ ⟨.expr, z'⟩)
    (hv : Fold.value? z = some v) :
    ∃ v', Fold.value? z' = some v' ∧ Renamed names ⟨.expr, v⟩ ⟨.expr, v'⟩ := by
  obtain ⟨o', s'⟩ := z'
  cases Fold.value?_valued hv with
  | @binary op c d v _ _ _ hc =>
    have halike := alike_expr_iff.1 (h.alike rfl)
    cases s'
    case binary op' l r =>
      obtain rfl : op = op' := (ExprShape.binary.inj halike).1
      obtain ⟨hl, hr⟩ := List.forall₂_cons.1 h.parts
      have hl' : l.asConstant? = some c := hl.asConstant?_eq
      have hr' : r.asConstant? = some d := (List.forall₂_cons.1 hr).1.asConstant?_eq
      exact ⟨⟨o'.remade, .constant v⟩, by simp [Fold.value?, hl', hr', hc], .constant _ _ _⟩
    all_goals cases halike
  | @unary op c v _ _ hc =>
    have halike := alike_expr_iff.1 (h.alike rfl)
    cases s'
    case unary op' x =>
      obtain rfl : op = op' := (ExprShape.unary.inj halike).1
      have hx' : x.asConstant? = some c := (List.forall₂_cons.1 h.parts).1.asConstant?_eq
      exact ⟨⟨o'.remade, .constant v⟩, by simp [Fold.value?, hx', hc], .constant _ _ _⟩
    all_goals cases halike
  | @choice _ _ value a b =>
    have halike := alike_expr_iff.1 (h.alike rfl)
    cases s'
    case conditional c a' b' =>
      obtain ⟨hc, hab⟩ := List.forall₂_cons.1 h.parts
      obtain ⟨ha, hb⟩ := List.forall₂_cons.1 hab
      have htest : Fold.asBool? c = some value := Fold.asBool?_eq_some_iff.2 hc.asConstant?_eq
      refine ⟨if value then a' else b', by simp [Fold.value?, htest], ?_⟩
      cases value
      · exact (List.forall₂_cons.1 hb).1
      · exact ha
    all_goals cases halike

theorem shape_head {e e' : Expr Origin} (h : Renamed names ⟨.expr, e⟩ ⟨.expr, e'⟩) :
    e'.shape.head = e.shape.head.rename names := by
  have hhead := h.head
  simp only [Node.head, substitute, Node.mk.injEq, heq_eq_eq, true_and, Expr.mk.injEq] at hhead
  exact hhead

theorem isMemberReference_eq {e e' : Expr Origin} (h : Renamed names ⟨.expr, e⟩ ⟨.expr, e'⟩) :
    Fold.isMemberReference e' = Fold.isMemberReference e := by
  have hsubstitute (s : ExprShape Unit) : Fold.isMemberReference ⟨(), s.rename names⟩ =
      Fold.isMemberReference ⟨(), s⟩ := by
    cases s <;> rfl
  rw [← Fold.isMemberReference_head, h.shape_head, hsubstitute, Fold.isMemberReference_head]

/-- A guard is put around the callee of a renamed call where it is put in the call. -/
theorem guardCallee {e e' z z' : Expr Origin} (he : Renamed names ⟨.expr, e⟩ ⟨.expr, e'⟩)
    (hz : Renamed names ⟨.expr, z⟩ ⟨.expr, z'⟩) (ha : Alike ⟨.expr, e⟩ ⟨.expr, z⟩) :
    Renamed names ⟨.expr, Fold.guardCallee e z⟩ ⟨.expr, Fold.guardCallee e' z'⟩ := by
  by_cases hcall : ∃ c es, e.shape = .call c es
  · obtain ⟨o, s⟩ := e
    obtain ⟨c, es, rfl⟩ := hcall
    obtain ⟨p, d, ds, rfl⟩ := Fold.exists_call_of_alike ha
    obtain ⟨o', c', es', rfl⟩ := Fold.exists_call_of_alike (he.alike rfl)
    obtain ⟨p', d', ds', rfl⟩ := Fold.exists_call_of_alike (hz.alike rfl)
    obtain ⟨hc, -⟩ := List.forall₂_cons.1 he.parts
    obtain ⟨hd, hds⟩ := List.forall₂_cons.1 hz.parts
    rw [Fold.guardCallee_call, Fold.guardCallee_call, hc.isMemberReference_eq,
      hd.isMemberReference_eq]
    split
    · have hcomma : Renamed names
          ⟨.expr, ⟨.made o 1, .comma ⟨.made o 2, [⟨.made o 3, .constant (.number 0)⟩, d]⟩⟩⟩
          ⟨.expr, ⟨.made o' 1, .comma ⟨.made o' 2, [⟨.made o' 3, .constant (.number 0)⟩, d']⟩⟩⟩ :=
        .of_parts rfl (.cons (.of_parts rfl (.cons (.constant _ _ _) (.cons hd .nil))) .nil)
      exact .of_parts rfl (.cons hcomma hds)
    · exact .of_parts rfl (.cons hd hds)
  · have hcall' : ∀ c es, e'.shape ≠ .call c es := by
      intro c es hs'
      have hhead := he.shape_head
      rw [hs'] at hhead
      cases hs : e.shape <;> rw [hs] at hhead
      case call c es => exact hcall ⟨c, es, hs⟩
      all_goals exact absurd hhead nofun
    rw [Fold.guardCallee_of_ne_call (by simpa using hcall), Fold.guardCallee_of_ne_call hcall']
    exact hz

theorem declare (o o' : Origin) (xs : List String) :
    Renamed names ⟨.stmt, Fold.declare o xs⟩ ⟨.stmt, Fold.declare o' (xs.map names.apply)⟩ := by
  refine .of_parts rfl (.cons (.of_parts rfl ?_) .nil)
  rw [Node.parts, Node.parts, List.forall₂_map_left_iff, List.forall₂_map_right_iff,
    List.forall₂_iff_get]
  refine ⟨by simp, fun i hi hi' => ?_⟩
  simp only [List.get_eq_getElem, List.getElem_mapIdx, List.getElem_map]
  exact .of_parts rfl .nil

theorem statements {b b' : Block Origin} (h : Renamed names ⟨.block, b⟩ ⟨.block, b'⟩) :
    List.Forall₂ (Renamed names) (b.statements.items.map (Node.mk .stmt))
      (b'.statements.items.map (Node.mk .stmt)) :=
  (List.forall₂_cons.1 h.parts).1.parts

/-- What is left of a renamed branch that does not run is renamed, if none of the names that it
binds become one. -/
theorem selectBranch {occurring : List String} (hnames : names.Separates occurring)
    {o o' : Origin} {live live' dead dead' : Option (Block Origin)}
    (hlive : List.Forall₂ (Renamed names) (ofOption .block live) (ofOption .block live'))
    (hdead : List.Forall₂ (Renamed names) (ofOption .block dead) (ofOption .block dead'))
    (hvars : Fold.branchVars dead ⊆ occurring) {y : Stmt Origin}
    (hy : Fold.selectBranch o live dead = some y) :
    ∃ y', Fold.selectBranch o' live' dead' = some y' ∧ Renamed names ⟨.stmt, y⟩ ⟨.stmt, y'⟩ := by
  have hfunction := (Fold.selectBranch_cases hy).1
  have hfunction' : Block.declaresFunction? dead' = false := by
    have hfunctions : Fold.branchFunctions dead' = (Fold.branchFunctions dead).map names.apply :=
      flatMap_eq_map hdead fun _ _ _ h => h.functions_eq
    rw [Fold.declaresFunction?_eq_false_iff] at hfunction ⊢
    rw [hfunctions, hfunction, List.map_nil]
  have hdeclared : (Block.varNames? dead').eraseDups =
      (Block.varNames? dead).eraseDups.map names.apply := by
    have hvars' : Fold.branchVars dead' = (Fold.branchVars dead).map names.apply :=
      flatMap_eq_map hdead fun _ _ _ h => h.vars_eq
    rw [Fold.varNames?_eq, Fold.varNames?_eq, hvars', Names.eraseDups_map hnames hvars]
  unfold Fold.selectBranch at hy ⊢
  rw [hfunction] at hy
  rw [hfunction', hdeclared]
  generalize (Block.varNames? dead).eraseDups = xs at hy ⊢
  cases live <;> cases live' <;> cases hlive
  case none.none =>
    cases xs <;> obtain rfl := Option.some.inj hy
    · exact ⟨_, rfl, .of_parts rfl .nil⟩
    · exact ⟨_, rfl, .declare o o' _⟩
  case some.some b b' hb _ =>
    cases xs <;> obtain rfl := Option.some.inj hy
    · exact ⟨_, rfl, hb.block⟩
    · rename_i x xs
      have hitems : List.Forall₂ (Renamed names)
          ((b.statements.items ++ [Fold.declare o (x :: xs)]).map (Node.mk .stmt))
          ((b'.statements.items ++ [Fold.declare o' ((x :: xs).map names.apply)]).map
            (Node.mk .stmt)) := by
        rw [List.map_append, List.map_append]
        exact List.rel_append hb.statements (.cons (.declare o o' (x :: xs)) .nil)
      exact ⟨_, rfl, .of_parts rfl (.cons (.of_parts rfl hitems) .nil)⟩

theorem branch? {occurring : List String} (hnames : names.Separates occurring)
    {z z' y : Stmt Origin} (h : Renamed names ⟨.stmt, z⟩ ⟨.stmt, z'⟩)
    (hvars : vars ⟨.stmt, z⟩ ⊆ occurring) (hy : Fold.branch? z = some y) :
    ∃ y', Fold.branch? z' = some y' ∧ Renamed names ⟨.stmt, y⟩ ⟨.stmt, y'⟩ := by
  obtain ⟨o, test, value, t, e, live, dead, rfl, hv, hb, hy⟩ := Fold.branch?_cases hy
  obtain ⟨o', test', t', e', rfl⟩ := Fold.exists_ifElse_of_alike (h.alike rfl)
  obtain ⟨htest, hbranches⟩ := List.forall₂_cons.1 h.parts
  obtain ⟨ht, he⟩ := List.forall₂_cons.1 hbranches
  have hv' : Fold.asBool? test' = some value := by
    rw [Fold.asBool?_eq_some_iff] at hv ⊢
    rw [htest.asConstant?_eq, hv]
  rw [(Fold.ifElse_bindings o test t e).1] at hvars
  obtain ⟨hthen, helse⟩ := List.append_subset.1 hvars
  have ht : List.Forall₂ (Renamed names) (ofOption .block (some t)) (ofOption .block (some t')) :=
    .cons ht .nil
  rw [Fold.branch?_of_test hv']
  cases value <;> obtain ⟨rfl, rfl⟩ := Prod.mk.inj hb
  · exact selectBranch hnames he ht hthen hy
  · exact selectBranch hnames ht he helse hy

end Rename.Renamed

section Folded

variable {occurring : List String} (hnames : names.Separates occurring)

include hnames

/-- Folding answers renamed objects by renamed ones and counts the same, once it does for their
parts. -/
theorem fold_visit_renamed {k : Kind} {x x' : Object Origin k}
    {walk walk' : StateM Nat (Object Origin k)} {s : Nat} (hx : Renamed names ⟨k, x⟩ ⟨k, x'⟩)
    (hz : Renamed names ⟨k, (walk s).1⟩ ⟨k, (walk' s).1⟩) (hs : (walk s).2 = (walk' s).2)
    (ha : Alike ⟨k, x⟩ ⟨k, (walk s).1⟩) (hvars : vars ⟨k, (walk s).1⟩ ⊆ occurring) :
    Renamed names ⟨k, (Fold.transform.visit k x walk s).1⟩
        ⟨k, (Fold.transform.visit k x' walk' s).1⟩ ∧
      (Fold.transform.visit k x walk s).2 = (Fold.transform.visit k x' walk' s).2 := by
  rcases hw : walk s with ⟨z, t⟩
  rcases hw' : walk' s with ⟨z', t'⟩
  rw [hw] at hz hs ha hvars
  rw [hw'] at hz hs
  obtain rfl : t = t' := hs
  have hfoldable := hz.foldable_iff
  cases k
  case expr =>
    simp only [Fold.transform, bind, StateT.bind, hw, hw']
    cases hv : Fold.value? z with
    | some v =>
      obtain ⟨v', hv', hvv⟩ := hz.value? hv
      rw [hv']
      exact ⟨hvv, rfl⟩
    | none =>
      have hv' : Fold.value? z' = none := by simpa [Fold.Foldable, hv] using hfoldable
      rw [hv']
      exact ⟨hx.guardCallee hz ha, rfl⟩
  case stmt =>
    simp only [Fold.transform, bind, StateT.bind, hw, hw']
    cases hy : Fold.branch? z with
    | some y =>
      obtain ⟨y', hy', hyy⟩ := hz.branch? hnames hvars hy
      rw [hy']
      exact ⟨hyy, rfl⟩
    | none =>
      have hy' : Fold.branch? z' = none := by simpa [Fold.Foldable, hy] using hfoldable
      rw [hy']
      exact ⟨hz, rfl⟩
  all_goals
    simp only [Fold.transform, hw, hw']
    exact ⟨hz, trivial⟩

/-- An object that is visited is folded to the renamed version of what its parts are folded to, once
they are. -/
theorem fold_renamed_of_parts {n m : Node Origin} (hn : Separate n) (hm : Separate m)
    (hall : All (fun c => ∀ x ∈ c.names, x ∈ occurring) n) (h : Renamed names n m)
    (hvisits : Fold.transform.Visits n) (hvisits' : Fold.transform.Visits m) (s : Nat)
    (hparts : ∀ c ∈ n.parts, ∀ c' ∈ m.parts, Renamed names c c' → ∀ s,
      Renamed names (Fold.transform.node c s).1 (Fold.transform.node c' s).1 ∧
        (Fold.transform.node c s).2 = (Fold.transform.node c' s).2) :
    Renamed names (Fold.transform.node n s).1 (Fold.transform.node m s).1 ∧
      (Fold.transform.node n s).2 = (Fold.transform.node m s).2 := by
  obtain ⟨k, x⟩ := n
  obtain ⟨k', x'⟩ := m
  obtain rfl : k' = k := h.kind_eq
  obtain ⟨walk, hw, hwalk⟩ := Fold.transform.exact_visits fold_isTame hn hvisits
  obtain ⟨walk', hw', hwalk'⟩ := Fold.transform.exact_visits fold_isTame hm hvisits'
  obtain ⟨ha, hns⟩ := hwalk s
  obtain ⟨ha', hns'⟩ := hwalk' s
  have hfolded : List.Forall₂ (Renamed names) (parts ⟨k', (walk s).1⟩)
      (parts ⟨k', (walk' s).1⟩) ∧ (walk s).2 = (walk' s).2 := by
    refine hns.forall₂_both (D := Eq) hns' h.parts rfl ?_
    rintro c hc c' hc' hcc s d t _ d' t' rfl hd hd'
    have hpart := hparts c hc c' hc' hcc s
    rwa [show Fold.transform.node c s = (d, t) from hd,
      show Fold.transform.node c' s = (d', t') from hd'] at hpart
  obtain ⟨hz, hs⟩ := hfolded
  have hz : Renamed names ⟨k', (walk s).1⟩ ⟨k', (walk' s).1⟩ :=
    .of_parts (by rw [← ha', h.head, ha]) hz
  -- the names in the folded parts are those of the parts
  have hvars : vars ⟨k', (walk s).1⟩ ⊆ occurring := by
    have hkept : List.Forall₂ (fun _ d => All (fun c => ∀ x ∈ c.names, x ∈ occurring) d)
        (parts ⟨k', x⟩) (parts ⟨k', (walk s).1⟩) := by
      refine hns.forall₂ fun c hc s d t hd => ?_
      have hkeeps := fold_keeps_names (hall.part hc) s
      rwa [show Fold.transform.node c s = (d, t) from hd] at hkeeps
    refine fun y hy => of_mem_vars (.intro (names_of_alike ha hall.self) fun d hd => ?_) hy
    obtain ⟨c, -, hd⟩ := exists_of_mem_right hkept hd
    exact hd
  have hvisit := fold_visit_renamed hnames h hz hs ha hvars
  rw [← hw, ← hw'] at hvisit
  exact hvisit

/-- Folding takes a tree and its renamed version to a tree and its renamed version, and counts the
same in both. -/
theorem fold_renamed {n m : Node Origin} (hn : Separate n) (hm : Separate m)
    (hall : All (fun c => ∀ x ∈ c.names, x ∈ occurring) n) (h : Renamed names n m) (s : Nat) :
    Renamed names (Fold.transform.node n s).1 (Fold.transform.node m s).1 ∧
      (Fold.transform.node n s).2 = (Fold.transform.node m s).2 := by
  induction n using Node.induction generalizing m s with
  | step n ih =>
    have hparts := fun c hc c' hc' hcc =>
      ih c hc (m := c') (hn.part hc) (hm.part hc') (hall.part hc) hcc
    by_cases hblock : ∃ b, n = ⟨.stmt, .block b⟩
    -- a statement that is a block is visited as the block, which has the same parts
    · obtain ⟨b, rfl⟩ := hblock
      obtain ⟨b', rfl⟩ : ∃ b', m = ⟨.stmt, .block b'⟩ := h.exists_block_iff.2 ⟨b, rfl⟩
      have hb := fold_renamed_of_parts hnames (separate_block.1 hn) (separate_block.1 hm)
        (.intro (List.forall_mem_nil _) fun _ => hall.part) (.of_parts rfl h.parts)
        (Fold.transform.object_visits ⟨.block, b⟩ fun _ => nofun)
        (Fold.transform.object_visits ⟨.block, b'⟩ fun _ => nofun) s hparts
      exact ⟨hb.1.block, hb.2⟩
    · have hblock' := not_exists.1 (mt h.exists_block_iff.1 hblock)
      exact fold_renamed_of_parts hnames hn hm hall h
        (Fold.transform.object_visits n (not_exists.1 hblock))
        (Fold.transform.object_visits m hblock') s hparts

end Folded

namespace Node

theorem occurrences_bare {ι : Type} (n : Node ι) : n.bare.occurrences = n.occurrences := by
  have hnames (m : Node ι) : m.bare.names = m.names := bare_own _ m
  rw [occurrences, postorder_bare, List.flatMap_map]
  exact List.flatMap_congr fun m _ => hnames m

theorem all_of_occurrences_subset {ι : Type} {n : Node ι} {occurring : List String}
    (h : n.occurrences ⊆ occurring) : All (fun c => ∀ x ∈ c.names, x ∈ occurring) n := by
  induction n using Node.induction with
  | step n ih =>
    exact .intro (fun x hx => h (names_subset_occurrences n hx)) fun c hc =>
      ih c hc (List.Subset.trans (occurrences_of_part hc) h)

end Node

namespace Rename

/-- Renaming before template collapse and after it give one tree and the same report. So do renaming
before folding and after it, where the table makes no two names of the tree one. -/
theorem rename_commutes (start : Nat) (k : Kind) (x : Object Unit k) (t t' : Tally) :
    let x₀ := (Object.number start k x).1
    let renamed := ((transform names).object k x₀ t).1
    (∀ u, let c := Collapse.transform.object k x₀ u
      let c' := Collapse.transform.object k renamed u
      Object.bare k ((transform names).object k c.1 t').1 = Object.bare k c'.1 ∧ c.2 = c'.2) ∧
      (names.Separates (Node.mk k x).occurrences → ∀ s,
        let f := Fold.transform.object k x₀ s
        let f' := Fold.transform.object k renamed s
        Object.bare k ((transform names).object k f.1 t').1 = Object.bare k f'.1 ∧
          f.2 = f'.2) := by
  intro x₀ renamed
  have hx : Separate ⟨k, x₀⟩ := number_separate start k x
  have hr : Separate ⟨k, renamed⟩ := (transform names).node_separate (rename_isTame names) hx t
  have hrenamed : Renamed names ⟨k, x₀⟩ ⟨k, renamed⟩ := rename_substituted hx t
  refine ⟨fun u => ?_, fun hnames s => ?_⟩
  · intro c c'
    have hc : Separate ⟨k, c.1⟩ := Collapse.transform.node_separate collapse_isTame hx u
    have hafter : Renamed names ⟨k, c.1⟩ ⟨k, ((transform names).object k c.1 t').1⟩ :=
      rename_substituted hc t'
    have hcollapsed : Collapse.Replaced (Node.bare ⟨k, x₀⟩) (Node.bare ⟨k, c.1⟩) :=
      Collapse.collapse_replaced hx u
    have hcollapsed' : Collapse.Replaced (Node.bare ⟨k, renamed⟩) (Node.bare ⟨k, c'.1⟩) :=
      Collapse.collapse_replaced hr u
    have heq := (hcollapsed.substituted hrenamed hafter).unique hcollapsed'
    refine ⟨eq_of_heq (Node.mk.inj heq).2, ?_⟩
    calc
      c.2 = Collapse.tally (Node.bare ⟨k, x₀⟩).postorder u := Collapse.collapse_tally ⟨k, x₀⟩ u
      _ = Collapse.tally (Node.bare ⟨k, renamed⟩).postorder u :=
        (Substituted.tally_eq hrenamed.postorder u).symm
      _ = c'.2 := (Collapse.collapse_tally ⟨k, renamed⟩ u).symm
  · intro f f'
    have hf : Separate ⟨k, f.1⟩ := Fold.transform.node_separate fold_isTame hx s
    have hafter : Renamed names ⟨k, f.1⟩ ⟨k, ((transform names).object k f.1 t').1⟩ :=
      rename_substituted hf t'
    have hall : All (fun c => ∀ y ∈ c.names, y ∈ (Node.mk k x).occurrences) ⟨k, x₀⟩ := by
      apply all_of_occurrences_subset
      rw [← occurrences_bare, show Node.bare ⟨k, x₀⟩ = ⟨k, x⟩ from bare_number_object start k x]
      exact List.Subset.refl _
    obtain ⟨hfolded, hcount⟩ := fold_renamed hnames hx hr hall hrenamed s
    have heq := hafter.unique hfolded
    exact ⟨eq_of_heq (Node.mk.inj heq).2, hcount⟩

/-- A branch that does not run and declares `a` and `b`. -/
def deadDeclarations : Program Unit :=
  ⟨(), [.node () (.ifElse ⟨(), .constant (.bool false)⟩
    ⟨(), ⟨(), [.node () (.vars ⟨(), [⟨(), "a", none⟩, ⟨(), "b", none⟩]⟩)]⟩⟩ none)]⟩

/-- The names that folding declares are renamed as those that it read. -/
theorem rename_commutes_swapped_names :
    let names : Names := [("a", "b"), ("b", "a")]
    let x₀ := (Object.number 0 .stmts deadDeclarations).1
    let f := Fold.transform.object .stmts x₀ 0
    names.Separates (Node.mk .stmts deadDeclarations).occurrences ∧
      Stmt.varNamesEach (Object.bare .stmts ((transform names).object .stmts f.1 ⟨0, #[]⟩).1).items =
        ["b", "a"] ∧ f.2 = 1 := by
  intro names x₀ f
  have hseparates : names.Separates (Node.mk .stmts deadDeclarations).occurrences := by
    have hoccurrences : (Node.mk .stmts deadDeclarations).occurrences = ["a", "b"] := by decide +kernel
    rw [hoccurrences]
    unfold Names.Separates
    decide
  obtain ⟨hprogram, hcount⟩ :=
    (rename_commutes 0 .stmts deadDeclarations ⟨0, #[]⟩ ⟨0, #[]⟩).2 hseparates 0
  refine ⟨hseparates, ?_, hcount.trans ?_⟩
  · rw [hprogram]
    decide +kernel
  · decide +kernel

end Rename

end ScriptTree
