import Mathlib.Data.Finset.Insert
import ScriptTree.Proofs.Agreement
import ScriptTree.Proofs.Hoisting
import ScriptTree.Proofs.Replacement

namespace ScriptTree

open Node Fold

variable {ι : Type} {r : Bool → Bool → Prop} {loose : Expr Origin → Bool}

/-- A form, and what the object that leaves it binds in the function around it. -/
structure Residue where
  form : Form
  vars : Finset String
  hoists : Bool

/-- The forms are the same but for their guards, which are related; the bindings are the same. -/
structure Residue.Matches (r : Bool → Bool → Prop) (s s' : Residue) : Prop where
  form : s.form.Matches r s'.form
  vars : s.vars = s'.vars
  hoists : s.hoists = s'.hoists

namespace Form

def constant (c : Constant) : Form := node ⟨.expr, ⟨(), .constant c⟩⟩ false []

theorem constant?_constant (c : Constant) : (constant c).constant? = some c := rfl

def bool? (f : Form) : Option Bool :=
  match f.constant? with
  | some (.bool value) => some value
  | _ => none

theorem bool?_constant (value : Bool) : (constant (.bool value)).bool? = some value := rfl

theorem bool?_eq_some_iff {f : Form} {value : Bool} :
    f.bool? = some value ↔ f.constant? = some (.bool value) := by
  unfold bool?
  cases f.constant? with
  | none => simp
  | some c => cases c <;> simp

/-- The names that are left of a branch that does not run. -/
def leftover (dead : List Residue) : List Form :=
  dead.flatMap fun s => if s.vars = ∅ then [] else [declares s.vars]

/-- What runs of an `if`, and what is left of its other branch. -/
def branch (live dead : List Residue) : Form :=
  match live with
  | b :: _ =>
    node ⟨.stmt, .block .blank⟩ false
      [node ⟨.stmts, .blank⟩ false (b.form.parts.flatMap parts ++ leftover dead)]
  | [] => (leftover dead).headD (node ⟨.stmt, .node () .empty⟩ false [])

def select? (live dead : List Residue) : Option Form :=
  if dead.any (·.hoists) then none else some (branch live dead)

/-- The form that an object is given up for, if it folds or collapses over the forms of its
parts. -/
def given? : Node Unit → List Residue → Option Form
  | ⟨.expr, ⟨_, .literal format _⟩⟩, args => do
    (args.flatMap (·.form.parts))[← Collapse.sole? format]?
  | ⟨.expr, ⟨_, .binary op _ _⟩⟩, [l, r] => do
    constant (← binary op (← l.form.constant?) (← r.form.constant?))
  | ⟨.expr, ⟨_, .unary op _⟩⟩, [x] => do constant (← unary op (← x.form.constant?))
  | ⟨.expr, ⟨_, .conditional ..⟩⟩, [c, t, f] => do
    return if ← c.form.bool? then t.form else f.form
  | ⟨.stmt, .node _ (.ifElse ..)⟩, c :: t :: e => do
    if ← c.form.bool? then select? [t] e else select? e [t]
  | _, _ => none

def settle (mark : Bool) (head : Node Unit) (parts : List Residue) : Form :=
  (given? head parts).getD (assemble mark head (parts.map (·.form)))

section Matches

variable {ss ss' : List Residue}

theorem Matches.bool?_eq {f f' : Form} (h : Matches r f f') : f.bool? = f'.bool? := by
  rw [bool?, bool?, h.constant?_eq]

theorem leftover_matches (h : List.Forall₂ (Residue.Matches r) ss ss') :
    leftover ss = leftover ss' := by
  induction h with
  | nil => rfl
  | cons hs _ ih =>
    rw [leftover, List.flatMap_cons, hs.vars]
    exact congrArg _ ih

theorem any_hoists_eq (h : List.Forall₂ (Residue.Matches r) ss ss') :
    ss.any (·.hoists) = ss'.any (·.hoists) := by
  induction h with
  | nil => rfl
  | cons hs _ ih => rw [List.any_cons, List.any_cons, hs.hoists, ih]

theorem parts_matches (h : List.Forall₂ (Residue.Matches r) ss ss') :
    List.Forall₂ (Matches r) (ss.flatMap (·.form.parts)) (ss'.flatMap (·.form.parts)) :=
  List.rel_flatMap h fun _ _ h => h.form.parts

theorem branch_matches (hr : ∀ g, r g g) {live live' dead dead' : List Residue}
    (hlive : List.Forall₂ (Residue.Matches r) live live')
    (hdead : List.Forall₂ (Residue.Matches r) dead dead') :
    Matches r (branch live dead) (branch live' dead') := by
  unfold branch
  rw [leftover_matches hdead]
  cases hlive with
  | nil => exact .refl hr _
  | cons hb _ =>
    have hitems := List.rel_flatMap hb.form.parts fun _ _ h => h.parts
    have hrest : List.Forall₂ (Matches r) (leftover dead') (leftover dead') :=
      List.forall₂_same.2 fun f _ => .refl hr f
    exact .node (hr _) (.cons (.node (hr _) (List.rel_append hitems hrest)) .nil)

theorem select?_matches (hr : ∀ g, r g g) {live live' dead dead' : List Residue}
    (hlive : List.Forall₂ (Residue.Matches r) live live')
    (hdead : List.Forall₂ (Residue.Matches r) dead dead') {f : Form}
    (hf : select? live dead = some f) :
    ∃ f', select? live' dead' = some f' ∧ Matches r f f' := by
  unfold select? at hf ⊢
  rw [any_hoists_eq hdead] at hf
  split at hf
  · exact absurd hf nofun
  · obtain rfl := Option.some.inj hf
    exact ⟨_, if_neg ‹_›, branch_matches hr hlive hdead⟩

/-- An object is given up for what another like it is. -/
theorem given?_matches (hr : ∀ g, r g g) {head : Node Unit}
    (h : List.Forall₂ (Residue.Matches r) ss ss') {f : Form} (hf : given? head ss = some f) :
    ∃ f', given? head ss' = some f' ∧ Matches r f f' := by
  unfold given? at hf
  split at hf
  · obtain ⟨i, hi, hf⟩ := Option.bind_eq_some_iff.1 hf
    obtain ⟨hn, -⟩ | ⟨g, f', hg, hf', hff⟩ := Collapse.forall₂_getElem? (parts_matches h) i
    · exact absurd (hn.symm.trans hf) nofun
    · obtain rfl := Option.some.inj (hg.symm.trans hf)
      refine ⟨f', ?_, hff⟩
      simp [given?, hi, hf']
  · obtain _ | ⟨hl, _ | ⟨hr', _ | _⟩⟩ := h
    refine ⟨f, ?_, .refl hr f⟩
    rw [given?, ← hl.form.constant?_eq, ← hr'.form.constant?_eq]
    exact hf
  · obtain _ | ⟨hx, _ | _⟩ := h
    refine ⟨f, ?_, .refl hr f⟩
    rw [given?, ← hx.form.constant?_eq]
    exact hf
  · obtain _ | ⟨hc, _ | ⟨ht, _ | ⟨he, _ | _⟩⟩⟩ := h
    obtain ⟨value, hv, hf⟩ := Option.bind_eq_some_iff.1 hf
    obtain rfl := Option.some.inj hf
    rw [hc.form.bool?_eq] at hv
    cases value
    · exact ⟨_, by simp [given?, hv], he.form⟩
    · exact ⟨_, by simp [given?, hv], ht.form⟩
  · obtain _ | ⟨hc, _ | ⟨ht, he⟩⟩ := h
    obtain ⟨value, hv, hf⟩ := Option.bind_eq_some_iff.1 hf
    rw [hc.form.bool?_eq] at hv
    cases value
    · obtain ⟨f', hf', hff⟩ := select?_matches hr he (.cons ht .nil) hf
      exact ⟨f', by simp [given?, hv, hf'], hff⟩
    · obtain ⟨f', hf', hff⟩ := select?_matches hr (.cons ht .nil) he hf
      exact ⟨f', by simp [given?, hv, hf'], hff⟩
  · exact absurd hf nofun

theorem given?_eq_none (hr : ∀ g, r g g) {head : Node Unit}
    (h : List.Forall₂ (Residue.Matches r) ss ss') (hn : given? head ss = none) :
    given? head ss' = none := by
  have hflip : List.Forall₂ (Residue.Matches fun g g' => r g' g) ss' ss :=
    List.Forall₂.flip (h.imp fun _ _ h => ⟨h.form.flip, h.vars.symm, h.hoists.symm⟩)
  by_contra hne
  obtain ⟨f', hf'⟩ := Option.ne_none_iff_exists'.1 hne
  obtain ⟨f, hf, -⟩ := given?_matches (r := fun g g' => r g' g) hr hflip hf'
  exact absurd (hn.symm.trans hf) nofun

theorem settle_matches (hr : ∀ g, r g g) {mark mark' : Bool} {head : Node Unit}
    (h : List.Forall₂ (Residue.Matches r) ss ss')
    (hcall : ∀ o c args, head = ⟨.expr, ⟨o, .call c args⟩⟩ → r mark mark')
    (hvars : ∀ o l s names, head = ⟨.stmt, .node o (.vars l)⟩ → ss = [s] →
      s.form.parts.mapM name? = some names → mark = mark') :
    Matches r (settle mark head ss) (settle mark' head ss') := by
  unfold settle
  cases hg : given? head ss with
  | some f =>
    obtain ⟨f', hf', hff⟩ := given?_matches hr h hg
    rw [hf']
    exact hff
  | none =>
    rw [given?_eq_none hr h hg]
    have hforms : List.Forall₂ (Matches r) (ss.map (·.form)) (ss'.map (·.form)) := by
      rw [List.forall₂_map_left_iff, List.forall₂_map_right_iff]
      exact h.imp fun _ _ h => h.form
    refine .assemble hr hforms hcall fun o l d names hhead hd hnames => ?_
    obtain ⟨s, rfl, rfl⟩ := List.map_eq_singleton_iff.1 hd
    exact hvars o l s names hhead rfl hnames

end Matches

end Form

namespace Node

/-- The form that is left of a tree once nothing of it is left to fold and to collapse, where a call
is to guard the callees that are loose. -/
def settled (loose : Expr Origin → Bool) (n : Node Origin) : Form :=
  .settle (n.mark loose) n.head
    (n.parts.attach.map fun c => ⟨settled loose c.1, c.1.vars.toFinset, c.1.hoistsFunction⟩)
termination_by n.size
decreasing_by exact size_lt_of_mem_parts c.2

def residue (loose : Expr Origin → Bool) (n : Node Origin) : Residue :=
  ⟨n.settled loose, n.vars.toFinset, n.hoistsFunction⟩

theorem settled_eq (n : Node Origin) :
    n.settled loose = .settle (n.mark loose) n.head (n.parts.map (residue loose)) := by
  rw [settled]
  simp only [List.map_subtype, List.unattach_attach]
  rfl

theorem residue_expr (e : Expr Origin) :
    residue loose ⟨.expr, e⟩ = ⟨settled loose ⟨.expr, e⟩, ∅, false⟩ := by
  rw [residue, (expr_bindings e).1]
  rfl

theorem settled_of_given? {n : Node Origin} {f : Form}
    (h : Form.given? n.head (n.parts.map (residue loose)) = some f) : n.settled loose = f := by
  rw [settled_eq, Form.settle, h]
  rfl

theorem settled_of_given?_eq_none {n : Node Origin}
    (h : Form.given? n.head (n.parts.map (residue loose)) = none) :
    n.settled loose = .assemble (n.mark loose) n.head (n.parts.map (settled loose)) := by
  rw [settled_eq, Form.settle, h, List.map_map]
  rfl

theorem settled_constant (o : Origin) (c : Constant) :
    settled loose ⟨.expr, ⟨o, .constant c⟩⟩ = .constant c :=
  settled_of_given?_eq_none rfl

/-- The callees of a tree tell what is left of it. -/
theorem residue_congr {loose' : Expr Origin → Bool} {P : Node Origin → Prop} {n : Node Origin}
    (hloose : ∀ c, P ⟨.expr, c⟩ → loose c = loose' c) (hn : All P n) :
    residue loose n = residue loose' n := by
  induction n using Node.induction with
  | step n ih =>
    have hmark : n.mark loose = n.mark loose' := by
      unfold mark
      split
      · exact hloose _ (hn.part List.mem_cons_self).self
      · rfl
      · rfl
    have hparts : n.parts.map (residue loose) = n.parts.map (residue loose') :=
      List.map_congr_left fun c hc => ih c hc (hn.part hc)
    rw [residue, residue, settled_eq, settled_eq n, hmark, hparts]

theorem vars_of_alike {κ : Type} {o : ι} {l : NodeList ι (Declaration ι)} {n : Node κ}
    (h : Alike ⟨.stmt, .node o (.vars l)⟩ n) : ∃ o l, n = ⟨.stmt, .node o (.vars l)⟩ := by
  obtain ⟨k, x⟩ := n
  obtain rfl : k = .stmt := h.kind_eq.symm
  rcases x with _ | ⟨o, s⟩
  · exact absurd h nofun
  · cases s
    case vars l => exact ⟨o, l, rfl⟩
    all_goals exact absurd h nofun

theorem vars_local : Local fun n : Node Origin => n.vars.toFinset := by
  intro n z ha hp
  have hfun : n.isFunction = z.isFunction := ha.own_eq _
  have hown : n.ownVars = z.ownVars := ha.own_eq _
  have hmem (m : Node Origin) (x : String) : x ∈ m.parts.flatMap vars ↔
      ∃ s ∈ m.parts.map (fun c => c.vars.toFinset), x ∈ s := by simp
  ext x
  rw [List.mem_toFinset, List.mem_toFinset, vars_eq, vars_eq z, hown, hfun]
  split
  · rfl
  · rw [List.mem_append, List.mem_append, hmem, hmem, hp]

/-- What is left of an object is left of one around what its parts become, if a call is loose where
the other is, and declarations without values are kept. -/
theorem residue_of_parts (hr : ∀ g, r g g) {n z : Node Origin} (ha : n.Alike z)
    (hp : List.Forall₂ (fun c c' => (residue loose c).Matches r (residue loose c')) n.parts z.parts)
    (hcall : ∀ o c args o' c' args', n = ⟨.expr, ⟨o, .call c args⟩⟩ →
      z = ⟨.expr, ⟨o', .call c' args'⟩⟩ → r (loose c) (loose c'))
    (hvars : ∀ s names, n = ⟨.stmt, s⟩ → Declares names s → z = n) :
    (residue loose n).Matches r (residue loose z) := by
  have hresidues : List.Forall₂ (Residue.Matches r) (n.parts.map (residue loose))
      (z.parts.map (residue loose)) := by
    rw [List.forall₂_map_left_iff, List.forall₂_map_right_iff]
    exact hp
  have hparts {α : Type} {f : Residue → α} (hf : ∀ s s' : Residue, s.Matches r s' → f s = f s') :
      n.parts.map (fun c => f (residue loose c)) = z.parts.map fun c => f (residue loose c) :=
    map_eq_map_iff_forall₂.2 (hp.imp fun _ _ h => hf _ _ h)
  refine ⟨?_, vars_local n z ha (hparts fun _ _ h => h.vars),
    hoistsFunction_local n z ha (hparts fun _ _ h => h.hoists)⟩
  show Form.Matches r (n.settled loose) (z.settled loose)
  rw [settled_eq, settled_eq z, ← ha]
  refine Form.settle_matches hr hresidues ?_ ?_
  · intro o c args hhead
    have hn : Alike ⟨.expr, ⟨o, .call c args⟩⟩ n := hhead ▸ head_head n
    obtain ⟨o, c, args, rfl⟩ := call_of_alike hn
    obtain ⟨o', c', args', rfl⟩ := call_of_alike ha
    exact hcall _ _ _ _ _ _ rfl rfl
  · intro o l s names hhead hs hnames
    have hn : Alike ⟨.stmt, .node o (.vars l)⟩ n := hhead ▸ head_head n
    obtain ⟨o, l, rfl⟩ := vars_of_alike hn
    obtain rfl := (List.cons.inj hs).1
    have hlist : settled loose ⟨.declarations, l⟩ = .node _ false _ := settled_of_given?_eq_none rfl
    have hdeclaration (d : Declaration Origin) :
        ∃ g fs, settled loose ⟨.declaration, d⟩ = .node _ g fs :=
      ⟨_, _, settled_of_given?_eq_none rfl⟩
    rw [residue, hlist, Form.parts, mapM_name?_eq_some_iff (o := o) hdeclaration] at hnames
    rw [hvars _ names rfl hnames]

theorem SameBindings.residue {n n' : Node Origin} (h : n.SameBindings n') :
    n.residue loose = ⟨n.settled loose, (n'.residue loose).vars, (n'.residue loose).hoists⟩ := by
  have hvars : n.vars.toFinset = n'.vars.toFinset := by
    ext x
    rw [List.mem_toFinset, List.mem_toFinset, h.vars]
  have hhoists : n.hoistsFunction = n'.hoistsFunction := by
    rw [← Bool.not_inj_iff, Bool.eq_iff_iff, Bool.not_eq_true', Bool.not_eq_true',
      ← functions_eq_nil_iff, ← functions_eq_nil_iff, h.functions]
  rw [Node.residue, hvars, hhoists]
  rfl

end Node

namespace Fold

theorem settled_stmts (l : Program Origin) : settled loose ⟨.stmts, l⟩ =
    .node ⟨.stmts, .blank⟩ false (l.items.map fun s => settled loose ⟨.stmt, s⟩) := by
  have hlist : settled loose ⟨.stmts, l⟩ = .node ⟨.stmts, .blank⟩ false _ :=
    settled_of_given?_eq_none rfl
  rw [hlist, parts, List.map_map]
  rfl

theorem settled_block (b : Block Origin) : settled loose ⟨.block, b⟩ =
    .node ⟨.block, .blank⟩ false [settled loose ⟨.stmts, b.statements⟩] :=
  settled_of_given?_eq_none rfl

theorem settled_blockStmt (b : Block Origin) : settled loose ⟨.stmt, .block b⟩ =
    .node ⟨.stmt, .block .blank⟩ false [settled loose ⟨.stmts, b.statements⟩] :=
  settled_of_given?_eq_none rfl

theorem residue_block {b b' : Block Origin}
    (h : (residue loose ⟨.block, b⟩).Matches r (residue loose ⟨.block, b'⟩)) :
    (residue loose ⟨.stmt, .block b⟩).Matches r (residue loose ⟨.stmt, .block b'⟩) := by
  have hsettled : Form.Matches r (settled loose ⟨.block, b⟩) (settled loose ⟨.block, b'⟩) := h.form
  rw [settled_block, settled_block, Form.Matches.node_iff] at hsettled
  rw [(block_sameBindings b).residue, (block_sameBindings b').residue, settled_blockStmt,
    settled_blockStmt]
  exact ⟨.node hsettled.2.1 hsettled.2.2, h.vars, h.hoists⟩

theorem settled_value? {z v : Expr Origin} (h : value? z = some v) :
    settled loose ⟨.expr, z⟩ = settled loose ⟨.expr, v⟩ := by
  cases value?_valued h with
  | binary hv | unary hv =>
    rw [settled_constant]
    apply settled_of_given?
    simp [head, ExprShape.head, parts, ExprShape.parts, Form.given?, residue, settled_constant,
      Form.constant?_constant, hv]
  | @choice _ _ value =>
    apply settled_of_given?
    cases value <;> simp [head, ExprShape.head, parts, ExprShape.parts, Form.given?, residue,
      settled_constant, Form.bool?_constant]

theorem settled_of_isMemberReference {e : Expr Origin} (h : isMemberReference e = true) :
    settled loose ⟨.expr, e⟩ =
      .node (head ⟨.expr, e⟩) false ((parts ⟨.expr, e⟩).map (settled loose)) := by
  obtain ⟨o, s⟩ := e
  cases s
  case member t n => exact settled_of_given?_eq_none rfl
  case binary op l r =>
    obtain rfl : op = .index := by simpa [isMemberReference] using h
    apply settled_of_given?_eq_none
    simp [head, ExprShape.head, parts, ExprShape.parts, Form.given?, binary_index]
  all_goals exact absurd h Bool.false_ne_true

theorem isMemberReference_settled {e : Expr Origin} (h : isMemberReference e = true) :
    (settled loose ⟨.expr, e⟩).isMemberReference = true := by
  rw [settled_of_isMemberReference h]
  exact (isMemberReference_head e).trans h

theorem settled_call (o : Origin) (c : Expr Origin) (args : NodeList Origin (Expr Origin)) :
    settled loose ⟨.expr, ⟨o, .call c args⟩⟩ = .call (loose c) ⟨.expr, ⟨(), .call .blank .blank⟩⟩
      (settled loose ⟨.expr, c⟩) [settled loose ⟨.exprs, args⟩] :=
  settled_of_given?_eq_none rfl

/-- A guard is one in the form. -/
theorem settled_of_guards {o : Origin} {g c : Expr Origin} {args : NodeList Origin (Expr Origin)}
    (h : Guards g c) : settled loose ⟨.expr, ⟨o, .call g args⟩⟩ =
      .node ⟨.expr, ⟨(), .call .blank .blank⟩⟩ true
        [settled loose ⟨.expr, c⟩, settled loose ⟨.exprs, args⟩] := by
  have hguarded : (settled loose ⟨.expr, g⟩).guarded? = some (settled loose ⟨.expr, c⟩) := by
    cases h with
    | @comma o o₁ o₂ _ hm =>
      have hlist : settled loose ⟨.exprs, ⟨o₁, [⟨o₂, .constant (.number 0)⟩, c]⟩⟩ =
          .node ⟨.exprs, .blank⟩ false [.constant (.number 0), settled loose ⟨.expr, c⟩] := by
        rw [← settled_constant o₂]
        exact settled_of_given?_eq_none rfl
      have hcomma : settled loose
            ⟨.expr, ⟨o, .comma ⟨o₁, [⟨o₂, .constant (.number 0)⟩, c]⟩⟩⟩ =
          .node ⟨.expr, ⟨(), .comma .blank⟩⟩ false [settled loose ⟨.exprs, _⟩] :=
        settled_of_given?_eq_none rfl
      rw [hcomma, hlist]
      exact if_pos ⟨rfl, isMemberReference_settled hm⟩
  rw [settled_call, Form.call]
  simp only [hguarded]

/-- A bare callee that comes to a member reference is guarded if it is loose. -/
theorem settled_of_loose {o : Origin} {c : Expr Origin} {args : NodeList Origin (Expr Origin)}
    (h : (settled loose ⟨.expr, c⟩).isMemberReference = true) :
    settled loose ⟨.expr, ⟨o, .call c args⟩⟩ =
      .node ⟨.expr, ⟨(), .call .blank .blank⟩⟩ (loose c)
        [settled loose ⟨.expr, c⟩, settled loose ⟨.exprs, args⟩] := by
  have hguarded : (settled loose ⟨.expr, c⟩).guarded? = none := by
    by_contra hne
    obtain ⟨f, hf⟩ := Option.ne_none_iff_exists'.1 hne
    obtain ⟨_, _, _, _, _, _, hcomma, -, -⟩ := Form.guarded?_eq_some_iff.1 hf
    rw [hcomma] at h
    exact absurd h Bool.false_ne_true
  rw [settled_call, Form.call]
  simp only [hguarded, h, Bool.and_true]

theorem Declares.unique {names names' : List String} {s : Stmt ι} (h : Declares names s)
    (h' : Declares names' s) : names = names' := by
  cases h with
  | statement hn _ =>
    cases h' with
    | statement hn' _ => exact hn.symm.trans hn'

theorem settled_declare (o : Origin) {names : List String} (hn : names.Nodup) :
    settled loose ⟨.stmt, declare o names⟩ = .declares names.toFinset := by
  let l : NodeList Origin (Declaration Origin) :=
    ⟨.made o 3, names.mapIdx fun i n => ⟨.made o (i + 4), n, none⟩⟩
  have hlist : settled loose ⟨.declarations, l⟩ = .node _ false _ := settled_of_given?_eq_none rfl
  have hdeclaration (d : Declaration Origin) :
      ∃ g fs, settled loose ⟨.declaration, d⟩ = .node _ g fs :=
    ⟨_, _, settled_of_given?_eq_none rfl⟩
  have hvars : settled loose ⟨.stmt, declare o names⟩ =
      .assemble true (head ⟨.stmt, declare o names⟩) [settled loose ⟨.declarations, l⟩] :=
    settled_of_given?_eq_none rfl
  have hd : Declares names (.node (.made o 2) (.vars l)) := declare_declares o names
  rw [hvars]
  obtain ⟨names', -, h', -, hs⟩ | ⟨hnone, -⟩ :=
    assemble_vars (o := .made o 2) true hlist hdeclaration
  · rw [hd.unique h']
    exact hs
  · exact absurd hn (hnone names rfl hd)

/-- What is left of a branch that does not run is the form of what declares its names. -/
theorem leftover_eq (o : Origin) (dead : Option (Block Origin)) :
    Form.leftover ((ofOption .block dead).map (residue loose)) =
      if (Block.varNames? dead).eraseDups = [] then []
      else [settled loose ⟨.stmt, declare o (Block.varNames? dead).eraseDups⟩] := by
  rw [settled_declare o (nodup_eraseDups _), varNames?_eq]
  cases dead with
  | none => rfl
  | some b =>
    have hvars : branchVars (some b) = vars ⟨.block, b⟩ := (branch_bindings b).1
    have hempty : (vars ⟨.block, b⟩).eraseDups = [] ↔ vars ⟨.block, b⟩ = [] := by
      cases vars ⟨.block, b⟩ <;> simp [List.eraseDups_cons]
    have hnames : (vars ⟨.block, b⟩).eraseDups.toFinset = (vars ⟨.block, b⟩).toFinset := by
      ext x
      simp
    simp [Form.leftover, ofOption, residue, hvars, hempty, hnames, List.toFinset_eq_empty_iff]

theorem settled_selected {o : Origin} {live dead : Option (Block Origin)} {y : Stmt Origin}
    (h : Selected o live dead y) : settled loose ⟨.stmt, y⟩ =
      .branch ((ofOption .block live).map (residue loose))
        ((ofOption .block dead).map (residue loose)) := by
  have hsome (b : Block Origin) (ds : List Residue) :
      Form.branch ((ofOption .block (some b)).map (residue loose)) ds =
        .node ⟨.stmt, .block .blank⟩ false [.node ⟨.stmts, .blank⟩ false
          (b.statements.items.map (fun s => settled loose ⟨.stmt, s⟩) ++ Form.leftover ds)] := by
    have hlive : (settled loose ⟨.block, b⟩).parts.flatMap Form.parts =
        b.statements.items.map fun s => settled loose ⟨.stmt, s⟩ := by
      rw [settled_block, settled_stmts, Form.parts, List.flatMap_singleton, Form.parts]
    rw [← hlive]
    rfl
  have hnone (ds : List Residue) : Form.branch ((ofOption .block none).map (residue loose)) ds =
      (Form.leftover ds).headD (.node ⟨.stmt, .node () .empty⟩ false []) := rfl
  have hleft := @leftover_eq loose o dead
  cases h with
  | live hnames =>
    rw [if_pos hnames] at hleft
    rw [hsome, hleft, List.append_nil, settled_blockStmt, settled_stmts]
  | extended hnames =>
    rw [if_neg hnames] at hleft
    rw [hsome, hleft, settled_blockStmt, settled_stmts, List.map_append]
    rfl
  | empty hnames =>
    rw [if_pos hnames] at hleft
    rw [hnone, hleft]
    exact settled_of_given?_eq_none rfl
  | declaration hnames =>
    rw [if_neg hnames] at hleft
    rw [hnone, hleft]
    rfl

theorem settled_branch? {z y : Stmt Origin} (h : branch? z = some y) :
    settled loose ⟨.stmt, z⟩ = settled loose ⟨.stmt, y⟩ := by
  obtain ⟨o, test, value, t, e, live, dead, rfl, hv, hb, h⟩ := branch?_cases h
  obtain ⟨hfunction, hselected⟩ := selectBranch_cases h
  rw [settled_selected hselected, eq_bool hv]
  have hhoists : ((ofOption .block dead).map (residue loose)).any (·.hoists) = false := by
    cases dead with
    | none => rfl
    | some b =>
      simpa [ofOption, residue, hoistsFunction, Block.declaresFunction?] using hfunction
  apply settled_of_given?
  have hparts : (parts ⟨.stmt, .node o (.ifElse ⟨test.origin, .constant (.bool value)⟩ t e)⟩).map
      (residue loose) = residue loose ⟨.expr, ⟨test.origin, .constant (.bool value)⟩⟩ ::
        residue loose ⟨.block, t⟩ :: (ofOption .block e).map (residue loose) := rfl
  rw [hparts]
  cases value <;> obtain ⟨rfl, rfl⟩ := Prod.mk.inj hb
  all_goals
    simp only [Form.given?, head, StmtShape.head, residue_expr, settled_constant,
      Form.bool?_constant]
    exact if_neg fun h => Bool.false_ne_true (hhoists.symm.trans h)

/-- A guard is put where the form has one, if the callee was loose. -/
theorem residue_guardCallee (hr : ∀ g, r g g) {e z : Expr Origin}
    (ha : Alike ⟨.expr, e⟩ ⟨.expr, z⟩)
    (hp : List.Forall₂ (fun c c' => (residue loose c).Matches r (residue loose c'))
      (parts ⟨.expr, e⟩) (parts ⟨.expr, z⟩))
    (hloose : ∀ o c args o' c' args', e = ⟨o, .call c args⟩ → z = ⟨o', .call c' args'⟩ →
      r (loose c) (isMemberReference c' && !isMemberReference c || loose c')) :
    (residue loose ⟨.expr, e⟩).Matches r (residue loose ⟨.expr, guardCallee e z⟩) := by
  by_cases hcall : ∃ o c args, e = ⟨o, .call c args⟩
  · obtain ⟨o, c, args, rfl⟩ := hcall
    obtain ⟨o', c', args', rfl⟩ := exists_call_of_alike ha
    have hl := hloose _ _ _ _ _ _ rfl rfl
    rw [guardCallee_call]
    split
    · rename_i hguard
      obtain ⟨hnew, -⟩ := Bool.and_eq_true_iff.1 hguard
      rw [hguard, Bool.true_or] at hl
      obtain _ | ⟨hc, _ | ⟨hargs, _⟩⟩ := hp
      have hm : (settled loose ⟨.expr, c⟩).isMemberReference = true :=
        hc.form.isMemberReference_eq.trans (isMemberReference_settled hnew)
      rw [residue_expr, residue_expr, settled_of_loose hm, settled_of_guards (.comma hnew)]
      exact ⟨.node hl (.cons hc.form (.cons hargs.form .nil)), rfl, rfl⟩
    · rename_i hguard
      rw [Bool.eq_false_iff.2 hguard, Bool.false_or] at hl
      refine residue_of_parts hr ha hp ?_ nofun
      rintro _ _ _ _ _ _ ⟨⟩ ⟨⟩
      exact hl
  · rw [guardCallee_of_ne_call]
    · refine residue_of_parts hr ha hp ?_ nofun
      rintro _ _ _ _ _ _ ⟨⟩ _
      exact absurd ⟨_, _, _, rfl⟩ hcall
    · rintro c args hs
      obtain ⟨o, s⟩ := e
      exact hcall ⟨o, c, args, congrArg (Expr.mk o) hs⟩

theorem fold_of_declares {names : List String} {s : Stmt Origin} (h : Declares names s)
    (folded : Nat) : (transform.stmt s folded).1 = s := by
  have hnormal : All (¬Foldable ·) ⟨.stmt, s⟩ :=
    all_of_declares not_foldable_admits.vars not_foldable_admits.declarations h fun _ _ _ => nofun
  have hnode : transform.node ⟨.stmt, s⟩ folded = (⟨.stmt, s⟩, folded) := fold_of_normal hnormal _
  exact eq_of_heq (Node.mk.inj (congrArg Prod.fst hnode)).2

/-- An expression that folds leaves what its value does. -/
theorem residue_value? (hr : ∀ g, r g g) {e z v : Expr Origin} (ha : Alike ⟨.expr, e⟩ ⟨.expr, z⟩)
    (hp : List.Forall₂ (fun c c' => (residue loose c).Matches r (residue loose c'))
      (parts ⟨.expr, e⟩) (parts ⟨.expr, z⟩))
    (hv : value? z = some v) :
    (residue loose ⟨.expr, e⟩).Matches r (residue loose ⟨.expr, v⟩) := by
  have hz : (residue loose ⟨.expr, e⟩).Matches r (residue loose ⟨.expr, z⟩) := by
    refine residue_of_parts hr ha hp ?_ nofun
    -- a call has no value
    intro _ _ _ _ _ _ _ hcall
    rw [eq_of_heq (Node.mk.inj hcall).2] at hv
    exact absurd hv nofun
  rw [residue_expr z, settled_value? hv, ← residue_expr] at hz
  exact hz

/-- A statement leaves what the branch does that it is given up for, or what its parts do. -/
theorem residue_branch? (hr : ∀ g, r g g) {x z : Stmt Origin} (ha : Alike ⟨.stmt, x⟩ ⟨.stmt, z⟩)
    (hp : List.Forall₂ (fun c c' => (residue loose c).Matches r (residue loose c'))
      (parts ⟨.stmt, x⟩) (parts ⟨.stmt, z⟩))
    (hself : ∀ names, Declares names x → (branch? z).getD z = x) :
    (residue loose ⟨.stmt, x⟩).Matches r (residue loose ⟨.stmt, (branch? z).getD z⟩) := by
  cases hb : branch? z with
  | some y =>
    have hz : (residue loose ⟨.stmt, x⟩).Matches r (residue loose ⟨.stmt, z⟩) := by
      refine residue_of_parts hr ha hp nofun ?_
      -- declarations are no choice
      rintro _ names ⟨⟩ hd
      obtain ⟨_, _, _, _, _, _, _, hz, -⟩ := branch?_cases hb
      rw [hz] at ha
      cases hd with
      | statement _ _ => exact absurd ha nofun
    rw [(branch?_rule hb).sameBindings.residue, settled_branch? hb] at hz
    exact hz
  | none =>
    refine residue_of_parts hr ha hp nofun ?_
    rintro _ names ⟨⟩ hd
    have hzx := hself names hd
    rw [hb] at hzx
    exact congrArg (Node.mk .stmt) hzx

/-- What is left of a tree is left of its folded version, if each callee is as loose as its answer
is or as it has to be guarded. -/
theorem fold_residue (hr : ∀ g, r g g)
    (hloose : ∀ c c' s, Separate ⟨.expr, c⟩ → (transform.node ⟨.expr, c⟩ s).1 = ⟨.expr, c'⟩ →
      r (loose c) (isMemberReference c' && !isMemberReference c || loose c'))
    {n : Node Origin} (hn : Separate n) (folded : Nat) :
    (residue loose n).Matches r (residue loose (transform.node n folded).1) := by
  refine transform.exact_relates fold_isTame
    (R := fun n n' => (residue loose n).Matches r (residue loose n')) (fun _ _ => residue_block) ?_
    hn folded
  intro k x walk s hx hobject ha hp
  have hresidues := hp.imp fun _ _ h => h.1
  cases k
  case expr =>
    rw [visit_expr]
    cases hv : value? (walk s).1 with
    | some v => exact residue_value? hr ha hresidues hv
    | none =>
      refine residue_guardCallee hr ha hresidues ?_
      rintro o c args o' c' args' rfl hz
      rw [hz] at hp
      obtain _ | ⟨⟨-, t, ht⟩, _⟩ := hp
      exact hloose c c' t (hx.part List.mem_cons_self) ht
  case stmt =>
    rw [visit_stmt]
    refine residue_branch? hr ha hresidues fun names hd => ?_
    rw [← visit_stmt x, ← hobject]
    exact fold_of_declares hd s
  all_goals exact residue_of_parts hr ha hresidues nofun nofun

end Fold

namespace Collapse

theorem residue_of_chosen? {n a : Node Origin} (h : n.chosen? = some a) :
    residue loose n = residue loose a := by
  obtain ⟨o, format, args, i, e, rfl, hlone, hbound, he, rfl⟩ := chosen?_eq_some_iff.1 h
  have hsole := sole?_eq_some_iff.2 (Template.parse_eq_argument_iff.2 ⟨hlone, hbound⟩)
  have hargs : settled loose ⟨.exprs, args⟩ =
      .node ⟨.exprs, .blank⟩ false ((parts ⟨.exprs, args⟩).map (settled loose)) :=
    settled_of_given?_eq_none rfl
  rw [residue_expr, residue_expr]
  congr 1
  apply settled_of_given?
  simp [head, ExprShape.head, Form.given?, parts, ExprShape.parts, residue, hsole, hargs,
    Form.parts, he]

theorem collapse_of_declares {names : List String} {s : Stmt Origin} (h : Declares names s)
    (t : Tally) : (transform.stmt s t).1 = s := by
  have hnormal : All SettledNode ⟨.stmt, s⟩ :=
    all_of_declares (fun _ _ => trivial) (fun _ => trivial) h fun _ _ _ => trivial
  have hnode : transform.node ⟨.stmt, s⟩ t = (⟨.stmt, s⟩, t) := collapse_of_normal hnormal t
  exact eq_of_heq (Node.mk.inj (congrArg Prod.fst hnode)).2

/-- What is left of a tree is left of it with its templates collapsed, if each callee is as loose as
its answer. -/
theorem collapse_residue (hr : ∀ g, r g g)
    (hloose : ∀ c c' t, Separate ⟨.expr, c⟩ → (transform.node ⟨.expr, c⟩ t).1 = ⟨.expr, c'⟩ →
      r (loose c) (loose c'))
    {n : Node Origin} (hn : Separate n) (t : Tally) :
    (residue loose n).Matches r (residue loose (transform.node n t).1) := by
  refine transform.exact_relates collapse_isTame
    (R := fun n n' => (residue loose n).Matches r (residue loose n'))
    (fun _ _ => Fold.residue_block) ?_ hn t
  intro k x walk s hx hobject ha hp
  have hvisit := visit_fst k x walk s
  have hz : (residue loose ⟨k, x⟩).Matches r (residue loose ⟨k, (walk s).1⟩) := by
    refine residue_of_parts hr ha (hp.imp fun _ _ h => h.1) ?_ ?_
    · rintro o c args o' c' args' ⟨⟩ hz
      rw [hz] at hp
      obtain _ | ⟨⟨-, t, ht⟩, _⟩ := hp
      exact hloose c c' t (hx.part List.mem_cons_self) ht
    · rintro y names ⟨⟩ hd
      have hself : (transform.visit .stmt y walk s).1 = y := by
        rw [← hobject]
        exact collapse_of_declares hd s
      have hnone : chosen? ⟨.stmt, (walk s).1⟩ = none := by
        cases (walk s).1 <;> rfl
      rw [hself, hnone] at hvisit
      exact hvisit.symm
  rw [hvisit]
  cases h : chosen? ⟨k, (walk s).1⟩ with
  | none => exact hz
  | some a =>
    rw [residue_of_chosen? h] at hz
    exact hz

end Collapse

/-- An object is given up only if it stands for an argument or folds. -/
theorem foldsAt_of_given? {head : Node Unit} {parts : List Residue} {f : Form}
    (h : Form.given? head parts = some f) :
    (∃ o format args, head = ⟨.expr, ⟨o, .literal format args⟩⟩ ∧
        Collapse.sole? format ≠ none) ∨
      foldsAt head (parts.map fun s => (s.form.constant?, s.hoists)) := by
  unfold Form.given? at h
  split at h
  · obtain ⟨i, hi, -⟩ := Option.bind_eq_some_iff.1 h
    exact .inl ⟨_, _, _, rfl, hi ▸ Option.some_ne_none i⟩
  all_goals right
  · obtain ⟨c, hc, h⟩ := Option.bind_eq_some_iff.1 h
    obtain ⟨d, hd, h⟩ := Option.bind_eq_some_iff.1 h
    obtain ⟨v, hv, -⟩ := Option.bind_eq_some_iff.1 h
    simp [foldsAt, hc, hd, hv]
  · obtain ⟨c, hc, h⟩ := Option.bind_eq_some_iff.1 h
    obtain ⟨v, hv, -⟩ := Option.bind_eq_some_iff.1 h
    simp [foldsAt, hc, hv]
  · obtain ⟨value, hc, -⟩ := Option.bind_eq_some_iff.1 h
    exact ⟨value, Form.bool?_eq_some_iff.1 hc⟩
  · obtain ⟨value, hc, h⟩ := Option.bind_eq_some_iff.1 h
    rw [Form.bool?_eq_some_iff] at hc
    cases value <;> simp [Form.select?] at h <;> simpa [foldsAt, hc] using h.1
  · exact absurd h.symm (Option.some_ne_none f)

theorem sole?_eq_none_of_head {n : Node Origin} {o : Unit} {format : String}
    {args : NodeList Unit (Expr Unit)} (h : Collapse.SettledNode n)
    (hhead : n.head = ⟨.expr, ⟨o, .literal format args⟩⟩) : Collapse.sole? format = none := by
  have hkind : n.kind = .expr := by rw [← head_kind n, hhead]
  obtain ⟨k, x⟩ := n
  obtain rfl : k = .expr := hkind
  obtain ⟨o', s⟩ := x
  cases s <;> simp only [head, ExprShape.head, Node.mk.injEq, heq_eq_eq, Expr.mk.injEq,
    ExprShape.literal.injEq, reduceCtorEq, true_and, and_false] at hhead
  obtain ⟨rfl, -⟩ := hhead
  exact h.2

/-- Where no callee that is a member reference is loose, the marks make no difference to the form
of a tree as it stands. -/
theorem assemble_mark (hmember : ∀ c, isMemberReference c = true → loose c = false)
    (n : Node Origin) : Form.assemble (n.mark loose) n.head (n.parts.map plain) = n.plain := by
  rw [plain_eq]
  by_cases hcall : ∃ o c args, n = ⟨.expr, ⟨o, .call c args⟩⟩
  · obtain ⟨o, c, args, rfl⟩ := hcall
    have hmark : (loose c && (plain ⟨.expr, c⟩).isMemberReference) = false := by
      rw [plain_isMemberReference]
      cases hm : isMemberReference c
      · exact Bool.and_false _
      · rw [hmember c hm, Bool.false_and]
    show Form.call (loose c) _ (plain ⟨.expr, c⟩) _ = Form.call false _ (plain ⟨.expr, c⟩) _
    rw [Form.call, Form.call, hmark, Bool.false_and]
  · have hmark : n.mark loose = n.mark fun _ => false := by
      unfold mark
      split
      · exact absurd ⟨_, _, _, rfl⟩ hcall
      · rfl
      · rfl
    rw [hmark]

/-- Where nothing is left to fold and to collapse, the settled form is the form of the tree. -/
theorem settled_eq_plain (hmember : ∀ c, isMemberReference c = true → loose c = false)
    {n : Node Origin} (hfold : All (¬Foldable ·) n) (hcollapse : All Collapse.SettledNode n) :
    n.settled loose = n.plain := by
  induction n using Node.induction with
  | step n ih =>
    have hparts : ∀ c ∈ n.parts, c.settled loose = c.plain :=
      fun c hc => ih c hc (hfold.part hc) (hcollapse.part hc)
    cases hgiven : Form.given? n.head (n.parts.map (residue loose)) with
    | none =>
      rw [settled_of_given?_eq_none hgiven, List.map_congr_left hparts, assemble_mark hmember]
    | some f =>
      obtain ⟨o, format, args, hhead, hsole⟩ | hfolds := foldsAt_of_given? hgiven
      · exact absurd (sole?_eq_none_of_head hcollapse.self hhead) hsole
      · have hreadings : (n.parts.map (residue loose)).map
            (fun s => (s.form.constant?, s.hoists)) = n.parts.map reading := by
          rw [List.map_map]
          refine List.map_congr_left fun c hc => ?_
          have hconstant : (c.settled loose).constant? = constant? c := by
            rw [hparts c hc, plain_constant?]
          exact congrArg (·, c.hoistsFunction) hconstant
        rw [hreadings, ← foldable_iff] at hfolds
        exact absurd hfolds hfold.self

end ScriptTree
