import ScriptTree.Proofs.FoldCongruence
import ScriptTree.Proofs.Form

namespace ScriptTree

open Node Fold

variable {ι κ : Type}

/-- The comma through which a callee is called so that the call does not bind `this`. -/
inductive Guards : Expr ι → Expr ι → Prop
  | comma {o o₁ o₂ c} : isMemberReference c = true →
      Guards ⟨o, .comma ⟨o₁, [⟨o₂, .constant (.number 0)⟩, c]⟩⟩ c

/-- The statement was made by a pass and not handed in. -/
def Stmt.isMade (s : Stmt Origin) : Bool := s.origin.number?.isNone

/-- The trees are equal but for their identities, for guards in the first around callees that are
bare in the second, and for the order of distinct names that statements made by a pass declare
without values. -/
inductive Node.Agree : Node Origin → Node Origin → Prop
  | parts {n n'} : n.Alike n' → List.Forall₂ Agree n.parts n'.parts → Agree n n'
  | guard {o o' g c c' args args'} : Guards g c → Agree ⟨.expr, c⟩ ⟨.expr, c'⟩ →
      Agree ⟨.exprs, args⟩ ⟨.exprs, args'⟩ →
      Agree ⟨.expr, ⟨o, .call g args⟩⟩ ⟨.expr, ⟨o', .call c' args'⟩⟩
  | declares {s s' names names'} : s.isMade → s'.isMade → Declares names s → Declares names' s' →
      names.Nodup → names.Perm names' → Agree ⟨.stmt, s⟩ ⟨.stmt, s'⟩

namespace Node

/-- The mark under which an object leaves its form. -/
def mark (loose : Expr Origin → Bool) : Node Origin → Bool
  | ⟨.expr, ⟨_, .call c _⟩⟩ => loose c
  | ⟨.stmt, s⟩ => s.isMade
  | _ => false

/-- The form of a tree as it stands, where only what is behind a comma is guarded. -/
def plain (n : Node Origin) : Form :=
  .assemble (n.mark fun _ => false) n.head (n.parts.attach.map fun c => plain c.1)
termination_by n.size
decreasing_by exact size_lt_of_mem_parts c.2

theorem plain_eq (n : Node Origin) :
    n.plain = .assemble (n.mark fun _ => false) n.head (n.parts.map plain) := by
  rw [plain]
  simp only [List.map_subtype, List.unattach_attach]

theorem assemble_of_ne {n : Node ι} (mark : Bool) (fs : List Form)
    (hcall : ∀ o c args, n ≠ ⟨.expr, ⟨o, .call c args⟩⟩)
    (hvars : ∀ o l, n ≠ ⟨.stmt, .node o (.vars l)⟩) :
    Form.assemble mark n.head fs = .node n.head false fs := by
  obtain ⟨k, x⟩ := n
  cases k
  case expr =>
    obtain ⟨o, s⟩ := x
    cases s
    case call c args => exact absurd rfl (hcall o c args)
    all_goals rfl
  case stmt =>
    rcases x with b | ⟨o, s⟩
    · rfl
    · cases s
      case vars l => exact absurd rfl (hvars o l)
      all_goals rfl
  case label => cases x <;> rfl
  all_goals rfl

theorem assemble_constant? (n : Node ι) (mark : Bool) (fs : List Form) :
    (Form.assemble mark n.head fs).constant? = constant? n := by
  rw [← constant?_head n]
  generalize n.head = head
  unfold Form.assemble
  split
  · obtain ⟨_, _, h⟩ := Form.exists_node_of_call mark _ _ _
    rw [h, Form.constant?]
  · unfold Form.vars
    split
    · split <;> rfl
    · rfl
  · rfl

theorem plain_constant? (n : Node Origin) : n.plain.constant? = constant? n := by
  rw [plain_eq, assemble_constant?]

theorem assemble_expr (e : Expr ι) (mark : Bool) (fs : List Form) : ∃ guarded fs',
    Form.assemble mark (head ⟨.expr, e⟩) fs = .node (head ⟨.expr, e⟩) guarded fs' := by
  generalize hhead : head ⟨.expr, e⟩ = h
  unfold Form.assemble
  split
  · exact Form.exists_node_of_call mark _ _ _
  · exact absurd hhead nofun
  · exact ⟨_, _, rfl⟩

theorem assemble_isMemberReference (e : Expr ι) (mark : Bool) (fs : List Form) :
    (Form.assemble mark (head ⟨.expr, e⟩) fs).isMemberReference = isMemberReference e := by
  obtain ⟨guarded, fs', h⟩ := assemble_expr e mark fs
  rw [h]
  exact isMemberReference_head e

theorem plain_isMemberReference (e : Expr Origin) :
    (plain ⟨.expr, e⟩).isMemberReference = isMemberReference e := by
  rw [plain_eq, assemble_isMemberReference]

theorem plain_of_ne {n : Node Origin} (hcall : ∀ o c args, n ≠ ⟨.expr, ⟨o, .call c args⟩⟩)
    (hvars : ∀ o l, n ≠ ⟨.stmt, .node o (.vars l)⟩) :
    n.plain = .node n.head false (n.parts.map plain) := by
  rw [plain_eq]
  exact assemble_of_ne _ _ hcall hvars

theorem plain_exprs (l : NodeList Origin (Expr Origin)) : plain ⟨.exprs, l⟩ =
    .node ⟨.exprs, .blank⟩ false (l.items.map fun e => plain ⟨.expr, e⟩) := by
  rw [plain_eq, parts, List.map_map]
  rfl

/-- What is guarded in the form is guarded in the tree. -/
theorem guards_of_guarded? {e : Expr Origin} {f : Form}
    (h : (plain ⟨.expr, e⟩).guarded? = some f) : ∃ c, Guards e c ∧ f = plain ⟨.expr, c⟩ := by
  obtain ⟨o, es, g, o', g', zero, hplain, hzero, hmember⟩ := Form.guarded?_eq_some_iff.1 h
  obtain ⟨guarded, fs, hexpr⟩ := assemble_expr e (mark (fun _ => false) ⟨.expr, e⟩)
    ((parts ⟨.expr, e⟩).map plain)
  rw [← plain_eq, hplain] at hexpr
  have hhead := (Form.node.inj hexpr).1
  obtain ⟨o, s⟩ := e
  cases s <;> simp [head, ExprShape.head] at hhead
  rename_i es
  have hcomma : plain ⟨.expr, ⟨o, .comma es⟩⟩ = .node _ false [plain ⟨.exprs, es⟩] :=
    plain_of_ne (fun _ _ _ => nofun) fun _ _ => nofun
  rw [hcomma, plain_exprs] at hplain
  obtain ⟨-, -, hlist⟩ := Form.node.inj hplain
  obtain ⟨-, -, hitems⟩ := Form.node.inj (List.cons.inj hlist).1
  obtain ⟨o₁, items⟩ := es
  obtain _ | ⟨z, _ | ⟨c, _ | _⟩⟩ := items <;> cases hitems
  rw [plain_constant?] at hzero
  rw [plain_isMemberReference] at hmember
  rw [eq_constant (e := z) hzero]
  exact ⟨c, .comma hmember, rfl⟩

end Node

theorem mapM_eq_some_iff {α β : Type} {f : α → Option β} {as : List α} {bs : List β} :
    as.mapM f = some bs ↔ as.map f = bs.map some := by
  induction as generalizing bs with
  | nil => cases bs <;> simp
  | cons a as ih =>
    have hcons : (a :: as).mapM f = (f a).bind fun b => (as.mapM f).map (b :: ·) := by
      rw [List.mapM_cons]
      cases f a <;> cases as.mapM f <;> rfl
    cases bs with
    | nil => simp [hcons, Option.bind_eq_some_iff]
    | cons b bs => simp [hcons, Option.bind_eq_some_iff, ← ih, and_comm]

theorem declares_iff {names : List String} {o : ι} {l : NodeList ι (Declaration ι)} :
    Declares names (.node o (.vars l)) ↔
      l.items.map (fun d => if d.init.isNone then some d.name else none) = names.map some := by
  constructor
  · rintro ⟨rfl, hinit⟩
    rw [List.map_map]
    refine List.map_congr_left fun d hd => ?_
    rw [hinit d hd]
    rfl
  · intro h
    have hinit : ∀ d ∈ l.items, d.init = none := by
      intro d hd
      have hmem : (if d.init.isNone then some d.name else none) ∈ names.map some :=
        h ▸ List.mem_map_of_mem hd
      obtain ⟨x, -, hx⟩ := List.mem_map.1 hmem
      by_contra hne
      rw [if_neg (by simpa using hne)] at hx
      exact absurd hx nofun
    refine .statement ?_ hinit
    apply List.map_injective_iff.2 (Option.some_injective String)
    rw [← h, List.map_map]
    refine List.map_congr_left fun d hd => ?_
    rw [hinit d hd]
    rfl

/-- The names are read off the forms of the declarations where none of these has a value. -/
theorem mapM_name?_eq_some_iff {f : Node ι → Form} {o : ι} {l : NodeList ι (Declaration ι)}
    {names : List String}
    (hf : ∀ d, ∃ g fs, f ⟨.declaration, d⟩ = .node (head ⟨.declaration, d⟩) g fs) :
    ((parts ⟨.declarations, l⟩).map f).mapM Form.name? = some names ↔
      Declares names (.node o (.vars l)) := by
  have hname (d : Declaration ι) :
      (f ⟨.declaration, d⟩).name? = if d.init.isNone then some d.name else none := by
    obtain ⟨g, fs, hd⟩ := hf d
    rw [hd]
    obtain ⟨o, x, _ | _⟩ := d <;> rfl
  rw [mapM_eq_some_iff, declares_iff, ← List.map_congr_left fun d _ => hname d, parts, List.map_map,
    List.map_map]
  rfl

namespace Node

/-- The form of a `var` statement. -/
theorem assemble_vars {f : Node Origin → Form} {o : Origin}
    {l : NodeList Origin (Declaration Origin)} {g : Bool} (mark : Bool)
    (hlist : f ⟨.declarations, l⟩ =
      .node (head ⟨.declarations, l⟩) g ((parts ⟨.declarations, l⟩).map f))
    (hf : ∀ d, ∃ g fs, f ⟨.declaration, d⟩ = .node (head ⟨.declaration, d⟩) g fs) :
    (∃ names, mark ∧ Declares names (.node o (.vars l)) ∧ names.Nodup ∧
        Form.assemble mark (head ⟨.stmt, .node o (.vars l)⟩) [f ⟨.declarations, l⟩] =
          .declares names.toFinset) ∨
      (∀ names, mark → Declares names (.node o (.vars l)) → ¬names.Nodup) ∧
        Form.assemble mark (head ⟨.stmt, .node o (.vars l)⟩) [f ⟨.declarations, l⟩] =
          .node (head ⟨.stmt, .node o (.vars l)⟩) false [f ⟨.declarations, l⟩] := by
  have hparts : (f ⟨.declarations, l⟩).parts = (parts ⟨.declarations, l⟩).map f := by
    rw [hlist]
    rfl
  have hvars : Form.assemble mark (head ⟨.stmt, .node o (.vars l)⟩) [f ⟨.declarations, l⟩] =
      .vars mark (head ⟨.stmt, .node o (.vars l)⟩) (f ⟨.declarations, l⟩) := rfl
  rw [hvars, Form.vars, hparts]
  cases h : ((parts ⟨.declarations, l⟩).map f).mapM Form.name? with
  | none =>
    refine .inr ⟨fun names _ hd => ?_, rfl⟩
    rw [← mapM_name?_eq_some_iff hf, h] at hd
    exact absurd hd nofun
  | some names =>
    have hd := (mapM_name?_eq_some_iff (o := o) hf).1 h
    by_cases hn : mark ∧ names.Nodup
    · exact .inl ⟨names, hn.1, hd, hn.2, if_pos (by simpa using hn)⟩
    · refine .inr ⟨fun names' hm hd' hn' => ?_, if_neg (by simpa using hn)⟩
      rw [← mapM_name?_eq_some_iff hf, h] at hd'
      obtain rfl := Option.some.inj hd'
      exact hn ⟨hm, hn'⟩

/-- What an object leaves: a guarded callee and its arguments, names, or itself over what its parts
leave. -/
theorem plain_cases (n : Node Origin) :
    (∃ o g c args, n = ⟨.expr, ⟨o, .call g args⟩⟩ ∧ Guards g c ∧
        n.plain = .node n.head true [plain ⟨.expr, c⟩, plain ⟨.exprs, args⟩]) ∨
      (∃ s names, n = ⟨.stmt, s⟩ ∧ s.isMade ∧ Declares names s ∧ names.Nodup ∧
        n.plain = .declares names.toFinset) ∨
      n.plain = .node n.head false (n.parts.map plain) := by
  by_cases hcall : ∃ o c args, n = ⟨.expr, ⟨o, .call c args⟩⟩
  · obtain ⟨o, g, args, rfl⟩ := hcall
    have hplain : plain ⟨.expr, ⟨o, .call g args⟩⟩ = Form.call false
      ⟨.expr, ⟨(), .call .blank .blank⟩⟩ (plain ⟨.expr, g⟩) [plain ⟨.exprs, args⟩] := plain_eq _
    unfold Form.call at hplain
    cases hg : (plain ⟨.expr, g⟩).guarded? with
    | some f =>
      obtain ⟨c, hguards, rfl⟩ := guards_of_guarded? hg
      simp only [hg] at hplain
      exact .inl ⟨o, g, c, args, rfl, hguards, hplain⟩
    | none =>
      simp only [hg, Bool.false_and] at hplain
      exact .inr (.inr hplain)
  by_cases hvars : ∃ o l, n = ⟨.stmt, .node o (.vars l)⟩
  · obtain ⟨o, l, rfl⟩ := hvars
    have hlist : plain ⟨.declarations, l⟩ = _ := plain_of_ne (fun _ _ _ => nofun) fun _ _ => nofun
    have hdeclaration (d : Declaration Origin) : ∃ g fs, plain ⟨.declaration, d⟩ = .node _ g fs :=
      ⟨_, _, plain_of_ne (fun _ _ _ => nofun) fun _ _ => nofun⟩
    rw [plain_eq]
    obtain ⟨names, hm, hd, hn, h⟩ | ⟨-, h⟩ :=
      assemble_vars (o := o) (Stmt.isMade (.node o (.vars l))) hlist hdeclaration
    · exact .inr (.inl ⟨_, names, rfl, hm, hd, hn, h⟩)
    · exact .inr (.inr h)
  · refine .inr (.inr (plain_of_ne ?_ ?_))
    · exact fun o c args h => hcall ⟨o, c, args, h⟩
    · exact fun o l h => hvars ⟨o, l, h⟩

theorem Agree.of_guards {g g' c c' : Expr Origin} (hg : Guards g c) (hg' : Guards g' c')
    (h : Agree ⟨.expr, c⟩ ⟨.expr, c'⟩) : Agree ⟨.expr, g⟩ ⟨.expr, g'⟩ := by
  cases hg with
  | comma _ =>
    cases hg' with
    | comma _ =>
      have hzero {o o' : Origin} : Agree ⟨.expr, ⟨o, .constant (.number 0)⟩⟩
          ⟨.expr, ⟨o', .constant (.number 0)⟩⟩ := .parts rfl .nil
      exact .parts rfl (.cons (.parts rfl (.cons hzero (.cons h .nil))) .nil)

theorem size_lt_of_guards {o : ι} {g c : Expr ι} {args : NodeList ι (Expr ι)} (h : Guards g c) :
    size ⟨.expr, c⟩ < size ⟨.expr, ⟨o, .call g args⟩⟩ := by
  cases h with
  | comma _ =>
    simp [size]
    omega

theorem call_of_alike {o : ι} {c : Expr ι} {args : NodeList ι (Expr ι)} {n : Node κ}
    (h : Alike ⟨.expr, ⟨o, .call c args⟩⟩ n) :
    ∃ o' c' args', n = ⟨.expr, ⟨o', .call c' args'⟩⟩ := by
  obtain ⟨k, z⟩ := n
  obtain rfl : k = .expr := h.kind_eq.symm
  obtain ⟨o', c', args', rfl⟩ := exists_call_of_alike h
  exact ⟨o', c', args', rfl⟩

/-- Trees agree that leave the same form, guarded in the first where it is in the second. -/
theorem agree_of_plain {n n' : Node Origin}
    (h : Form.Matches (fun g g' => g' → g) n.plain n'.plain) : n.Agree n' := by
  obtain ⟨o, g, c, args, hn, hg, hc⟩ | ⟨s, names, rfl, hs, hd, hnames, hc⟩ | hc := plain_cases n <;>
    obtain ⟨o', g', c', args', rfl, hg', hc'⟩ | ⟨s', names', rfl, hs', hd', hnames', hc'⟩ | hc' :=
      plain_cases n' <;> rw [hc, hc'] at h
  case inl.inl =>
    obtain ⟨-, -, _ | ⟨hcallee, _ | ⟨hargs, _⟩⟩⟩ := Form.Matches.node_iff.1 h
    rw [hn]
    have hcallee := Agree.of_guards hg hg' (agree_of_plain hcallee)
    exact .parts rfl (.cons hcallee (.cons (agree_of_plain hargs) .nil))
  case inl.inr.inr =>
    obtain ⟨ha, -, hparts⟩ := Form.Matches.node_iff.1 h
    rw [hn] at ha ⊢
    obtain ⟨o', c', args', rfl⟩ := call_of_alike ha
    obtain _ | ⟨hcallee, _ | ⟨hargs, _⟩⟩ := hparts
    exact .guard hg (agree_of_plain hcallee) (agree_of_plain hargs)
  case inr.inl.inr.inl =>
    have hperm := List.perm_of_nodup_nodup_toFinset_eq hnames hnames' h.eq_of_declares
    exact .declares hs hs' hd hd' hnames hperm
  case inr.inr.inl =>
    obtain ⟨-, hguard, -⟩ := Form.Matches.node_iff.1 h
    exact absurd (hguard rfl) Bool.false_ne_true
  case inr.inr.inr.inr =>
    obtain ⟨ha, -, hparts⟩ := Form.Matches.node_iff.1 h
    rw [List.forall₂_map_left_iff, List.forall₂_map_right_iff] at hparts
    have hall : ∀ c ∈ n.parts, ∀ c' : Node Origin,
        Form.Matches (fun g g' => g' → g) c.plain c'.plain → c.Agree c' :=
      fun c hc c' h => agree_of_plain h
    exact .parts ha (forall₂_imp_of_mem hparts hall)
  -- names are not left where an object is
  all_goals exact absurd h nofun
termination_by n.size
decreasing_by
  · exact hn ▸ size_lt_of_guards hg
  · exact hn ▸ size_lt_of_mem_parts (List.mem_cons_of_mem _ List.mem_cons_self)
  · exact hn ▸ size_lt_of_guards hg
  · exact hn ▸ size_lt_of_mem_parts (List.mem_cons_of_mem _ List.mem_cons_self)
  · exact size_lt_of_mem_parts hc

def callee? : Node ι → Option (Expr ι)
  | ⟨.expr, ⟨_, .call c _⟩⟩ => some c
  | _ => none

/-- The callees of the calls in a tree, in pre-order. -/
def callees (n : Node ι) : List (Expr ι) := (n.preorder fun _ => true).filterMap callee?

theorem callees_eq (n : Node ι) : n.callees = n.callee?.toList ++ n.parts.flatMap callees :=
  filterMap_preorder callee? (fun _ => true) n

theorem callee?_eq_none {n : Node ι} (h : ∀ o c args, n ≠ ⟨.expr, ⟨o, .call c args⟩⟩) :
    n.callee? = none := by
  unfold callee?
  split
  · exact absurd rfl (h _ _ _)
  · rfl

theorem callees_of_guards {g c : Expr ι} (h : Guards g c) :
    callees ⟨.expr, g⟩ = callees ⟨.expr, c⟩ := by
  cases h with
  | @comma o o₁ o₂ c _ =>
    have hzero : callees ⟨.expr, ⟨o₂, .constant (.number 0)⟩⟩ = [] := callees_eq _
    have hlist : callees ⟨.exprs, ⟨o₁, [⟨o₂, .constant (.number 0)⟩, c]⟩⟩ =
        callees ⟨.expr, ⟨o₂, .constant (.number 0)⟩⟩ ++ (callees ⟨.expr, c⟩ ++ []) := callees_eq _
    have hcomma : callees ⟨.expr, ⟨o, .comma ⟨o₁, [⟨o₂, .constant (.number 0)⟩, c]⟩⟩⟩ =
        callees ⟨.exprs, _⟩ ++ [] := callees_eq _
    rw [hcomma, hlist, hzero, List.append_nil, List.append_nil, List.nil_append]

theorem callees_of_declares {names : List String} {s : Stmt ι} (h : Declares names s) :
    callees ⟨.stmt, s⟩ = [] := by
  cases h with
  | @statement o l _ hinit =>
    have hitems : (parts ⟨.declarations, l⟩).flatMap callees = [] := by
      rw [List.flatMap_eq_nil_iff]
      intro c hc
      obtain ⟨d, hd, rfl⟩ := List.mem_map.1 hc
      rw [callees_eq, parts, hinit d hd]
      rfl
    have hlist : callees ⟨.declarations, l⟩ = (parts ⟨.declarations, l⟩).flatMap callees :=
      callees_eq _
    have hvars : callees ⟨.stmt, .node o (.vars l)⟩ = callees ⟨.declarations, l⟩ ++ [] :=
      callees_eq _
    rw [hvars, hlist, hitems, List.append_nil]

theorem Agree.isMemberReference_eq {c c' : Expr Origin} (h : Agree ⟨.expr, c⟩ ⟨.expr, c'⟩) :
    isMemberReference c = isMemberReference c' := by
  cases h with
  | parts ha _ => exact (isMemberReference_of_alike ha).symm
  | guard _ _ _ => rfl

/-- A call that binds `this` in the first of two trees that agree does so in the second. -/
theorem Agree.forall₂_callees {n n' : Node Origin} (h : n.Agree n') :
    List.Forall₂ (fun c c' => isMemberReference c → isMemberReference c') n.callees n'.callees := by
  cases h with
  | parts ha hp =>
    have hparts := forall₂_imp_of_mem hp fun c hc c' h => Agree.forall₂_callees h
    rw [callees_eq, callees_eq n']
    refine List.rel_append ?_ (List.rel_flatMap hparts fun _ _ h => h)
    by_cases hcall : ∃ o c args, n = ⟨.expr, ⟨o, .call c args⟩⟩
    · obtain ⟨o, c, args, rfl⟩ := hcall
      obtain ⟨o', c', args', rfl⟩ := call_of_alike ha
      obtain _ | ⟨hc, _⟩ := hp
      exact .cons (fun h => hc.isMemberReference_eq ▸ h) .nil
    · rw [callee?_eq_none fun o c args h => hcall ⟨o, c, args, h⟩, callee?_eq_none]
      · exact .nil
      · rintro o c args rfl
        exact hcall (call_of_alike ha.symm)
  | @guard o o' g c c' args args' hg hc hargs =>
    have hcallee : callees ⟨.expr, ⟨o, .call g args⟩⟩ =
        g :: (callees ⟨.expr, c⟩ ++ (callees ⟨.exprs, args⟩ ++ [])) := by
      rw [← callees_of_guards hg]
      exact callees_eq _
    have hcallee' : callees ⟨.expr, ⟨o', .call c' args'⟩⟩ =
        c' :: (callees ⟨.expr, c'⟩ ++ (callees ⟨.exprs, args'⟩ ++ [])) := callees_eq _
    rw [hcallee, hcallee']
    refine .cons (fun hm => ?_)
      (List.rel_append hc.forall₂_callees (List.rel_append hargs.forall₂_callees .nil))
    -- the guard is no member reference
    cases hg with
    | comma _ => exact absurd hm Bool.false_ne_true
  | declares _ _ hd hd' _ _ =>
    rw [callees_of_declares hd, callees_of_declares hd']
    exact .nil
termination_by n.size
decreasing_by
  · exact ‹n = _› ▸ size_lt_of_mem_parts hc
  · exact size_lt_of_guards hg
  · exact size_lt_of_mem_parts (List.mem_cons_of_mem _ List.mem_cons_self)

end Node

end ScriptTree
