import Mathlib.Data.Finset.Dedup
import ScriptTree.Proofs.FoldNormalForm

namespace ScriptTree

open Node

/-- What is left of a tree without its identities: of an object what it holds itself and whether it
is a call through a guard, which is left out, and of a statement that a pass made to declare names
the set of these. -/
inductive Form where
  | node (head : Node Unit) (guarded : Bool) (parts : List Form)
  | declares (names : Finset String)

namespace Form

theorem induction {P : Form → Prop}
    (node : ∀ head guarded fs, (∀ f ∈ fs, P f) → P (node head guarded fs))
    (declares : ∀ names, P (declares names)) : ∀ f, P f
  | .node head guarded fs => node head guarded fs fun f _ => induction node declares f
  | .declares names => declares names

def parts : Form → List Form
  | node _ _ parts => parts
  | declares _ => []

def constant? : Form → Option Constant
  | node head _ _ => Fold.constant? head
  | declares _ => none

def isMemberReference : Form → Bool
  | node ⟨.expr, e⟩ _ _ => Fold.isMemberReference e
  | _ => false

/-- What is guarded, if this is a guard. -/
def guarded? : Form → Option Form
  | node ⟨.expr, ⟨_, .comma _⟩⟩ _ [node ⟨.exprs, _⟩ _ [zero, c]] =>
    if zero.constant? = some (.number 0) ∧ c.isMemberReference then some c else none
  | _ => none

/-- The name that a declaration without a value declares. -/
def name? : Form → Option String
  | node ⟨.declaration, ⟨_, x, none⟩⟩ _ _ => some x
  | _ => none

/-- The form of a call, in which a bare callee that is a member reference is guarded if it is
loose. -/
def call (loose : Bool) (head : Node Unit) (callee : Form) (args : List Form) : Form :=
  match callee.guarded? with
  | some c => node head true (c :: args)
  | none => node head (loose && callee.isMemberReference) (callee :: args)

theorem exists_node_of_call (loose : Bool) (head : Node Unit) (callee : Form) (args : List Form) :
    ∃ guarded fs, call loose head callee args = node head guarded fs := by
  unfold call
  split <;> exact ⟨_, _, rfl⟩

/-- The form of a `var` statement, of which only the names are left if a pass made it and they are
all that it declares. -/
def vars (isMade : Bool) (head : Node Unit) (declarations : Form) : Form :=
  match declarations.parts.mapM name? with
  | some names =>
    if isMade && names.Nodup then declares names.toFinset else node head false [declarations]
  | none => node head false [declarations]

/-- The form of an object over those of its parts. The mark of a call tells whether its callee is
loose, and that of a `var` statement whether a pass made it. -/
def assemble (mark : Bool) (head : Node Unit) (parts : List Form) : Form :=
  match head, parts with
  | ⟨.expr, ⟨_, .call ..⟩⟩, callee :: args => call mark head callee args
  | ⟨.stmt, .node _ (.vars _)⟩, [declarations] => vars mark head declarations
  | _, _ => node head false parts

/-- The forms are the same but for their guards, which are related. -/
inductive Matches (r : Bool → Bool → Prop) : Form → Form → Prop
  | node {head g g' fs fs'} : r g g' → List.Forall₂ (Matches r) fs fs' →
      Matches r (node head g fs) (node head g' fs')
  | declares {names} : Matches r (declares names) (declares names)

namespace Matches

variable {r : Bool → Bool → Prop} {f f' f'' : Form}

theorem refl (hr : ∀ g, r g g) (f : Form) : Matches r f f := by
  induction f using Form.induction with
  | node head g fs ih => exact .node (hr g) (List.forall₂_same.2 ih)
  | declares names => exact .declares

theorem flip (h : Matches r f f') : Matches (fun g g' => r g' g) f' f := by
  induction f using Form.induction generalizing f' with
  | node head g fs ih =>
    cases h with
    | node hg hfs =>
      have hfs : List.Forall₂ (fun f f' => Matches (fun g g' => r g' g) f' f) fs _ :=
        forall₂_imp_of_mem hfs fun f hf f' => ih f hf
      exact .node hg hfs.flip
  | declares names =>
    cases h
    exact .declares

theorem trans (hr : ∀ g g' g'', r g g' → r g' g'' → r g g'') (h : Matches r f f')
    (h' : Matches r f' f'') : Matches r f f'' := by
  induction f using Form.induction generalizing f' f'' with
  | node head g fs ih =>
    cases h with
    | node hg hfs =>
      cases h' with
      | node hg' hfs' =>
        have hall : ∀ f ∈ fs, ∀ f' f'', Matches r f f' → Matches r f' f'' → Matches r f f'' :=
          fun f hf f' f'' => ih f hf
        exact .node (hr _ _ _ hg hg') (forall₂_trans_of_mem hfs hfs' hall)
  | declares names =>
    cases h
    exact h'

theorem parts (h : Matches r f f') : List.Forall₂ (Matches r) f.parts f'.parts := by
  cases h with
  | node _ hfs => exact hfs
  | declares => exact .nil

theorem node_iff {head head' : Node Unit} {g g' : Bool} {fs fs' : List Form} :
    Matches r (.node head g fs) (.node head' g' fs') ↔
      head = head' ∧ r g g' ∧ List.Forall₂ (Matches r) fs fs' := by
  constructor
  · intro h
    cases h with
    | node hg hfs => exact ⟨rfl, hg, hfs⟩
  · rintro ⟨rfl, hg, hfs⟩
    exact .node hg hfs

theorem eq_of_declares {names names' : Finset String}
    (h : Matches r (.declares names) (.declares names')) : names = names' := by
  cases h
  rfl

theorem constant?_eq (h : Matches r f f') : f.constant? = f'.constant? := by
  cases h <;> rfl

theorem isMemberReference_eq (h : Matches r f f') :
    f.isMemberReference = f'.isMemberReference := by
  cases h with
  | @node head _ _ _ _ _ _ =>
    obtain ⟨k, x⟩ := head
    cases k <;> rfl
  | declares => rfl

theorem name?_eq (h : Matches r f f') : f.name? = f'.name? := by
  cases h with
  | @node head _ _ _ _ _ _ =>
    obtain ⟨k, x⟩ := head
    cases k <;> try rfl
    obtain ⟨_, x, _ | _⟩ := x <;> rfl
  | declares => rfl

end Matches

theorem guarded?_eq_some_iff {f c : Form} : f.guarded? = some c ↔
    ∃ o es g o' g' zero, f = node ⟨.expr, ⟨o, .comma es⟩⟩ g [node ⟨.exprs, o'⟩ g' [zero, c]] ∧
      zero.constant? = some (.number 0) ∧ c.isMemberReference := by
  constructor
  · intro h
    unfold guarded? at h
    split at h
    · split at h
      · rename_i hguard
        obtain rfl := Option.some.inj h
        exact ⟨_, _, _, _, _, _, rfl, hguard⟩
      · exact absurd h nofun
    · exact absurd h nofun
  · rintro ⟨o, es, g, o', g', zero, rfl, hguard⟩
    exact if_pos hguard

section Matches

variable {r : Bool → Bool → Prop} {f f' : Form}

theorem Matches.guarded? (h : Matches r f f') {c : Form} (hc : f.guarded? = some c) :
    ∃ c', f'.guarded? = some c' ∧ Matches r c c' := by
  obtain ⟨o, es, g, o', g', zero, rfl, hzero, hmember⟩ := guarded?_eq_some_iff.1 hc
  obtain ⟨-, _ | ⟨⟨-, _ | ⟨hz, _ | ⟨hcc, _ | _⟩⟩⟩, _ | _⟩⟩ := h
  refine ⟨_, guarded?_eq_some_iff.2 ⟨_, _, _, _, _, _, rfl, ?_, ?_⟩, hcc⟩
  · rw [← hz.constant?_eq, hzero]
  · rw [← hcc.isMemberReference_eq, hmember]

theorem Matches.mapM_name?_eq {fs fs' : List Form} (h : List.Forall₂ (Matches r) fs fs') :
    fs.mapM name? = fs'.mapM name? := by
  induction h with
  | nil => rfl
  | cons hf _ ih => rw [List.mapM_cons, List.mapM_cons, hf.name?_eq, ih]

theorem Matches.call {loose loose' : Bool} {head : Node Unit} {callee callee' : Form}
    {args args' : List Form} (hr : ∀ g, r g g) (hloose : r loose loose')
    (hcallee : Matches r callee callee') (hargs : List.Forall₂ (Matches r) args args') :
    Matches r (Form.call loose head callee args) (Form.call loose' head callee' args') := by
  unfold Form.call
  cases hg : callee.guarded? with
  | some c =>
    obtain ⟨c', hg', hc⟩ := hcallee.guarded? hg
    simp only [hg']
    exact .node (hr true) (.cons hc hargs)
  | none =>
    have hg' : callee'.guarded? = none := by
      by_contra hne
      obtain ⟨c', hc'⟩ := Option.ne_none_iff_exists'.1 hne
      obtain ⟨c, hc, -⟩ := hcallee.flip.guarded? hc'
      exact absurd (hg.symm.trans hc) nofun
    simp only [hg', ← hcallee.isMemberReference_eq]
    refine .node ?_ (.cons hcallee hargs)
    cases callee.isMemberReference
    · simpa using hr false
    · simpa using hloose

theorem Matches.vars {isMade isMade' : Bool} {head : Node Unit} {d d' : Form}
    (hr : ∀ g, r g g) (h : Matches r d d')
    (hmade : ∀ names, d.parts.mapM name? = some names → isMade = isMade') :
    Matches r (Form.vars isMade head d) (Form.vars isMade' head d') := by
  unfold Form.vars
  rw [← mapM_name?_eq h.parts]
  cases hn : d.parts.mapM name? with
  | none => exact .node (hr false) (.cons h .nil)
  | some names =>
    obtain rfl := hmade names hn
    dsimp only
    split
    · exact .declares
    · exact .node (hr false) (.cons h .nil)

/-- An object leaves what another like it does, if its mark agrees where it counts. -/
theorem Matches.assemble {mark mark' : Bool} {head : Node Unit} {fs fs' : List Form}
    (hr : ∀ g, r g g) (h : List.Forall₂ (Matches r) fs fs')
    (hcall : ∀ o c args, head = ⟨.expr, ⟨o, .call c args⟩⟩ → r mark mark')
    (hvars : ∀ o l d names, head = ⟨.stmt, .node o (.vars l)⟩ → fs = [d] →
      d.parts.mapM name? = some names → mark = mark') :
    Matches r (Form.assemble mark head fs) (Form.assemble mark' head fs') := by
  unfold Form.assemble
  split
  · obtain _ | ⟨hcallee, hargs⟩ := h
    exact .call hr (hcall _ _ _ rfl) hcallee hargs
  · obtain _ | ⟨hd, _ | _⟩ := h
    exact .vars hr hd fun names => hvars _ _ _ names rfl rfl
  · rename_i hcall' hvars'
    split
    · obtain _ | ⟨_, _⟩ := h
      exact absurd rfl (hcall' _ _ _ _ _ rfl)
    · obtain _ | ⟨_, _ | _⟩ := h
      exact absurd rfl (hvars' _ _ _ rfl)
    · exact .node (hr false) h

end Matches

end Form

end ScriptTree
