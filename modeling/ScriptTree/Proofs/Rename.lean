import ScriptTree.Proofs.Traversal
import ScriptTree.Rename

namespace ScriptTree

open Rename

variable {ι : Type}

/-- The new name of an occurrence, or the name itself. -/
def Rename.Names.apply (names : Names) (name : String) : String := (names.lookup name).getD name

/-- The names that an expression itself introduces or refers to. -/
def ExprShape.names : ExprShape ι → List String
  | .identifier n => [n]
  | .function ps _ n => n.toList ++ ps
  | _ => []

def StmtShape.names : StmtShape ι → List String
  | .forIn n _ _ _ => [n]
  | .function n ps _ => n :: ps
  | _ => []

def ExprShape.rename (names : Names) : ExprShape ι → ExprShape ι
  | .identifier n => .identifier (names.apply n)
  | .function ps b n => .function (ps.map names.apply) b (n.map names.apply)
  | e => e

def StmtShape.rename (names : Names) : StmtShape ι → StmtShape ι
  | .forIn n x b d => .forIn (names.apply n) x b d
  | .function n ps b => .function (names.apply n) (ps.map names.apply) b
  | s => s

namespace Node

/-- The names that occur at an object. -/
def names : Node ι → List String := own fun
  | ⟨.expr, e⟩ => e.shape.names
  | ⟨.stmt, .node _ s⟩ => s.names
  | ⟨.declaration, d⟩ => [d.name]
  | ⟨.catchClause, c⟩ => [c.name]
  | _ => []

theorem names_expr (e : Expr ι) : names ⟨.expr, e⟩ = e.shape.names := by
  obtain ⟨o, s⟩ := e
  cases s <;> rfl

theorem names_stmt (o : ι) (s : StmtShape ι) : names ⟨.stmt, .node o s⟩ = s.names := by
  cases s <;> rfl

theorem names_label (l : CaseLabel ι) : names ⟨.label, l⟩ = [] := by
  cases l <;> rfl

/-- A copy of the object with other names. -/
def rename (names : Names) : Node Origin → Node Origin
  | ⟨.expr, e⟩ => ⟨.expr, ⟨e.origin.remade, e.shape.rename names⟩⟩
  | ⟨.stmt, .node o s⟩ => ⟨.stmt, .node o.remade (s.rename names)⟩
  | ⟨.declaration, d⟩ => ⟨.declaration, ⟨d.origin.remade, names.apply d.name, d.init⟩⟩
  | ⟨.catchClause, c⟩ => ⟨.catchClause, ⟨c.origin.remade, names.apply c.name, c.body⟩⟩
  | n => n

end Node

namespace Rename

/-- The name is an old name of the table. -/
def Names.isKey (names : Names) (name : String) : Bool := (names.lookup name).isSome

variable (names : Names)

theorem take_fst (name : String) (t : Tally) : (take names name t).1 = names.lookup name := by
  unfold take
  cases names.lookup name <;> rfl

theorem take_of_not_isKey {name : String} (h : names.isKey name = false) (t : Tally) :
    take names name t = (none, t) := by
  rw [Names.isKey, Option.isSome_eq_false_iff, Option.isNone_iff_eq_none] at h
  rw [take, h]
  rfl

theorem takeEach_fst (ns : List String) (t : Tally) :
    (takeEach names ns t).1 = ns.map (names.lookup ·) := by
  induction ns generalizing t with
  | nil => rfl
  | cons n ns ih =>
    change (take names n t).1 :: (takeEach names ns (take names n t).2).1 = _
    rw [take_fst, ih, List.map_cons]

theorem takeEach_of_not_isKey {ns : List String} (h : ∀ n ∈ ns, names.isKey n = false)
    (t : Tally) : takeEach names ns t = (ns.map (names.lookup ·), t) := by
  induction ns generalizing t with
  | nil => rfl
  | cons n ns ih =>
    obtain ⟨hn, hns⟩ := List.forall_mem_cons.1 h
    have hrest := ih hns t
    have htake := take_of_not_isKey names hn t
    apply Prod.ext (takeEach_fst names (n :: ns) t)
    change (takeEach names ns (take names n t).2).2 = t
    rw [htake, hrest]

theorem choose_lookup (ns : List String) :
    choose ns (ns.map (names.lookup ·)) = ns.map names.apply := by
  rw [choose, List.zipWith_map_right, List.zipWith_self]
  rfl

theorem any_lookup (ns : List String) :
    (ns.map (names.lookup ·)).any Option.isSome = ns.any names.isKey := by
  rw [List.any_map]
  rfl

theorem exprShape_fst (e : ExprShape Origin) (t : Tally) :
    (exprShape names e t).1 =
      if e.names.any names.isKey then some (e.rename names) else none := by
  cases e
  case identifier n =>
    change (take names n t).1.map _ = _
    rw [take_fst]
    simp only [ExprShape.names, List.any_cons, List.any_nil, Bool.or_false, Names.isKey,
      ExprShape.rename, Names.apply]
    cases names.lookup n <;> rfl
  case function ps b n =>
    cases n with
    | none =>
      change (if (takeEach names ps t).1.any Option.isSome
        then some (ExprShape.function (choose ps (takeEach names ps t).1) b none) else none) = _
      rw [takeEach_fst, any_lookup, choose_lookup]
      rfl
    | some n =>
      rcases hn : take names n t with ⟨n', t'⟩
      rcases hps : takeEach names ps t' with ⟨ps', t''⟩
      obtain rfl : names.lookup n = n' := by rw [← take_fst names n t, hn]
      obtain rfl : ps.map (names.lookup ·) = ps' := by rw [← takeEach_fst names ps t', hps]
      have hname : (names.lookup n <|> some n) = some (names.apply n) := by
        rw [Names.apply]
        cases names.lookup n <;> rfl
      simp only [exprShape, bind, StateT.bind, hn, hps]
      rw [any_lookup, choose_lookup, hname]
      rfl
  all_goals rfl

theorem stmtShape_fst (s : StmtShape Origin) (t : Tally) :
    (stmtShape names s t).1 =
      if s.names.any names.isKey then some (s.rename names) else none := by
  cases s
  case forIn n x b d =>
    change (take names n t).1.map _ = _
    rw [take_fst]
    simp only [StmtShape.names, List.any_cons, List.any_nil, Bool.or_false, Names.isKey,
      StmtShape.rename, Names.apply]
    cases names.lookup n <;> rfl
  case function n ps b =>
    rcases hn : take names n t with ⟨n', t'⟩
    rcases hps : takeEach names ps t' with ⟨ps', t''⟩
    obtain rfl : names.lookup n = n' := by rw [← take_fst names n t, hn]
    obtain rfl : ps.map (names.lookup ·) = ps' := by rw [← takeEach_fst names ps t', hps]
    simp only [stmtShape, bind, StateT.bind, hn, hps]
    rw [any_lookup, choose_lookup]
    rfl
  all_goals rfl

theorem exprShape_of_not_isKey {e : ExprShape Origin} (h : ∀ n ∈ e.names, names.isKey n = false)
    (t : Tally) : exprShape names e t = (none, t) := by
  apply Prod.ext
  · rw [exprShape_fst, if_neg (by simpa using h)]
  · cases e
    case identifier n =>
      have hn := h n List.mem_cons_self
      change (take names n t).2 = t
      rw [take_of_not_isKey names hn]
    case function ps b n =>
      have hps := fun x hx => h x (List.mem_append_right n.toList hx)
      cases n with
      | none =>
        change (takeEach names ps t).2 = t
        rw [takeEach_of_not_isKey names hps]
      | some n =>
        have hn := h n List.mem_cons_self
        change (takeEach names ps (take names n t).2).2 = t
        rw [take_of_not_isKey names hn, takeEach_of_not_isKey names hps]
    all_goals rfl

theorem stmtShape_of_not_isKey {s : StmtShape Origin} (h : ∀ n ∈ s.names, names.isKey n = false)
    (t : Tally) : stmtShape names s t = (none, t) := by
  apply Prod.ext
  · rw [stmtShape_fst, if_neg (by simpa using h)]
  · cases s
    case forIn n x b d =>
      have hn := h n List.mem_cons_self
      change (take names n t).2 = t
      rw [take_of_not_isKey names hn]
    case function n ps b =>
      have hn := h n List.mem_cons_self
      have hps := fun x hx => h x (List.mem_cons_of_mem n hx)
      change (takeEach names ps (take names n t).2).2 = t
      rw [take_of_not_isKey names hn, takeEach_of_not_isKey names hps]
    all_goals rfl

/-- What renaming answers for an object whose parts are answered. -/
theorem visit_fst (k : Kind) (x : Object Origin k) (walk : StateM Tally (Object Origin k))
    (t : Tally) :
    (⟨k, ((transform names).visit k x walk t).1⟩ : Node Origin) =
      if (Node.names ⟨k, (walk t).1⟩).any names.isKey then Node.rename names ⟨k, (walk t).1⟩
      else ⟨k, (walk t).1⟩ := by
  cases k
  case expr =>
    rcases hw : walk t with ⟨z, t'⟩
    have h := exprShape_fst names z.shape t'
    rcases hs : exprShape names z.shape t' with ⟨r, t''⟩
    simp only [transform, bind, StateT.bind, hw, hs] at h ⊢
    rw [h, Node.names_expr]
    split <;> rfl
  case stmt =>
    rcases hw : walk t with ⟨z, t'⟩
    cases z with
    | block b =>
      simp only [transform, bind, StateT.bind, hw]
      rfl
    | node o z =>
      have h := stmtShape_fst names z t'
      rcases hs : stmtShape names z t' with ⟨r, t''⟩
      simp only [transform, bind, StateT.bind, hw, hs] at h ⊢
      rw [h, Node.names_stmt]
      split <;> rfl
  case declaration =>
    rcases hw : walk t with ⟨z, t'⟩
    have h := take_fst names z.name t'
    rcases hs : take names z.name t' with ⟨r, t''⟩
    simp only [transform, bind, StateT.bind, hw, hs] at h ⊢
    rw [h]
    simp only [Node.names, Node.own, Node.head, Node.rename, List.any_cons, List.any_nil, Bool.or_false,
      Names.isKey, Names.apply]
    cases names.lookup z.name <;> rfl
  case catchClause =>
    rcases hw : walk t with ⟨z, t'⟩
    have h := take_fst names z.name t'
    rcases hs : take names z.name t' with ⟨r, t''⟩
    simp only [transform, bind, StateT.bind, hw, hs] at h ⊢
    rw [h]
    simp only [Node.names, Node.own, Node.head, Node.rename, List.any_cons, List.any_nil, Bool.or_false,
      Names.isKey, Names.apply]
    cases names.lookup z.name <;> rfl
  case label =>
    rw [Node.names_label]
    rfl
  all_goals rfl

/-- Nothing is renamed or logged at an object without old names. -/
theorem visit_of_not_isKey (k : Kind) (x : Object Origin k) (walk : StateM Tally (Object Origin k))
    {t : Tally} (hwalk : walk t = (x, t)) (h : ∀ n ∈ Node.names ⟨k, x⟩, names.isKey n = false) :
    (transform names).visit k x walk t = (x, t) := by
  cases k
  case expr =>
    rw [Node.names_expr] at h
    simp only [transform, bind, StateT.bind, hwalk, exprShape_of_not_isKey names h]
    rfl
  case stmt =>
    cases x with
    | block b =>
      simp only [transform, bind, StateT.bind, hwalk]
      rfl
    | node o s =>
      rw [Node.names_stmt] at h
      simp only [transform, bind, StateT.bind, hwalk, stmtShape_of_not_isKey names h]
      rfl
  case declaration | catchClause =>
    have hn := h x.name List.mem_cons_self
    simp only [transform, bind, StateT.bind, hwalk, take_of_not_isKey names hn]
    rfl
  all_goals exact hwalk

end Rename

namespace Node

variable {names : Names}

theorem rename_parts (n : Node Origin) : (n.rename names).parts = n.parts := by
  obtain ⟨k, x⟩ := n
  cases k
  case expr => rcases x with ⟨_, _ | _⟩ <;> rfl
  case stmt => rcases x with _ | ⟨_, _ | _⟩ <;> rfl
  case label => cases x <;> rfl
  all_goals rfl

theorem rename_kind (n : Node Origin) : (n.rename names).kind = n.kind := by
  obtain ⟨k, x⟩ := n
  cases k
  case stmt => cases x <;> rfl
  all_goals rfl

theorem rename_names (n : Node Origin) : (n.rename names).names = n.names.map names.apply := by
  obtain ⟨k, x⟩ := n
  cases k
  case expr =>
    obtain ⟨o, s⟩ := x
    cases s <;> try rfl
    rename_i ps b n
    cases n
    · rfl
    · simp [rename, names_expr, ExprShape.names, ExprShape.rename]
  case stmt => rcases x with _ | ⟨_, _ | _⟩ <;> rfl
  case label => cases x <;> rfl
  all_goals rfl

/-- Only objects with names are copied. -/
theorem rename_origin? {n : Node Origin} (h : n.names ≠ []) :
    (n.rename names).origin? = n.origin?.map .remade := by
  obtain ⟨k, x⟩ := n
  cases k <;> try exact absurd rfl h
  case stmt =>
    cases x with
    | block b => exact absurd rfl h
    | node o s => rfl
  case label => exact absurd (names_label x) h
  all_goals rfl

end Node

end ScriptTree
