import ScriptTree.Tree

namespace ScriptTree

/-- The sorts of places in a tree that a traversal stops at. -/
inductive Kind where
  | expr | stmt | block | property | declaration | caseSection | catchClause | label
  | exprs | stmts | properties | declarations | sections | labels
  deriving DecidableEq, Repr

/-- What stands at a place of each kind. -/
abbrev Object (ι : Type) : Kind → Type
  | .expr => Expr ι
  | .stmt => Stmt ι
  | .block => Block ι
  | .property => Property ι
  | .declaration => Declaration ι
  | .caseSection => Section ι
  | .catchClause => CatchClause ι
  | .label => CaseLabel ι
  | .exprs => NodeList ι (Expr ι)
  | .stmts => NodeList ι (Stmt ι)
  | .properties => NodeList ι (Property ι)
  | .declarations => NodeList ι (Declaration ι)
  | .sections => NodeList ι (Section ι)
  | .labels => NodeList ι (CaseLabel ι)

namespace Object

/-- The object's own origin; a case label is no object and has none. -/
def origin? {ι : Type} : (k : Kind) → Object ι k → Option ι
  | .expr, e => some e.origin
  | .stmt, s => some s.origin
  | .block, b => some b.origin
  | .property, p => some p.origin
  | .declaration, d => some d.origin
  | .caseSection, s => some s.origin
  | .catchClause, c => some c.origin
  | .label, _ => none
  | .exprs, l => some l.origin
  | .stmts, l => some l.origin
  | .properties, l => some l.origin
  | .declarations, l => some l.origin
  | .sections, l => some l.origin
  | .labels, l => some l.origin

/-- The two are one instance. -/
def same (k : Kind) (x y : Object Origin k) : Bool := origin? k x = origin? k y

/-- A shallow copy: a new object over the same children. -/
def copy : (k : Kind) → Object Origin k → Object Origin k
  | .expr, e => ⟨e.origin.remade, e.shape⟩
  | .stmt, .block b => .block ⟨b.origin.remade, b.statements⟩
  | .stmt, .node o s => .node o.remade s
  | .block, b => ⟨b.origin.remade, b.statements⟩
  | .property, p => ⟨p.origin.remade, p.name, p.value⟩
  | .declaration, d => ⟨d.origin.remade, d.name, d.init⟩
  | .caseSection, s => ⟨s.origin.remade, s.labels, s.body⟩
  | .catchClause, c => ⟨c.origin.remade, c.name, c.body⟩
  | .label, l => l
  | .exprs, l => ⟨l.origin.remade, l.items⟩
  | .stmts, l => ⟨l.origin.remade, l.items⟩
  | .properties, l => ⟨l.origin.remade, l.items⟩
  | .declarations, l => ⟨l.origin.remade, l.items⟩
  | .sections, l => ⟨l.origin.remade, l.items⟩
  | .labels, l => ⟨l.origin.remade, l.items⟩

end Object

end ScriptTree
