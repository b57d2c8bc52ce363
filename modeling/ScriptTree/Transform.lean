import ScriptTree.Object

namespace ScriptTree

/-- The origins of the children a shape is built from, in order. -/
def ExprShape.children : ExprShape Origin → List (Option Origin)
  | .array es | .comma es | .literal _ es => [origin? es]
  | .binary _ l r => [origin? l, origin? r]
  | .conditional c t f => [origin? c, origin? t, origin? f]
  | .function _ b _ => [origin? b]
  | .call c es | .construct c es => [origin? c, origin? es]
  | .object ps => [origin? ps]
  | .member t _ => [origin? t]
  | .unary _ x => [origin? x]
  | .constant _ | .identifier _ | .typeReference _ | .this => []

def StmtShape.children : StmtShape Origin → List (Option Origin)
  | .doWhile c b | .whileLoop c b => [origin? c, origin? b]
  | .expression e | .throw e => [origin? e]
  | .forIn _ x b _ | .withObject x b => [origin? x, origin? b]
  | .forLoop i c t b => [origin? i, origin? c, origin? t, origin? b]
  | .ifElse c t e => [origin? c, origin? t, origin? e]
  | .ret v | .yield v => [origin? v]
  | .switch d ss => [origin? d, origin? ss]
  | .tryCatch b h c => [origin? b, origin? h, origin? c]
  | .vars ds => [origin? ds]
  | .labelled _ s => [origin? s]
  | .function _ _ b => [origin? b]
  | .breakTo _ | .continueTo _ | .comment _ | .empty | .goto _ => []

/-- The expression with its children answered: itself where every child is the same instance, else a
copy around the answers. -/
def Expr.update (e : Expr Origin) (shape : ExprShape Origin) : Expr Origin :=
  if shape.children = e.shape.children then e else ⟨e.origin.remade, shape⟩

def Property.update (p : Property Origin) (value : Expr Origin) : Property Origin :=
  if same value p.value then p else ⟨p.origin.remade, p.name, value⟩

def Block.update (b : Block Origin) (statements : Program Origin) : Block Origin :=
  if same statements b.statements then b else ⟨b.origin.remade, statements⟩

def Stmt.update (o : Origin) (before shape : StmtShape Origin) : Stmt Origin :=
  if shape.children = before.children then .node o before else .node o.remade shape

def Declaration.update (d : Declaration Origin) (init : Option (Expr Origin)) :
    Declaration Origin :=
  if same init d.init then d else ⟨d.origin.remade, d.name, init⟩

def Section.update (s : Section Origin) (labels : NodeList Origin (CaseLabel Origin))
    (body : Block Origin) : Section Origin :=
  if same labels s.labels && same body s.body then s else ⟨s.origin.remade, labels, body⟩

def CatchClause.update (c : CatchClause Origin) (body : Block Origin) : CatchClause Origin :=
  if same body c.body then c else ⟨c.origin.remade, c.name, body⟩

/-- A transform answers every place of a tree, given what stands there and the traversal that is
still to be run below it. The traversal answers the children in order, and then the object itself
where no child changed. A block that stands as a statement is visited as a block. -/
structure Transform (σ : Type) where
  visit : (k : Kind) → Object Origin k → StateM σ (Object Origin k) → StateM σ (Object Origin k)

namespace Transform

variable {σ : Type}

mutual

def expr (T : Transform σ) : Expr Origin → StateM σ (Expr Origin)
  | ⟨o, s⟩ => T.visit .expr ⟨o, s⟩ (Expr.update ⟨o, s⟩ <$> T.exprShape s)

def exprShape (T : Transform σ) : ExprShape Origin → StateM σ (ExprShape Origin)
  | .array es => return .array (← T.exprs es)
  | .binary op l r => return .binary op (← T.expr l) (← T.expr r)
  | .comma es => return .comma (← T.exprs es)
  | .conditional c t f => return .conditional (← T.expr c) (← T.expr t) (← T.expr f)
  | .constant c => return .constant c
  | .function ps b n => return .function ps (← T.block b) n
  | .identifier n => return .identifier n
  | .call c es => return .call (← T.expr c) (← T.exprs es)
  | .object ps => return .object (← T.properties ps)
  | .member t n => return .member (← T.expr t) n
  | .construct c es => return .construct (← T.expr c) (← T.exprs es)
  | .unary op x => return .unary op (← T.expr x)
  | .typeReference n => return .typeReference n
  | .this => return .this
  | .literal f es => return .literal f (← T.exprs es)

def property (T : Transform σ) : Property Origin → StateM σ (Property Origin)
  | ⟨o, n, v⟩ => T.visit .property ⟨o, n, v⟩ (Property.update ⟨o, n, v⟩ <$> T.expr v)

def block (T : Transform σ) : Block Origin → StateM σ (Block Origin)
  | ⟨o, ss⟩ => T.visit .block ⟨o, ss⟩ (Block.update ⟨o, ss⟩ <$> T.stmts ss)

def stmt (T : Transform σ) : Stmt Origin → StateM σ (Stmt Origin)
  | .block b => Stmt.block <$> T.block b
  | .node o s => T.visit .stmt (.node o s) (Stmt.update o s <$> T.stmtShape s)

def stmtShape (T : Transform σ) : StmtShape Origin → StateM σ (StmtShape Origin)
  | .breakTo l => return .breakTo l
  | .continueTo l => return .continueTo l
  | .comment t => return .comment t
  | .doWhile c b => return .doWhile (← T.expr c) (← T.block b)
  | .empty => return .empty
  | .expression e => return .expression (← T.expr e)
  | .forIn n x b d => return .forIn n (← T.expr x) (← T.stmt b) d
  | .forLoop i c t b => return .forLoop (← T.stmt? i) (← T.expr? c) (← T.expr? t) (← T.block b)
  | .ifElse c t e => return .ifElse (← T.expr c) (← T.block t) (← T.block? e)
  | .ret v => return .ret (← T.expr? v)
  | .switch d ss => return .switch (← T.expr d) (← T.sections ss)
  | .throw e => return .throw (← T.expr e)
  | .tryCatch b h c => return .tryCatch (← T.block b) (← T.catchClause? h) (← T.block? c)
  | .vars ds => return .vars (← T.declarations ds)
  | .whileLoop c b => return .whileLoop (← T.expr c) (← T.block b)
  | .withObject x b => return .withObject (← T.expr x) (← T.stmt b)
  | .labelled l s => return .labelled l (← T.stmt s)
  | .function n ps b => return .function n ps (← T.block b)
  | .goto l => return .goto l
  | .yield v => return .yield (← T.expr? v)

def declaration (T : Transform σ) : Declaration Origin → StateM σ (Declaration Origin)
  | ⟨o, n, v⟩ => T.visit .declaration ⟨o, n, v⟩ (Declaration.update ⟨o, n, v⟩ <$> T.expr? v)

def caseSection (T : Transform σ) : Section Origin → StateM σ (Section Origin)
  | ⟨o, ls, b⟩ => T.visit .caseSection ⟨o, ls, b⟩
      (return Section.update ⟨o, ls, b⟩ (← T.labels ls) (← T.block b))

def catchClause (T : Transform σ) : CatchClause Origin → StateM σ (CatchClause Origin)
  | ⟨o, n, b⟩ => T.visit .catchClause ⟨o, n, b⟩ (CatchClause.update ⟨o, n, b⟩ <$> T.block b)

def label (T : Transform σ) : CaseLabel Origin → StateM σ (CaseLabel Origin)
  | .value e => T.visit .label (.value e) (CaseLabel.value <$> T.expr e)
  | .default => T.visit .label .default (return .default)

def exprs (T : Transform σ) :
    NodeList Origin (Expr Origin) → StateM σ (NodeList Origin (Expr Origin))
  | ⟨o, es⟩ => T.visit .exprs ⟨o, es⟩ (NodeList.update ⟨o, es⟩ <$> T.eachExpr es)

def properties (T : Transform σ) :
    NodeList Origin (Property Origin) → StateM σ (NodeList Origin (Property Origin))
  | ⟨o, ps⟩ => T.visit .properties ⟨o, ps⟩ (NodeList.update ⟨o, ps⟩ <$> T.eachProperty ps)

def stmts (T : Transform σ) : Program Origin → StateM σ (Program Origin)
  | ⟨o, ss⟩ => T.visit .stmts ⟨o, ss⟩ (NodeList.update ⟨o, ss⟩ <$> T.eachStmt ss)

def declarations (T : Transform σ) :
    NodeList Origin (Declaration Origin) → StateM σ (NodeList Origin (Declaration Origin))
  | ⟨o, ds⟩ => T.visit .declarations ⟨o, ds⟩ (NodeList.update ⟨o, ds⟩ <$> T.eachDeclaration ds)

def sections (T : Transform σ) :
    NodeList Origin (Section Origin) → StateM σ (NodeList Origin (Section Origin))
  | ⟨o, ss⟩ => T.visit .sections ⟨o, ss⟩ (NodeList.update ⟨o, ss⟩ <$> T.eachSection ss)

def labels (T : Transform σ) :
    NodeList Origin (CaseLabel Origin) → StateM σ (NodeList Origin (CaseLabel Origin))
  | ⟨o, ls⟩ => T.visit .labels ⟨o, ls⟩ (NodeList.update ⟨o, ls⟩ <$> T.eachLabel ls)

def eachExpr (T : Transform σ) : List (Expr Origin) → StateM σ (List (Expr Origin))
  | [] => return []
  | e :: es => return (← T.expr e) :: (← T.eachExpr es)

def eachProperty (T : Transform σ) : List (Property Origin) → StateM σ (List (Property Origin))
  | [] => return []
  | p :: ps => return (← T.property p) :: (← T.eachProperty ps)

def eachStmt (T : Transform σ) : List (Stmt Origin) → StateM σ (List (Stmt Origin))
  | [] => return []
  | s :: ss => return (← T.stmt s) :: (← T.eachStmt ss)

def eachDeclaration (T : Transform σ) :
    List (Declaration Origin) → StateM σ (List (Declaration Origin))
  | [] => return []
  | d :: ds => return (← T.declaration d) :: (← T.eachDeclaration ds)

def eachSection (T : Transform σ) : List (Section Origin) → StateM σ (List (Section Origin))
  | [] => return []
  | s :: ss => return (← T.caseSection s) :: (← T.eachSection ss)

def eachLabel (T : Transform σ) : List (CaseLabel Origin) → StateM σ (List (CaseLabel Origin))
  | [] => return []
  | l :: ls => return (← T.label l) :: (← T.eachLabel ls)

def expr? (T : Transform σ) : Option (Expr Origin) → StateM σ (Option (Expr Origin))
  | none => return none
  | some e => some <$> T.expr e

def stmt? (T : Transform σ) : Option (Stmt Origin) → StateM σ (Option (Stmt Origin))
  | none => return none
  | some s => some <$> T.stmt s

def block? (T : Transform σ) : Option (Block Origin) → StateM σ (Option (Block Origin))
  | none => return none
  | some b => some <$> T.block b

def catchClause? (T : Transform σ) :
    Option (CatchClause Origin) → StateM σ (Option (CatchClause Origin))
  | none => return none
  | some c => some <$> T.catchClause c

end

/-- The transform of whatever stands at a place. -/
def object (T : Transform σ) : (k : Kind) → Object Origin k → StateM σ (Object Origin k)
  | .expr => T.expr
  | .stmt => T.stmt
  | .block => T.block
  | .property => T.property
  | .declaration => T.declaration
  | .caseSection => T.caseSection
  | .catchClause => T.catchClause
  | .label => T.label
  | .exprs => T.exprs
  | .stmts => T.stmts
  | .properties => T.properties
  | .declarations => T.declarations
  | .sections => T.sections
  | .labels => T.labels

/-- The transform that runs every traversal and answers nothing of its own. -/
def identity (σ : Type) : Transform σ where
  visit _ _ walk := walk

end Transform

end ScriptTree
