import ScriptTree.Object

namespace ScriptTree

namespace Relabel

variable {m : Type → Type} [Monad m] {ι κ : Type}

mutual

def expr (f : ι → m κ) : Expr ι → m (Expr κ)
  | ⟨o, s⟩ => return ⟨← f o, ← exprShape f s⟩

def exprShape (f : ι → m κ) : ExprShape ι → m (ExprShape κ)
  | .array es => return .array (← exprs f es)
  | .binary op l r => return .binary op (← expr f l) (← expr f r)
  | .comma es => return .comma (← exprs f es)
  | .conditional c t e => return .conditional (← expr f c) (← expr f t) (← expr f e)
  | .constant c => return .constant c
  | .function ps b n => return .function ps (← block f b) n
  | .identifier n => return .identifier n
  | .call c es => return .call (← expr f c) (← exprs f es)
  | .object ps => return .object (← properties f ps)
  | .member t n => return .member (← expr f t) n
  | .construct c es => return .construct (← expr f c) (← exprs f es)
  | .unary op x => return .unary op (← expr f x)
  | .typeReference n => return .typeReference n
  | .this => return .this
  | .literal t es => return .literal t (← exprs f es)

def property (f : ι → m κ) : Property ι → m (Property κ)
  | ⟨o, n, v⟩ => return ⟨← f o, n, ← expr f v⟩

def block (f : ι → m κ) : Block ι → m (Block κ)
  | ⟨o, ss⟩ => return ⟨← f o, ← stmts f ss⟩

def stmt (f : ι → m κ) : Stmt ι → m (Stmt κ)
  | .block b => return .block (← block f b)
  | .node o s => return .node (← f o) (← stmtShape f s)

def stmtShape (f : ι → m κ) : StmtShape ι → m (StmtShape κ)
  | .breakTo l => return .breakTo l
  | .continueTo l => return .continueTo l
  | .comment t => return .comment t
  | .doWhile c b => return .doWhile (← expr f c) (← block f b)
  | .empty => return .empty
  | .expression e => return .expression (← expr f e)
  | .forIn n x b d => return .forIn n (← expr f x) (← stmt f b) d
  | .forLoop i c t b => return .forLoop (← stmt? f i) (← expr? f c) (← expr? f t) (← block f b)
  | .ifElse c t e => return .ifElse (← expr f c) (← block f t) (← block? f e)
  | .ret v => return .ret (← expr? f v)
  | .switch d ss => return .switch (← expr f d) (← sections f ss)
  | .throw e => return .throw (← expr f e)
  | .tryCatch b h c => return .tryCatch (← block f b) (← catchClause? f h) (← block? f c)
  | .vars ds => return .vars (← declarations f ds)
  | .whileLoop c b => return .whileLoop (← expr f c) (← block f b)
  | .withObject x b => return .withObject (← expr f x) (← stmt f b)
  | .labelled l s => return .labelled l (← stmt f s)
  | .function n ps b => return .function n ps (← block f b)
  | .goto l => return .goto l
  | .yield v => return .yield (← expr? f v)

def declaration (f : ι → m κ) : Declaration ι → m (Declaration κ)
  | ⟨o, n, v⟩ => return ⟨← f o, n, ← expr? f v⟩

def caseSection (f : ι → m κ) : Section ι → m (Section κ)
  | ⟨o, ls, b⟩ => return ⟨← f o, ← labels f ls, ← block f b⟩

def catchClause (f : ι → m κ) : CatchClause ι → m (CatchClause κ)
  | ⟨o, n, b⟩ => return ⟨← f o, n, ← block f b⟩

def label (f : ι → m κ) : CaseLabel ι → m (CaseLabel κ)
  | .value e => return .value (← expr f e)
  | .default => return .default

def exprs (f : ι → m κ) : NodeList ι (Expr ι) → m (NodeList κ (Expr κ))
  | ⟨o, es⟩ => return ⟨← f o, ← eachExpr f es⟩

def properties (f : ι → m κ) : NodeList ι (Property ι) → m (NodeList κ (Property κ))
  | ⟨o, ps⟩ => return ⟨← f o, ← eachProperty f ps⟩

def stmts (f : ι → m κ) : Program ι → m (Program κ)
  | ⟨o, ss⟩ => return ⟨← f o, ← eachStmt f ss⟩

def declarations (f : ι → m κ) : NodeList ι (Declaration ι) → m (NodeList κ (Declaration κ))
  | ⟨o, ds⟩ => return ⟨← f o, ← eachDeclaration f ds⟩

def sections (f : ι → m κ) : NodeList ι (Section ι) → m (NodeList κ (Section κ))
  | ⟨o, ss⟩ => return ⟨← f o, ← eachSection f ss⟩

def labels (f : ι → m κ) : NodeList ι (CaseLabel ι) → m (NodeList κ (CaseLabel κ))
  | ⟨o, ls⟩ => return ⟨← f o, ← eachLabel f ls⟩

def eachExpr (f : ι → m κ) : List (Expr ι) → m (List (Expr κ))
  | [] => return []
  | e :: es => return (← expr f e) :: (← eachExpr f es)

def eachProperty (f : ι → m κ) : List (Property ι) → m (List (Property κ))
  | [] => return []
  | p :: ps => return (← property f p) :: (← eachProperty f ps)

def eachStmt (f : ι → m κ) : List (Stmt ι) → m (List (Stmt κ))
  | [] => return []
  | s :: ss => return (← stmt f s) :: (← eachStmt f ss)

def eachDeclaration (f : ι → m κ) : List (Declaration ι) → m (List (Declaration κ))
  | [] => return []
  | d :: ds => return (← declaration f d) :: (← eachDeclaration f ds)

def eachSection (f : ι → m κ) : List (Section ι) → m (List (Section κ))
  | [] => return []
  | s :: ss => return (← caseSection f s) :: (← eachSection f ss)

def eachLabel (f : ι → m κ) : List (CaseLabel ι) → m (List (CaseLabel κ))
  | [] => return []
  | l :: ls => return (← label f l) :: (← eachLabel f ls)

def expr? (f : ι → m κ) : Option (Expr ι) → m (Option (Expr κ))
  | none => return none
  | some e => return some (← expr f e)

def stmt? (f : ι → m κ) : Option (Stmt ι) → m (Option (Stmt κ))
  | none => return none
  | some s => return some (← stmt f s)

def block? (f : ι → m κ) : Option (Block ι) → m (Option (Block κ))
  | none => return none
  | some b => return some (← block f b)

def catchClause? (f : ι → m κ) : Option (CatchClause ι) → m (Option (CatchClause κ))
  | none => return none
  | some c => return some (← catchClause f c)

end

def object (f : ι → m κ) : (k : Kind) → Object ι k → m (Object κ k)
  | .expr => expr f
  | .stmt => stmt f
  | .block => block f
  | .property => property f
  | .declaration => declaration f
  | .caseSection => caseSection f
  | .catchClause => catchClause f
  | .label => label f
  | .exprs => exprs f
  | .stmts => stmts f
  | .properties => properties f
  | .declarations => declarations f
  | .sections => sections f
  | .labels => labels f

end Relabel

end ScriptTree
