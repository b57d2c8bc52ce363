import ScriptTree.Operator
import ScriptTree.Origin

namespace ScriptTree

inductive Constant where
  | null
  | bool (value : Bool)
  | number (value : Float)
  | string (value : String)
  | regexp (pattern flags : String)
  deriving DecidableEq

mutual

/-- An expression is an object with a shape; `ι` is what identifies the objects, and `Unit` where
nothing does. -/
structure Expr (ι : Type) where
  origin : ι
  shape : ExprShape ι

inductive ExprShape (ι : Type) where
  | array (elements : NodeList ι (Expr ι))
  | binary (op : BinaryOp) (left right : Expr ι)
  | comma (expressions : NodeList ι (Expr ι))
  | conditional (test whenTrue whenFalse : Expr ι)
  | constant (value : Constant)
  | function (params : List String) (body : Block ι) (name : Option String)
  | identifier (name : String)
  | call (callee : Expr ι) (args : NodeList ι (Expr ι))
  | object (properties : NodeList ι (Property ι))
  | member (target : Expr ι) (name : String)
  | construct (callee : Expr ι) (args : NodeList ι (Expr ι))
  | unary (op : UnaryOp) (operand : Expr ι)
  | typeReference (name : String)
  | this
  | literal (format : String) (args : NodeList ι (Expr ι))

structure Property (ι : Type) where
  origin : ι
  name : String
  value : Expr ι

structure Block (ι : Type) where
  origin : ι
  statements : NodeList ι (Stmt ι)

/-- A block that stands as a statement is that block, not a second object around it. -/
inductive Stmt (ι : Type) where
  | block (block : Block ι)
  | node (origin : ι) (shape : StmtShape ι)

inductive StmtShape (ι : Type) where
  | breakTo (label : Option String)
  | continueTo (label : Option String)
  | comment (text : String)
  | doWhile (condition : Expr ι) (body : Block ι)
  | empty
  | expression (value : Expr ι)
  | forIn (name : String) (object : Expr ι) (body : Stmt ι) (declares : Bool)
  | forLoop (init : Option (Stmt ι)) (condition step : Option (Expr ι)) (body : Block ι)
  | ifElse (test : Expr ι) (thenBranch : Block ι) (elseBranch : Option (Block ι))
  | ret (value : Option (Expr ι))
  | switch (discriminant : Expr ι) (sections : NodeList ι (Section ι))
  | throw (value : Expr ι)
  | tryCatch (guarded : Block ι) (handler : Option (CatchClause ι)) (cleanup : Option (Block ι))
  | vars (declarations : NodeList ι (Declaration ι))
  | whileLoop (condition : Expr ι) (body : Block ι)
  | withObject (object : Expr ι) (body : Stmt ι)
  | labelled (label : String) (statement : Stmt ι)
  | function (name : String) (params : List String) (body : Block ι)
  | goto (label : String)
  | yield (value : Option (Expr ι))

structure Declaration (ι : Type) where
  origin : ι
  name : String
  init : Option (Expr ι)

structure Section (ι : Type) where
  origin : ι
  labels : NodeList ι (CaseLabel ι)
  body : Block ι

structure CatchClause (ι : Type) where
  origin : ι
  name : String
  body : Block ι

/-- A case label is no object; only the expression inside it is. -/
inductive CaseLabel (ι : Type) where
  | value (value : Expr ι)
  | default

end

abbrev Program (ι : Type) := NodeList ι (Stmt ι)

variable {ι : Type}

def Stmt.origin : Stmt ι → ι
  | .block b => b.origin
  | .node o _ => o

instance : Placed (Expr Origin) := ⟨fun e => some e.origin⟩
instance : Placed (Property Origin) := ⟨fun p => some p.origin⟩
instance : Placed (Block Origin) := ⟨fun b => some b.origin⟩
instance : Placed (Stmt Origin) := ⟨fun s => some s.origin⟩
instance : Placed (Declaration Origin) := ⟨fun d => some d.origin⟩
instance : Placed (Section Origin) := ⟨fun s => some s.origin⟩
instance : Placed (CatchClause Origin) := ⟨fun c => some c.origin⟩

instance : Placed (CaseLabel Origin) where
  origin?
    | .value e => some e.origin
    | .default => none

def Expr.asConstant? (e : Expr ι) : Option Constant :=
  match e.shape with
  | .constant c => some c
  | _ => none

def Expr.asIdentifier? (e : Expr ι) : Option String :=
  match e.shape with
  | .identifier n => some n
  | _ => none

def Section.hasDefault (s : Section ι) : Bool :=
  s.labels.items.any fun
    | .default => true
    | .value _ => false

end ScriptTree
