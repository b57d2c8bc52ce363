import ScriptTree.Transform

namespace ScriptTree

variable {ι : Type}

def ExprShape.name : ExprShape ι → String
  | .array _ => "array_literal"
  | .binary .. => "binary"
  | .comma _ => "comma"
  | .conditional .. => "conditional"
  | .constant _ => "constant"
  | .function .. => "function"
  | .identifier _ => "identifier"
  | .call .. => "invocation"
  | .object _ => "object_literal"
  | .member .. => "member_access"
  | .construct .. => "new"
  | .unary .. => "unary"
  | .typeReference _ => "type_reference"
  | .this => "this"
  | .literal .. => "literal"

def StmtShape.name : StmtShape ι → String
  | .breakTo _ => "break"
  | .continueTo _ => "continue"
  | .comment _ => "comment"
  | .doWhile .. => "do_while"
  | .empty => "empty"
  | .expression _ => "expression_stmt"
  | .forIn .. => "for_each_in"
  | .forLoop .. => "for"
  | .ifElse .. => "if"
  | .ret _ => "return"
  | .switch .. => "switch"
  | .throw _ => "throw"
  | .tryCatch .. => "try"
  | .vars _ => "variable_declaration_stmt"
  | .whileLoop .. => "while"
  | .withObject .. => "with"
  | .labelled .. => "labelled"
  | .function .. => "function_stmt"
  | .goto _ => "goto"
  | .yield _ => "yield"

/-- One line of the log: an object by the name of its sort, or a case label in front of its
expression. -/
inductive Call where
  | object (name : String) (origin : Origin)
  | label (isDefault : Bool)
  deriving DecidableEq, Repr

/-- The line logged for what stands at a place; the list of the labels of a section has none. -/
def Call.of? : (k : Kind) → Object Origin k → Option Call
  | .expr, e => some (.object e.shape.name e.origin)
  | .stmt, .block b => some (.object "block" b.origin)
  | .stmt, .node o s => some (.object s.name o)
  | .block, b => some (.object "block" b.origin)
  | .property, p => some (.object "object_property" p.origin)
  | .declaration, d => some (.object "variable_declaration" d.origin)
  | .caseSection, s => some (.object "switch_section" s.origin)
  | .catchClause, c => some (.object "catch_clause" c.origin)
  | .label, .value _ => some (.label false)
  | .label, .default => some (.label true)
  | .exprs, l => some (.object "expressions" l.origin)
  | .stmts, l => some (.object "statements" l.origin)
  | .properties, l => some (.object "object_properties" l.origin)
  | .declarations, l => some (.object "variable_declarations" l.origin)
  | .sections, l => some (.object "switch_sections" l.origin)
  | .labels, _ => none

/-- Which expressions are replaced, which objects are answered as they are, and which are copied after
the traversal below them. -/
structure Edits where
  replacement? : Origin → Option (Expr Origin)
  isPruned : Origin → Bool
  isTouched : (name : String) → Origin → Bool

namespace Edits

/-- The answer that keeps a traversal from going below an object. -/
def answer? (E : Edits) (o : Origin) : (k : Kind) → Object Origin k → Option (Object Origin k)
  | .expr, e => E.replacement? o <|> if E.isPruned o then some e else none
  | _, x => if E.isPruned o then some x else none

def trace (E : Edits) : Transform (Array Call) where
  visit k x walk :=
    match Call.of? k x with
    | none => walk
    | some (.label isDefault) => do modify (·.push (.label isDefault)); walk
    | some (.object name o) => do
      modify (·.push (.object name o))
      match E.answer? o k x with
      | some y => return y
      | none =>
        let y ← walk
        return if E.isTouched name o then Object.copy k y else y

end Edits

end ScriptTree
