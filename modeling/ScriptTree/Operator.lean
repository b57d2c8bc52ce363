namespace ScriptTree

inductive BinaryOp where
  | add | sub | mul | div | mod
  | bitAnd | bitOr | bitXor | shl | shr | ushr
  | lt | le | gt | ge | eq | ne | strictEq | strictNe
  | logicalAnd | logicalOr | isIn | instanceOf | index
  | assign | addAssign | subAssign | mulAssign | divAssign | modAssign
  | bitAndAssign | bitOrAssign | bitXorAssign | shlAssign | shrAssign | ushrAssign
  deriving DecidableEq, Repr

namespace BinaryOp

def all : List BinaryOp :=
  [add, sub, mul, div, mod, bitAnd, bitOr, bitXor, shl, shr, ushr, lt, le, gt, ge, eq, ne,
    strictEq, strictNe, logicalAnd, logicalOr, isIn, instanceOf, index, assign, addAssign,
    subAssign, mulAssign, divAssign, modAssign, bitAndAssign, bitOrAssign, bitXorAssign,
    shlAssign, shrAssign, ushrAssign]

theorem mem_all (op : BinaryOp) : op ∈ all := by cases op <;> decide

/-- The operator as it is written between its operands; indexing is written around the second. -/
def symbol : BinaryOp → String
  | add => "+"
  | sub => "-"
  | mul => "*"
  | div => "/"
  | mod => "%"
  | bitAnd => "&"
  | bitOr => "|"
  | bitXor => "^"
  | shl => "<<"
  | shr => ">>"
  | ushr => ">>>"
  | lt => "<"
  | le => "<="
  | gt => ">"
  | ge => ">="
  | eq => "=="
  | ne => "!="
  | strictEq => "==="
  | strictNe => "!=="
  | logicalAnd => "&&"
  | logicalOr => "||"
  | isIn => "in"
  | instanceOf => "instanceof"
  | index => "[]"
  | assign => "="
  | addAssign => "+="
  | subAssign => "-="
  | mulAssign => "*="
  | divAssign => "/="
  | modAssign => "%="
  | bitAndAssign => "&="
  | bitOrAssign => "|="
  | bitXorAssign => "^="
  | shlAssign => "<<="
  | shrAssign => ">>="
  | ushrAssign => ">>>="

def ofSymbol? (s : String) : Option BinaryOp := all.find? (·.symbol = s)

/-- Plain and compound assignments. -/
def isAssignment : BinaryOp → Bool
  | assign | addAssign | subAssign | mulAssign | divAssign | modAssign | bitAndAssign
  | bitOrAssign | bitXorAssign | shlAssign | shrAssign | ushrAssign => true
  | _ => false

theorem symbol_injective {a b : BinaryOp} (h : a.symbol = b.symbol) : a = b := by
  revert h
  cases a <;> cases b <;> decide

end BinaryOp

inductive UnaryOp where
  | typeOf | void | delete | not | bitNot | neg | pos
  | preIncrement | preDecrement | postIncrement | postDecrement
  deriving DecidableEq, Repr

end ScriptTree
