import ScriptTree.Error

namespace ScriptTree

inductive Pass where
  | rename | fold | inlineCode
  deriving DecidableEq, Repr

namespace Pass

def name : Pass → String
  | rename => "rename"
  | fold => "fold"
  | inlineCode => "inline-code"

def ofName (name : String) : Except Error Pass :=
  if name = "rename" then .ok rename
  else if name = "fold" then .ok fold
  else if name = "inline-code" then .ok inlineCode
  else .error (.unknownPass name)

theorem ofName_name (p : Pass) : ofName p.name = .ok p := by
  cases p <;> simp [ofName, name]

end Pass

end ScriptTree
