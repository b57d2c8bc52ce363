import ScriptTree.Toml.Value

namespace ScriptTree.Toml

/-- What a header opens: a table, or one more table of an array. -/
inductive Header where
  | table (path : List String) (name : String)
  | element (path : List String) (name : String)

/-- What a line of a document says. -/
inductive Line where
  | blank
  | header (h : Header)
  | pair (path : List String) (name : String) (v : Value)

namespace Line

open Reader

def headerPath : Reader (List String × String) := do
  let names ← key
  let some name := names.getLast? | failure
  return (names.dropLast, name)

def readHeader : Reader Header := do
  char '['
  if (← optional (char '[')).isSome then
    let (path, name) ← headerPath
    text "]]"
    return .element path name
  else
    let (path, name) ← headerPath
    text "]"
    return .table path name

def read : Reader Line :=
  (do comment; lineEnd; return blank) <|>
  (do newline; return blank) <|>
  (do let h ← readHeader; trailing; return header h) <|>
  (do let ((path, name), v) ← Toml.pair (value (depthLimit - 1)); trailing; return pair path name v)

/-- All lines of a document, which may begin with a byte order mark. -/
def readAll : Reader (List Line) := do
  let _ ← optional (char '\ufeff')
  blanks
  let lines ← many (do let l ← read; blanks; return l)
  atEnd
  return lines

end Line

/-- The pairs that stand under one header. -/
structure Group where
  header : Header
  pairs : List ((List String × String) × Value)

/-- The pairs in front of the first header, and the groups after it. -/
def groups : List Line → List ((List String × String) × Value) × List Group
  | [] => ([], [])
  | .blank :: ls => groups ls
  | .pair path name v :: ls => let (ps, gs) := groups ls; (((path, name), v) :: ps, gs)
  | .header h :: ls => let (ps, gs) := groups ls; ([], ⟨h, ps⟩ :: gs)

/-- Adds a group. A table may be named once, also after tables below it, and an array of tables grows
only by elements. -/
def Table.insertGroup (root : Table) (g : Group) : Option Table :=
  match g.header with
  | .table path name =>
    root.modify false (fun parent => do
      let entries ← match parent.get? name with
        | none => some []
        | some (.opened t) => if t.isImplicit && !t.isDotted then some t.entries else none
        | some _ => none
      let t ← (mk false false entries).insertEach g.pairs
      return parent.set name (.opened t)) path
  | .element path name =>
    root.modify false (fun parent => do
      let others ← match parent.get? name with
        | none => some []
        | some (.tables last others) => some (last :: others)
        | some _ => none
      let t ← Table.empty.insertEach g.pairs
      return parent.set name (.tables t others)) path

/-- The table a document describes. -/
def parse (source : String) : Option Table := do
  let (lines, _) ← Line.readAll source.toList
  let (pairs, rest) := groups lines
  rest.foldlM Table.insertGroup (← Table.empty.insertEach pairs)

end ScriptTree.Toml
