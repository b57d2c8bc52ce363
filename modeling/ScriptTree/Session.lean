import ScriptTree.Numbering
import ScriptTree.Workspace

namespace ScriptTree

/-- A program under work, with the number of objects that have been seen of it. -/
structure Session where
  program : Program Origin
  known : Nat
  work : Workspace

namespace Session

inductive Step where
  | insert (before after : String)
  | table (names : Rename.Names)
  | pass (pass : Pass)
  | identity

/-- What a step came to; `census` tells the known objects of the program from the new ones. -/
structure Report where
  same : Bool
  census : List (Option Nat)
  program : Program Origin
  renamed : Nat
  folded : Nat
  collapsed : Nat
  errors : Nat

def start (p : Program Unit) : Session :=
  let (p', known) := Object.number 0 .stmts p
  ⟨p', known, .new []⟩

def perform (s : Session) : Step → Program Origin × Workspace
  | .insert before after =>
    (s.program, { s.work with names := s.work.names.insert before after })
  | .table names => (s.program, { s.work with names := names, renamed := 0 })
  | .pass pass => pass.run s.program s.work
  | .identity => (((Transform.identity Unit).stmts s.program ()).1, s.work)

/-- Performs a step and then counts its new objects among the known. -/
def step (s : Session) (what : Step) : Report × Session :=
  let (p, w) := s.perform what
  let (p', known) := Object.settle s.known .stmts p
  (⟨ScriptTree.same p s.program, Object.census s.known .stmts p, p, w.renamed, w.folded,
    w.collapsed, w.errors.size⟩, ⟨p', known, w⟩)

end Session

end ScriptTree
