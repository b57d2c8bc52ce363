import ScriptTree.Collapse
import ScriptTree.Fold
import ScriptTree.Rename

namespace ScriptTree

/-- What the passes keep between their runs. -/
structure Workspace where
  names : Rename.Names
  renamed : Nat
  folded : Nat
  collapsed : Nat
  errors : Array Error
  log : Array Record

def Workspace.new (names : Rename.Names) : Workspace := ⟨names, 0, 0, 0, #[], #[]⟩

def Workspace.record (r : Record) : StateM Workspace Unit :=
  modify fun w => { w with log := w.log.push r }

/-- Runs a pass over a program, counting on from what the workspace holds. -/
def Pass.run : Pass → Program Origin → StateM Workspace (Program Origin)
  | .rename, p => fun w =>
    let (p', t) := (Rename.transform w.names).stmts p ⟨w.renamed, w.log⟩
    (p', { w with renamed := t.renamed, log := t.log })
  | .fold, p => fun w =>
    let (p', n) := Fold.transform.stmts p w.folded
    (p', { w with folded := n })
  | .inlineCode, p => fun w =>
    let (p', t) := Collapse.transform.stmts p ⟨w.collapsed, w.errors, w.log⟩
    (p', { w with collapsed := t.collapsed, errors := t.errors, log := t.log })

end ScriptTree
