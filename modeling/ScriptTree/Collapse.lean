import ScriptTree.Record
import ScriptTree.Template
import ScriptTree.Transform

namespace ScriptTree.Collapse

structure Tally where
  collapsed : Nat
  errors : Array Error
  log : Array Record

/-- The placeholders of a format that have no argument, in order. -/
def missing (format : String) (available : Nat) (segments : List Template.Segment) : List Error :=
  segments.filterMap fun
    | .text _ => none
    | .argument i => if i < available then none else some (.templateArgument format i available)

/-- Reports what is wrong with a literal, and answers its argument where the format is nothing but
one placeholder. -/
def literal (format : String) (args : List (Expr Origin)) :
    StateM Tally (Option (Expr Origin)) := fun t =>
  match Template.parse format with
  | .error e => (none, { t with errors := t.errors.push e, log := t.log.push (.fault e) })
  | .ok segments =>
    match missing format args.length segments, segments with
    | [], [.argument i] =>
      match args[i]? with
      | some e =>
        (some e, { t with collapsed := t.collapsed + 1, log := t.log.push (.collapsed format i) })
      | none => (none, t)
    | [], _ => (none, t)
    | faults, _ => (none, { t with errors := t.errors ++ faults })

/-- Checks every literal after its arguments, and puts the argument in the place of a literal that
stands for it alone. -/
def transform : Transform Tally where
  visit
    | .expr, _, walk => do
      let e ← walk
      match e.shape with
      | .literal format args => return (← literal format args.items).getD e
      | _ => return e
    | _, _, walk => walk

end ScriptTree.Collapse
