import ScriptTree.Config
import ScriptTree.Workspace

namespace ScriptTree

structure Pipeline where
  passes : List Pass
  names : Rename.Names
  maxIterations : Nat

namespace Pipeline

def ofConfig (c : Config) : Except Error Pipeline :=
  if c.maxIterations = 0 then .error .noIterations
  else do return ⟨← c.passes.mapM Pass.ofName, c.rename, c.maxIterations⟩

/-- What a run comes to; `converged` when the last iteration answered the program it was given. -/
structure Outcome where
  program : Program Origin
  iterations : Nat
  converged : Bool
  renamed : Nat
  folded : Nat
  collapsed : Nat

def Outcome.changed (r : Outcome) (given : Program Origin) : Bool := !same r.program given

abbrev Run := ExceptT Error (StateM Workspace)

/-- Runs one pass; of the errors it leaves, the first fails the run and the others are logged. -/
def runPass (iteration : Nat) (pass : Pass) (p : Program Origin) : Run (Program Origin) := do
  let p' ← pass.run p
  Workspace.record (.passRan iteration pass !(same p' p))
  match (← get).errors.toList with
  | [] => return p'
  | first :: others =>
    others.forM (Workspace.record <| .fault ·)
    modify fun w => { w with errors := #[] }
    throw first

def runPasses (iteration : Nat) : List Pass → Program Origin → Run (Program Origin)
  | [], p => return p
  | pass :: passes, p => do runPasses iteration passes (← runPass iteration pass p)

/-- Repeats the passes at most `left` times more after `done` iterations, until an iteration answers
the program it was given. -/
def iterate (passes : List Pass) :
    (left done : Nat) → Program Origin → Run (Program Origin × Nat × Bool)
  | 0, done, p => return (p, done, false)
  | left + 1, done, p => do
    let p' ← runPasses (done + 1) passes p
    if same p' p then return (p', done + 1, true) else iterate passes left (done + 1) p'

def outcome (P : Pipeline) (p : Program Origin) : Run Outcome := do
  let (p', iterations, converged) ← iterate P.passes P.maxIterations 0 p
  if !converged && 1 < P.maxIterations then Workspace.record (.unsettled iterations)
  let w ← get
  return ⟨p', iterations, converged, w.renamed, w.folded, w.collapsed⟩

/-- The outcome of a run, or the error that ended it, and what it logged. -/
def run (P : Pipeline) (p : Program Origin) : Except Error Outcome × List Record :=
  let (r, w) := (P.outcome p).run (Workspace.new P.names)
  (r, w.log.toList)

end Pipeline

end ScriptTree
