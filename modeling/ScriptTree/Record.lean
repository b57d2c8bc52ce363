import ScriptTree.Pass
import ScriptTree.Text.Quoted

namespace ScriptTree

inductive Level where
  | trace | debug | warn
  deriving DecidableEq, Repr

def Level.name : Level → String
  | .trace => "TRACE"
  | .debug => "DEBUG"
  | .warn => "WARN"

/-- What is logged while a configuration is read and a pipeline runs. -/
inductive Record where
  | renamed (before after : String)
  | collapsed (format : String) (index : Nat)
  | passRan (iteration : Nat) (pass : Pass) (changed : Bool)
  | fault (error : Error)
  | unsettled (iterations : Nat)
  | configLoaded (path : String) (passes : List String)
  deriving DecidableEq, Repr

namespace Record

def level : Record → Level
  | renamed .. | collapsed .. => .trace
  | passRan .. | configLoaded .. => .debug
  | fault .. | unsettled .. => .warn

def message : Record → String
  | renamed before after => "rename " ++ before ++ " -> " ++ after
  | collapsed format index =>
    "collapse template `" ++ format ++ "` to argument " ++ toString index
  | passRan iteration pass changed =>
    "iteration " ++ toString iteration ++ " pass " ++ pass.name ++ ": "
      ++ (if changed then "changed" else "unchanged")
  | fault error => error.message
  | unsettled iterations =>
    "pipeline stopped after " ++ toString iterations ++ " iterations without reaching a fixpoint"
  | configLoaded path passes =>
    "Loaded pipeline config from " ++ path ++ ": " ++ Text.quotedList passes

end Record

end ScriptTree
