namespace ScriptTree

/-- Why a configuration or a program is refused. -/
inductive Error where
  | unknownPass (name : String)
  | config
  | noIterations
  | templateArgument (format : String) (index available : Nat)
  | malformedTemplate (format : String) (offset : Nat)
  deriving DecidableEq, Repr

def Error.message : Error → String
  | .unknownPass name =>
    "unknown pass `" ++ name ++ "` (expected one of: rename, fold, inline-code)"
  | .config => "invalid pipeline configuration"
  | .noIterations => "max-iterations must be at least 1"
  | .templateArgument format index available =>
    "template `" ++ format ++ "` references argument " ++ toString index ++ " but only "
      ++ toString available ++ " supplied"
  | .malformedTemplate format offset =>
    "malformed template `" ++ format ++ "` at byte " ++ toString offset

end ScriptTree
