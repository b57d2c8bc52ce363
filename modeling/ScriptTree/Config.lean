import ScriptTree.Rename
import ScriptTree.Toml.Document

namespace ScriptTree

/-- Which passes run, by name and in order, with which new names, and how often at most. -/
structure Config where
  passes : List String
  rename : Rename.Names
  maxIterations : Nat

namespace Config

def default : Config := ⟨["inline-code", "fold"], [], 1⟩

open Toml (Value Table)

def string? : Value → Option String
  | .string s => some s
  | _ => none

def strings? : Value → Option (List String)
  | .array items => items.mapM string?
  | _ => none

/-- The key under which a date or time stands where a table is asked for. -/
def dateTimeKey : String := "$__toml_private_datetime"

def names? : Value → Option Rename.Names
  | .closed t | .opened t => t.entries.mapM fun e => do return (e.1, ← string? e.2)
  | .dateTime t => some [(dateTimeKey, t.text)]
  | _ => none

def count? : Value → Option Nat
  | .integer n => n.toNat?
  | _ => none

/-- The value of a key that may be missing. -/
def setting {α : Type} (t : Table) (key : String) (read : Value → Option α) (missing : α) :
    Option α :=
  match t.get? key with
  | none => some missing
  | some v => read v

def ofTable? (t : Table) : Option Config :=
  return ⟨← setting t "passes" strings? default.passes, ← setting t "rename" names? default.rename,
    ← setting t "max-iterations" count? default.maxIterations⟩

/-- Reads a configuration; keys that mean nothing to it are passed over. -/
def ofToml (source : String) : Except Error Config :=
  match Toml.parse source >>= ofTable? with
  | none => .error .config
  | some c => if c.maxIterations = 0 then .error .noIterations else .ok c

/-- Why a configuration file could not be loaded. -/
inductive LoadError where
  | unreadable (path : String)
  | invalid (path : String) (cause : Error)
  deriving DecidableEq, Repr

def LoadError.message : LoadError → String
  | unreadable path => "failed to read pipeline config " ++ path
  | invalid path _ => "failed to parse pipeline config " ++ path

/-- Reads the contents of a configuration file, if there is one, and answers what it logs. -/
def load (path : String) (contents : Option ByteArray) :
    Except LoadError Config × List Record :=
  match contents.bind String.fromUTF8? with
  | none => (.error (.unreadable path), [])
  | some source =>
    match ofToml source with
    | .error cause => (.error (.invalid path cause), [])
    | .ok c => (.ok c, [.configLoaded path c.passes])

end Config

end ScriptTree
