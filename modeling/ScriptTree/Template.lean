import ScriptTree.Error

namespace ScriptTree.Template

/-- A run of text or a placeholder of a format. -/
inductive Segment where
  | text (content : String)
  | argument (index : Nat)
  deriving DecidableEq, Repr

/-- A character of the text, an escaped brace being one, or a placeholder. -/
inductive Token where
  | char (c : Char)
  | argument (index : Nat)
  deriving DecidableEq, Repr

/-- Indices are 64-bit words. -/
def indexBound : Nat := 1 <<< 64

mutual

/-- The tokens of a format from byte `pos` on, or the byte of the first brace that starts none. -/
def tokens (pos : Nat) : List Char → Except Nat (List Token)
  | [] => .ok []
  | '{' :: '{' :: cs => (.char '{' :: ·) <$> tokens (pos + 2) cs
  | '}' :: '}' :: cs => (.char '}' :: ·) <$> tokens (pos + 2) cs
  | '{' :: cs => placeholder pos none (pos + 1) cs
  | '}' :: _ => .error pos
  | c :: cs => (.char c :: ·) <$> tokens (pos + c.utf8Size) cs

/-- Reads the rest of the placeholder opened at `start`, whose digits so far make `index`. -/
def placeholder (start : Nat) (index : Option Nat) (pos : Nat) :
    List Char → Except Nat (List Token)
  | [] => .error start
  | '}' :: cs =>
    match index with
    | some i => if i < indexBound then (.argument i :: ·) <$> tokens (pos + 1) cs else .error start
    | none => .error start
  | c :: cs =>
    if c.isDigit then placeholder start (some (10 * index.getD 0 + (c.toNat - 48))) (pos + 1) cs
    else .error start

end

/-- A run of text, given in reverse, in front of more segments; no run is empty. -/
def flush (run : List Char) (rest : List Segment) : List Segment :=
  if run.isEmpty then rest else .text (String.ofList run.reverse) :: rest

/-- Joins neighbouring characters into runs; `run` holds the current one in reverse. -/
def join (run : List Char) : List Token → List Segment
  | [] => flush run []
  | .char c :: ts => join (c :: run) ts
  | .argument i :: ts => flush run (.argument i :: join [] ts)

def parse (format : String) : Except Error (List Segment) :=
  match tokens 0 format.toList with
  | .ok ts => .ok (join [] ts)
  | .error offset => .error (.malformedTemplate format offset)

end ScriptTree.Template
