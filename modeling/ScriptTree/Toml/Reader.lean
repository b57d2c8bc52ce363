namespace ScriptTree.Toml

/-- Reads a value off the front of a text, or refuses it; a refused choice starts over. -/
abbrev Reader (α : Type) := StateT (List Char) Option α

namespace Reader

variable {α β : Type}

def satisfy (p : Char → Bool) : Reader Char
  | c :: cs => if p c then some (c, cs) else none
  | [] => none

def char (c : Char) : Reader Unit := do let _ ← satisfy (· = c)

def text (s : String) : Reader Unit := s.toList.forM char

def atEnd : Reader Unit
  | [] => some ((), [])
  | _ :: _ => none

def takeWhile (p : Char → Bool) : Reader (List Char) := fun cs => some (cs.span p)

def upTo (r : Reader α) : Nat → Reader (List α)
  | 0 => pure []
  | n + 1 => (do let a ← r; return a :: (← upTo r n)) <|> pure []

/-- As many as can be read, each of which takes a character at least. -/
def many (r : Reader α) : Reader (List α) := fun cs => upTo r cs.length cs

def exactly (r : Reader α) : Nat → Reader (List α)
  | 0 => pure []
  | n + 1 => do let a ← r; return a :: (← exactly r n)

/-- One or more, with a separator between neighbours and none after the last. -/
def separated (r : Reader α) (separator : Reader β) : Reader (List α) := do
  let first ← r
  return first :: (← many (do let _ ← separator; r))

end Reader

def isBlank (c : Char) : Bool := c = ' ' || c = '\t'

/-- What a comment and a string on one line may hold: no control character but the tab. -/
def isPlain (c : Char) : Bool := c = '\t' || (' ' ≤ c && c ≤ '~') || 0x80 ≤ c.toNat

open Reader

def newline : Reader Unit := char '\n' <|> (do char '\r'; char '\n')

def blanks : Reader Unit := do let _ ← takeWhile isBlank

def comment : Reader Unit := do
  char '#'
  let _ ← takeWhile isPlain

def lineEnd : Reader Unit := newline <|> atEnd

/-- The rest of a line after what it says. -/
def trailing : Reader Unit := do
  blanks
  let _ ← optional comment
  lineEnd

/-- What may stand between the items of an array. -/
def gap : Reader Unit := do
  let _ ← many ((do let _ ← satisfy isBlank) <|> newline <|> comment)

end ScriptTree.Toml
