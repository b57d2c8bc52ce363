import ScriptTree.Toml.Reader

namespace ScriptTree.Toml

open Reader

def isHexDigit (c : Char) : Bool := c.isDigit || ('a' ≤ c && c ≤ 'f') || ('A' ≤ c && c ≤ 'F')

def hexValue (c : Char) : Nat :=
  if c.isDigit then c.toNat - 48 else if 'a' ≤ c then c.toNat - 87 else c.toNat - 55

def ofDigits (base : Nat) (digits : List Char) : Nat :=
  digits.foldl (fun n c => base * n + hexValue c) 0

def scalar (digits : Nat) : Reader Char := do
  let n := ofDigits 16 (← exactly (satisfy isHexDigit) digits)
  if n.isValidChar then return .ofNat n else failure

def escape : Reader Char := do
  char '\\'
  match ← satisfy fun _ => true with
  | 'b' => return '\x08'
  | 't' => return '\t'
  | 'n' => return '\n'
  | 'f' => return '\x0c'
  | 'r' => return '\r'
  | '"' => return '"'
  | '\\' => return '\\'
  | 'u' => scalar 4
  | 'U' => scalar 8
  | _ => failure

def isBasic (c : Char) : Bool := isPlain c && c ≠ '"' && c ≠ '\\'

def isLiteral (c : Char) : Bool := isPlain c && c ≠ '\''

def basic : Reader (List Char) := do
  char '"'
  let cs ← many (satisfy isBasic <|> escape)
  char '"'
  return cs

def literal : Reader (List Char) := do
  char '\''
  let cs ← takeWhile isLiteral
  char '\''
  return cs

/-- A backslash at the end of a line, with all the white space up to the next character. -/
def continuation : Reader Unit := do
  char '\\'
  blanks
  newline
  let _ ← many ((do let _ ← satisfy isBlank) <|> newline)

/-- One or two marks that do not end a string over many lines. -/
def innerMarks (mark : Char) : Reader (List Char) := fun cs =>
  let (marks, rest) := cs.span (· = mark)
  if marks.length = 1 ∨ marks.length = 2 then some (marks, rest) else none

/-- The closing marks of a string over many lines, with up to two more in front that belong to it. -/
def closingMarks (mark : Char) : Reader (List Char) := do
  let marks ← takeWhile (· = mark)
  if 3 ≤ marks.length ∧ marks.length ≤ 5 then return marks.drop 3 else failure

/-- A string over many lines, given what stands in it besides its marks; a line break after the
opening marks is not part of it. -/
def multiline (mark : Char) (piece : Reader (List Char)) : Reader (List Char) := do
  char mark
  char mark
  char mark
  let _ ← optional newline
  let pieces ← many (piece <|> innerMarks mark)
  return pieces.flatten ++ (← closingMarks mark)

def lineBreak : Reader (List Char) := do newline; return ['\n']

def multilineBasic : Reader (List Char) :=
  multiline '"' <|
    (do return [← satisfy isBasic]) <|> lineBreak <|> (do continuation; return []) <|>
      (do return [← escape])

def multilineLiteral : Reader (List Char) :=
  multiline '\'' ((do return [← satisfy isLiteral]) <|> lineBreak)

def string : Reader String :=
  String.ofList <$> (multilineBasic <|> basic <|> multilineLiteral <|> literal)

/-- A string on one line, or a bare word of letters, digits, dashes and underscores. -/
def simpleKey : Reader String := do
  let bare (c : Char) : Bool := c.isAlphanum || c = '-' || c = '_'
  String.ofList <$> (basic <|> literal <|> do return (← satisfy bare) :: (← takeWhile bare))

/-- The deepest nesting and the longest dotted key stay below this. -/
def depthLimit : Nat := 80

/-- A dotted key. -/
def key : Reader (List String) := do
  let names ← separated (do blanks; let name ← simpleKey; blanks; return name) (char '.')
  if names.length < depthLimit then return names else failure

end ScriptTree.Toml
