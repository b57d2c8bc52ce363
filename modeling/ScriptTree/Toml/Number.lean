import ScriptTree.Toml.Text

namespace ScriptTree.Toml

open Reader

/-- Digits with single underscores between neighbours. -/
def digitRun (isDigit : Char → Bool) : Reader (List Char) := do
  let first ← satisfy isDigit
  return first :: (← many (satisfy isDigit <|> do char '_'; satisfy isDigit))

def sign : Reader Bool := do
  return (← optional (satisfy fun c => c = '+' || c = '-')) = some '-'

/-- Whole digits, the first of them zero only where it is the last. -/
def wholeDigits : Reader (List Char) :=
  (do
    let first ← satisfy fun c => '1' ≤ c && c ≤ '9'
    return first :: (← many (satisfy Char.isDigit <|> do char '_'; satisfy Char.isDigit))) <|>
  (do char '0'; return ['0'])

def inRange (n : Int) : Reader Int :=
  if -0x8000000000000000 ≤ n ∧ n < 0x8000000000000000 then pure n else failure

def ofBase (mark : Char) (base : Nat) (isDigit : Char → Bool) : Reader Int := do
  char '0'
  char mark
  inRange (ofDigits base (← digitRun isDigit))

/-- An integer of 64 bits. -/
def integer : Reader Int :=
  ofBase 'x' 16 isHexDigit <|>
  ofBase 'o' 8 (fun c => '0' ≤ c && c ≤ '7') <|>
  ofBase 'b' 2 (fun c => c = '0' || c = '1') <|> do
    let negative ← sign
    let n := ofDigits 10 (← wholeDigits)
    inRange (if negative then -n else n)

/-- A decimal number, `digits · 10 ^ exponent`, or one that has no digits. -/
inductive Decimal where
  | finite (negative : Bool) (digits : Nat) (exponent : Int)
  | infinite (negative : Bool)
  | nan
  deriving DecidableEq, Repr

/-- The number rounds to infinity in 64 bits: it is not below the middle between the greatest finite
number and the next power of two. -/
def Decimal.overflows (digits : Nat) (exponent : Int) : Bool :=
  let places := exponent + (Nat.toDigits 10 digits).length
  if digits = 0 ∨ places < 309 then false
  else if 309 < places then true
  else (1 <<< 1024 - 1 <<< 970) * Nat.pow 10 (-exponent).toNat ≤ digits * Nat.pow 10 exponent.toNat

def exponentPart : Reader Int := do
  let _ ← satisfy fun c => c = 'e' || c = 'E'
  let negative ← sign
  let n := ofDigits 10 (← digitRun Char.isDigit)
  return if negative then -n else n

def fraction : Reader (List Char) := do
  char '.'
  digitRun Char.isDigit

/-- A number with a fraction or an exponent; one above every finite number is refused. -/
def decimal : Reader Decimal := do
  let negative ← sign
  let whole ← wholeDigits
  let (fraction, exponent) ← (do return ([], ← exponentPart)) <|> do
    return (← fraction, (← optional exponentPart).getD 0)
  let digits := ofDigits 10 (whole ++ fraction)
  let exponent := exponent - fraction.length
  if !negative && Decimal.overflows digits exponent then failure
  return .finite negative digits exponent

def specialDecimal : Reader Decimal := do
  let negative ← sign
  (do text "inf"; return .infinite negative) <|> (do text "nan"; return .nan)

end ScriptTree.Toml
