import ScriptTree.Toml.Text

namespace ScriptTree.Toml

structure Date where
  year : Nat
  month : Nat
  day : Nat
  deriving DecidableEq, Repr

structure Time where
  hour : Nat
  minute : Nat
  second : Nat
  nanosecond : Nat
  deriving DecidableEq, Repr

/-- The distance from universal time, which has a name of its own, in minutes. -/
inductive Offset where
  | universal
  | minutes (n : Int)
  deriving DecidableEq, Repr

inductive DateTime where
  | date (date : Date)
  | time (time : Time)
  | dateTime (date : Date) (time : Time) (offset : Option Offset)
  deriving DecidableEq, Repr

def Date.isLeap (year : Nat) : Bool := year % 4 = 0 && (year % 100 ≠ 0 || year % 400 = 0)

def Date.daysInMonth (year month : Nat) : Nat :=
  if month = 2 then if isLeap year then 29 else 28
  else if month = 4 ∨ month = 6 ∨ month = 9 ∨ month = 11 then 30
  else 31

def padded (width n : Nat) : String :=
  let digits := Nat.toDigits 10 n
  String.ofList (List.replicate (width - digits.length) '0' ++ digits)

def Date.text (d : Date) : String :=
  padded 4 d.year ++ "-" ++ padded 2 d.month ++ "-" ++ padded 2 d.day

/-- The fraction of a second is written without closing zeros, and not at all where it is zero. -/
def Time.text (t : Time) : String :=
  let fraction := ((padded 9 t.nanosecond).toList.reverse.dropWhile (· = '0')).reverse
  padded 2 t.hour ++ ":" ++ padded 2 t.minute ++ ":" ++ padded 2 t.second
    ++ (if fraction.isEmpty then "" else "." ++ String.ofList fraction)

def Offset.text : Offset → String
  | universal => "Z"
  | minutes n =>
    (if n < 0 then "-" else "+") ++ padded 2 (n.natAbs / 60) ++ ":" ++ padded 2 (n.natAbs % 60)

def DateTime.text : DateTime → String
  | date d => d.text
  | time t => t.text
  | dateTime d t o => d.text ++ "T" ++ t.text ++ (o.map Offset.text).getD ""

open Reader

def digits (count : Nat) : Reader Nat := ofDigits 10 <$> exactly (satisfy Char.isDigit) count

def between (low high : Nat) (r : Reader Nat) : Reader Nat := do
  let n ← r
  if low ≤ n ∧ n ≤ high then return n else failure

def Date.read : Reader Date := do
  let year ← digits 4
  char '-'
  let month ← between 1 12 (digits 2)
  char '-'
  let day ← between 1 (daysInMonth year month) (digits 2)
  return ⟨year, month, day⟩

/-- The fraction of a second in nanoseconds; digits after the ninth are dropped. -/
def nanoseconds : Reader Nat := do
  char '.'
  let first ← satisfy Char.isDigit
  let kept := (first :: (← takeWhile Char.isDigit)).take 9
  return ofDigits 10 kept * Nat.pow 10 (9 - kept.length)

def Time.read : Reader Time := do
  let hour ← between 0 23 (digits 2)
  char ':'
  let minute ← between 0 59 (digits 2)
  char ':'
  let second ← between 0 60 (digits 2)
  return ⟨hour, minute, second, (← optional nanoseconds).getD 0⟩

def Offset.read : Reader Offset :=
  (do let _ ← satisfy fun c => c = 'Z' || c = 'z'; return universal) <|> do
    let sign ← satisfy fun c => c = '+' || c = '-'
    let hour ← between 0 23 (digits 2)
    char ':'
    let n := hour * 60 + (← between 0 59 (digits 2))
    return minutes (if sign = '-' then -n else n)

def DateTime.read : Reader DateTime :=
  (do
    let d ← Date.read
    let rest ← optional do
      let _ ← satisfy fun c => c = 'T' || c = 't' || c = ' '
      let t ← Time.read
      return (t, ← optional Offset.read)
    match rest with
    | none => return date d
    | some (t, o) => return dateTime d t o) <|> time <$> Time.read

end ScriptTree.Toml
