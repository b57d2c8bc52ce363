import ScriptTree.Toml.DateTime
import ScriptTree.Toml.Number

namespace ScriptTree.Toml

mutual

/-- A value. Tables that headers or dotted keys open can still be added to; those written between
braces, and arrays written between brackets, are closed. -/
inductive Value where
  | string (s : String)
  | integer (n : Int)
  | decimal (d : Decimal)
  | bool (b : Bool)
  | dateTime (t : DateTime)
  | array (items : List Value)
  | closed (t : Table)
  | opened (t : Table)
  /-- The tables of an array of tables, the last one in front. -/
  | tables (last : Table) (others : List Table)

/-- A table is implicit until a header names it, and dotted when a dotted key made it. -/
inductive Table where
  | mk (isImplicit isDotted : Bool) (entries : List (String × Value))

end

namespace Table

def empty : Table := mk false false []

def entries : Table → List (String × Value)
  | mk _ _ es => es

def isImplicit : Table → Bool
  | mk i _ _ => i

def isDotted : Table → Bool
  | mk _ d _ => d

def get? (t : Table) (name : String) : Option Value := t.entries.lookup name

def erase (t : Table) (name : String) : Table :=
  mk t.isImplicit t.isDotted (t.entries.filter (·.1 ≠ name))

def set (t : Table) (name : String) (v : Value) : Table :=
  mk t.isImplicit t.isDotted ((t.erase name).entries ++ [(name, v)])

theorem lookup_filter_ne (es : List (String × Value)) {name other : String} (h : other ≠ name) :
    (es.filter (·.1 ≠ name)).lookup other = es.lookup other := by
  induction es with
  | nil => rfl
  | cons e es ih =>
    obtain ⟨k, v⟩ := e
    by_cases hk : k = name
    · subst hk
      have : (other == k) = false := by simp [h]
      simpa [List.lookup_cons, this] using ih
    · by_cases ho : other = k
      · simp [hk, ho]
      · have ho' : (other == k) = false := by simp [ho]
        simpa [hk, List.lookup_cons, ho'] using ih

theorem lookup_filter_self (es : List (String × Value)) (name : String) :
    (es.filter (·.1 ≠ name)).lookup name = none := by
  induction es with
  | nil => rfl
  | cons e es ih =>
    obtain ⟨k, v⟩ := e
    by_cases hk : k = name
    · simpa [hk] using ih
    · have : (name == k) = false := by simp [Ne.symm hk]
      simpa [hk, List.lookup_cons, this] using ih

theorem get?_set (t : Table) (name other : String) (v : Value) :
    (t.set name v).get? other = if other = name then some v else t.get? other := by
  obtain ⟨i, d, es⟩ := t
  change ((es.filter (·.1 ≠ name)) ++ [(name, v)]).lookup other = _
  rw [List.lookup_append]
  by_cases h : other = name
  · subst h
    rw [lookup_filter_self]
    simp
  · have hb : (other == name) = false := by simp [h]
    rw [lookup_filter_ne es h]
    simp [List.lookup_cons, hb, h, get?, entries]

/-- Changes the table at a path, making the tables that are missing on the way. An array of tables
stands for its last; a dotted key goes through no table that a header has named. -/
def modify (dotted : Bool) (f : Table → Option Table) : List String → Table → Option Table
  | [], t => f t
  | name :: path, t =>
    match t.get? name with
    | none => do return t.set name (.opened (← modify dotted f path (mk true dotted [])))
    | some (.opened below) =>
      if dotted && !below.isImplicit then none
      else do return t.set name (.opened (← modify dotted f path below))
    | some (.tables last others) =>
      do return t.set name (.tables (← modify dotted f path last) others)
    | some _ => none

/-- Adds a value under a dotted key. A key is defined once, and dotted keys extend only tables that
dotted keys made. -/
def insert (t : Table) (path : List String) (name : String) (v : Value) : Option Table :=
  t.modify true (fun below =>
    if below.isDotted = path.isEmpty || (below.get? name).isSome then none
    else some (below.set name v)) path

end Table

open Reader

def pair (value : Reader Value) : Reader ((List String × String) × Value) := do
  let names ← key
  let some name := names.getLast? | failure
  char '='
  blanks
  return ((names.dropLast, name), ← value)

def Table.insertEach (t : Table) (pairs : List ((List String × String) × Value)) : Option Table :=
  pairs.foldlM (fun t p => t.insert p.1.1 p.1.2 p.2) t

def scalarValue : Reader Value :=
  (Value.string <$> string) <|>
  (do text "true"; return .bool true) <|>
  (do text "false"; return .bool false) <|>
  (Value.dateTime <$> DateTime.read) <|>
  (Value.decimal <$> (decimal <|> specialDecimal)) <|>
  (Value.integer <$> integer)

/-- Items between brackets, over as many lines as they take; a comma may follow the last. -/
def array (item : Reader Value) : Reader Value := do
  char '['
  let items ← optional do
    let items ← separated (do gap; let v ← item; gap; return v) (char ',')
    let _ ← optional (char ',')
    return items
  gap
  char ']'
  return .array (items.getD [])

/-- Pairs between braces, on one line; no comma follows the last. -/
def closedTable (item : Reader Value) : Reader Value := do
  char '\x7b'
  let pairs ← optional (separated (do let p ← pair item; blanks; return p) (char ','))
  blanks
  char '\x7d'
  let some t := Table.empty.insertEach (pairs.getD []) | failure
  return .closed t

/-- A value with at most `depth` arrays and tables around one another. -/
def value : (depth : Nat) → Reader Value
  | 0 => scalarValue
  | depth + 1 => scalarValue <|> array (value depth) <|> closedTable (value depth)

end ScriptTree.Toml
