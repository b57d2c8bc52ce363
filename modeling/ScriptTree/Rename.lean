import ScriptTree.Record
import ScriptTree.Transform

namespace ScriptTree.Rename

/-- New names by old name; the first entry of a name counts. -/
abbrev Names := List (String × String)

def Names.insert (names : Names) (before after : String) : Names :=
  (before, after) :: names.filter (·.1 ≠ before)

theorem Names.lookup_insert (names : Names) (before after name : String) :
    (names.insert before after).lookup name =
      if name = before then some after else names.lookup name := by
  unfold Names.insert
  by_cases h : name = before
  · simp [h]
  · have hb : (name == before) = false := by simp [h]
    simp only [List.lookup_cons, hb, h, if_false]
    induction names with
    | nil => rfl
    | cons e es ih =>
      obtain ⟨k, v⟩ := e
      by_cases hk : k = before
      · simpa [hk, List.lookup_cons, hb] using ih
      · by_cases hn : name = k
        · simp [hn, hk]
        · have hn' : (name == k) = false := by simp [hn]
          simpa [hk, List.lookup_cons, hn'] using ih

structure Tally where
  renamed : Nat
  log : Array Record

/-- The new name of an occurrence, counted and logged if it has one. -/
def take (names : Names) (name : String) : StateM Tally (Option String) :=
  match names.lookup name with
  | none => pure none
  | some after => fun t => (some after, ⟨t.renamed + 1, t.log.push (.renamed name after)⟩)

def takeEach (names : Names) : List String → StateM Tally (List (Option String))
  | [] => return []
  | n :: ns => return (← take names n) :: (← takeEach names ns)

/-- Every name, or the new one that it has. -/
def choose (names : List String) (after : List (Option String)) : List String :=
  List.zipWith (fun n a => a.getD n) names after

/-- Renames what a shape itself introduces or refers to, and answers none where nothing is. -/
def exprShape (names : Names) : ExprShape Origin → StateM Tally (Option (ExprShape Origin))
  | .identifier n => return (← take names n).map .identifier
  | .function ps b n => do
    let n' ← match n with
      | none => pure none
      | some n => take names n
    let ps' ← takeEach names ps
    return if n'.isSome || ps'.any Option.isSome
      then some (.function (choose ps ps') b (n' <|> n)) else none
  | _ => return none

def stmtShape (names : Names) : StmtShape Origin → StateM Tally (Option (StmtShape Origin))
  | .forIn n x b d => return (← take names n).map (.forIn · x b d)
  | .function n ps b => do
    let n' ← take names n
    let ps' ← takeEach names ps
    return if n'.isSome || ps'.any Option.isSome
      then some (.function (n'.getD n) (choose ps ps') b) else none
  | _ => return none

/-- Renames identifiers and the names of bindings, each after what stands below it. -/
def transform (names : Names) : Transform Tally where
  visit
    | .expr, _, walk => do
      let e ← walk
      match ← exprShape names e.shape with
      | some s => return ⟨e.origin.remade, s⟩
      | none => return e
    | .stmt, _, walk => do
      match ← walk with
      | .block b => return .block b
      | .node o s =>
        match ← stmtShape names s with
        | some s' => return .node o.remade s'
        | none => return .node o s
    | .declaration, _, walk => do
      let d ← walk
      match ← take names d.name with
      | some n => return ⟨d.origin.remade, n, d.init⟩
      | none => return d
    | .catchClause, _, walk => do
      let c ← walk
      match ← take names c.name with
      | some n => return ⟨c.origin.remade, n, c.body⟩
      | none => return c
    | _, _, walk => walk

end ScriptTree.Rename
