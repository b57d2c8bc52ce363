import ScriptTree.Hoisting
import ScriptTree.Number.Remainder
import ScriptTree.Transform

namespace ScriptTree.Fold

def numbers (op : BinaryOp) (x y : Float) : Option Constant :=
  match op with
  | .add => some (.number (x + y))
  | .sub => some (.number (x - y))
  | .mul => some (.number (x * y))
  | .div => some (.number (x / y))
  | .mod => some (.number (Number.remainder x y))
  | .lt => some (.bool (x < y))
  | .le => some (.bool (x ≤ y))
  | .gt => some (.bool (y < x))
  | .ge => some (.bool (y ≤ x))
  | .eq | .strictEq => some (.bool (x == y))
  | .ne | .strictNe => some (.bool (x != y))
  | _ => none

/-- The value of an operator over two constants, where it is settled. -/
def binary (op : BinaryOp) : Constant → Constant → Option Constant
  | .number x, .number y => numbers op x y
  | .string s, .string t => if op = .add then some (.string (s ++ t)) else none
  | _, _ => none

def unary : UnaryOp → Constant → Option Constant
  | .not, .bool b => some (.bool !b)
  | .neg, .number x => some (.number (-x))
  | .pos, .number x => some (.number x)
  | _, _ => none

variable {ι : Type}

/-- A callee that binds `this` in its call. -/
def isMemberReference (e : Expr ι) : Bool :=
  match e.shape with
  | .member .. => true
  | .binary op .. => op = .index
  | _ => false

def asBool? (e : Expr ι) : Option Bool :=
  match e.asConstant? with
  | some (.bool b) => some b
  | _ => none

/-- The value an expression with folded children stands for: a constant or one of its branches. -/
def value? (e : Expr Origin) : Option (Expr Origin) :=
  let constant (c : Constant) : Expr Origin := ⟨e.origin.remade, .constant c⟩
  match e.shape with
  | .binary op l r => do constant (← binary op (← l.asConstant?) (← r.asConstant?))
  | .unary op x => do constant (← unary op (← x.asConstant?))
  | .conditional c t f => do return if ← asBool? c then t else f
  | _ => none

/-- A declaration of names without values, made in the place `o` beside whatever takes the first two
origins there. -/
def declare (o : Origin) (names : List String) : Stmt Origin :=
  .node (.made o 2) (.vars ⟨.made o 3, names.mapIdx fun i n => ⟨.made o (i + 4), n, none⟩⟩)

/-- What runs of an `if` with a known test, made in its place `o`: the live branch, and a declaration
of the names that the dead branch would have hoisted, each once. A dead branch that declares a
function stays. -/
def selectBranch (o : Origin) (live dead : Option (Block Origin)) : Option (Stmt Origin) :=
  if Block.declaresFunction? dead then none
  else some <|
    match live, (Block.varNames? dead).eraseDups with
    | some live, [] => .block live
    | some live, names =>
      .block ⟨.made o 0, ⟨.made o 1, live.statements.items ++ [declare o names]⟩⟩
    | none, [] => .node (.made o 0) .empty
    | none, names => declare o names

/-- The statement that an `if` with folded children stands for. -/
def branch? : Stmt Origin → Option (Stmt Origin)
  | .node o (.ifElse test thenBranch elseBranch) => do
    if ← asBool? test then selectBranch o (some thenBranch) elseBranch
    else selectBranch o elseBranch (some thenBranch)
  | _ => none

/-- Calls a callee that only folding made a member reference through the comma `(0, callee)`, so that
the call does not begin to bind `this`. -/
def guardCallee (before after : Expr Origin) : Expr Origin :=
  match before.shape, after.shape with
  | .call c _, .call c' args =>
    if isMemberReference c' && !isMemberReference c then
      let o := before.origin
      let zero := ⟨.made o 3, .constant (.number 0)⟩
      ⟨after.origin, .call ⟨.made o 1, .comma ⟨.made o 2, [zero, c']⟩⟩ args⟩
    else after
  | _, _ => after

/-- Folds every operator whose operands are constants, and every choice whose test is one, after its
children; the context counts what was folded. -/
def transform : Transform Nat where
  visit
    | .expr, e, walk => do
      let e' ← walk
      match value? e' with
      | some v => modify (· + 1); return v
      | none => return guardCallee e e'
    | .stmt, _, walk => do
      let s ← walk
      match branch? s with
      | some s' => modify (· + 1); return s'
      | none => return s
    | _, _, walk => walk

end ScriptTree.Fold
