import ScriptTree.Tree

namespace ScriptTree

variable {ι : Type}

mutual

def Block.varNames : Block ι → List String
  | ⟨_, ⟨_, ss⟩⟩ => Stmt.varNamesEach ss

def Stmt.varNames : Stmt ι → List String
  | .block b => b.varNames
  | .node _ s => s.varNames

def StmtShape.varNames : StmtShape ι → List String
  | .doWhile _ b | .whileLoop _ b => b.varNames
  | .forIn n _ b declares => (if declares then [n] else []) ++ b.varNames
  | .forLoop i _ _ b => Stmt.varNames? i ++ b.varNames
  | .ifElse _ t e => t.varNames ++ Block.varNames? e
  | .switch _ ⟨_, ss⟩ => Section.varNamesEach ss
  | .tryCatch b h c => b.varNames ++ CatchClause.varNames? h ++ Block.varNames? c
  | .vars ds => ds.items.map (·.name)
  | .withObject _ s | .labelled _ s => s.varNames
  | .function .. | .breakTo _ | .continueTo _ | .comment _ | .empty | .expression _ | .ret _
  | .throw _ | .goto _ | .yield _ => []

def Stmt.varNamesEach : List (Stmt ι) → List String
  | [] => []
  | s :: ss => s.varNames ++ Stmt.varNamesEach ss

def Section.varNamesEach : List (Section ι) → List String
  | [] => []
  | ⟨_, _, b⟩ :: ss => b.varNames ++ Section.varNamesEach ss

def Stmt.varNames? : Option (Stmt ι) → List String
  | none => []
  | some s => s.varNames

def Block.varNames? : Option (Block ι) → List String
  | none => []
  | some b => b.varNames

def CatchClause.varNames? : Option (CatchClause ι) → List String
  | none => []
  | some ⟨_, _, b⟩ => b.varNames

end

mutual

def Block.declaresFunction : Block ι → Bool
  | ⟨_, ⟨_, ss⟩⟩ => Stmt.declaresFunctionEach ss

def Stmt.declaresFunction : Stmt ι → Bool
  | .block b => b.declaresFunction
  | .node _ s => s.declaresFunction

def StmtShape.declaresFunction : StmtShape ι → Bool
  | .function .. => true
  | .doWhile _ b | .whileLoop _ b => b.declaresFunction
  | .forIn _ _ s _ | .withObject _ s | .labelled _ s => s.declaresFunction
  | .forLoop i _ _ b => Stmt.declaresFunction? i || b.declaresFunction
  | .ifElse _ t e => t.declaresFunction || Block.declaresFunction? e
  | .switch _ ⟨_, ss⟩ => Section.declaresFunctionEach ss
  | .tryCatch b h c =>
    b.declaresFunction || CatchClause.declaresFunction? h || Block.declaresFunction? c
  | .vars _ | .breakTo _ | .continueTo _ | .comment _ | .empty | .expression _ | .ret _ | .throw _
  | .goto _ | .yield _ => false

def Stmt.declaresFunctionEach : List (Stmt ι) → Bool
  | [] => false
  | s :: ss => s.declaresFunction || Stmt.declaresFunctionEach ss

def Section.declaresFunctionEach : List (Section ι) → Bool
  | [] => false
  | ⟨_, _, b⟩ :: ss => b.declaresFunction || Section.declaresFunctionEach ss

def Stmt.declaresFunction? : Option (Stmt ι) → Bool
  | none => false
  | some s => s.declaresFunction

def Block.declaresFunction? : Option (Block ι) → Bool
  | none => false
  | some b => b.declaresFunction

def CatchClause.declaresFunction? : Option (CatchClause ι) → Bool
  | none => false
  | some ⟨_, _, b⟩ => b.declaresFunction

end

end ScriptTree
