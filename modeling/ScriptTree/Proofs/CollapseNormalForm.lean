import ScriptTree.Proofs.NormalForm
import ScriptTree.Proofs.PassIdentity

namespace ScriptTree.Collapse

open Node

/-- The object is no literal, or one that collapse leaves in its place without an error. -/
def SettledNode {ι : Type} : Node ι → Prop
  | ⟨.expr, ⟨_, .literal format args⟩⟩ => Settled format args.items.length
  | _ => True

theorem settledNode_expr_iff {ι : Type} {e : Expr ι} :
    SettledNode ⟨.expr, e⟩ ↔
      ∀ format args, e.shape = .literal format args → Settled format args.items.length := by
  obtain ⟨o, s⟩ := e
  cases s <;> simp [SettledNode]

/-- Whether an object is settled, by what it holds itself and by the widths of its parts. -/
def settlesAt : Node Unit → List Nat → Prop
  | ⟨.expr, ⟨_, .literal format _⟩⟩, [available] => Settled format available
  | _, _ => True

theorem settledNode_iff {ι : Type} (n : Node ι) :
    SettledNode n ↔ settlesAt n.head (n.parts.map width) := by
  obtain ⟨k, x⟩ := n
  cases k
  case expr =>
    obtain ⟨o, s⟩ := x
    cases s
    case literal format args => simp [SettledNode, settlesAt, head, ExprShape.head, parts,
      ExprShape.parts, width]
    all_goals simp [SettledNode, settlesAt, head, ExprShape.head]
  case stmt | label => cases x <;> simp [SettledNode, settlesAt, head]
  all_goals simp [SettledNode, settlesAt, head]

theorem settledNode_transfers : Transfers width (SettledNode (ι := Origin)) := by
  intro n z ha hp h
  rw [settledNode_iff, ← ha, ← hp, ← settledNode_iff]
  exact h

theorem literal_of_settled {format : String} {args : List (Expr Origin)}
    (h : Settled format args.length) (t : Tally) : literal format args t = (none, t) := by
  obtain ⟨hf, -⟩ | ⟨-, hl⟩ | ⟨i, e, -, hs, -⟩ := literal_cases format args t
  · exact absurd h.1 hf
  · exact hl
  · exact absurd (h.2.symm.trans hs) nofun

/-- Collapse answers a tree of settled literals by itself, and reports and counts nothing. -/
theorem collapse_of_normal {n : Node Origin} (h : All SettledNode n) (t : Tally) :
    transform.node n t = (n, t) := by
  refine transform.fixes (fun _ _ => trivial) ?_ h t
  intro k x walk t hx hwalk
  cases k <;> try exact hwalk
  by_cases hz : ∃ format args, x.shape = .literal format args
  · obtain ⟨format, args, hz⟩ := hz
    rw [visit_literal hwalk hz, literal_of_settled (settledNode_expr_iff.1 hx format args hz)]
    rfl
  · exact visit_of_ne_literal hwalk (by simpa using hz)

theorem errors_of_append {α : Type} {xs : Array α} {ys : List α} (h : xs ++ ys = #[]) :
    xs = #[] ∧ ys = [] := by
  have hlist := congrArg Array.toList h
  simpa using hlist

theorem visit_expr_errors {e : Expr Origin} {walk : StateM Tally (Expr Origin)} {t : Tally}
    (h : (transform.visit .expr e walk t).2.errors = #[]) : (walk t).2.errors = #[] := by
  rcases hw : walk t with ⟨z, t'⟩
  by_cases hz : ∃ format args, z.shape = .literal format args
  · obtain ⟨format, args, hz⟩ := hz
    rw [visit_literal hw hz, literal_errors] at h
    exact (errors_of_append h).1
  · rw [visit_of_ne_literal hw (by simpa using hz)] at h
    exact h

/-- What an expression with settled parts is answered by, unless an error is reported. -/
theorem visit_expr_normal {e : Expr Origin} {walk : StateM Tally (Expr Origin)} {t : Tally}
    (hparts : ∀ c ∈ parts ⟨.expr, (walk t).1⟩, All SettledNode c)
    (h : (transform.visit .expr e walk t).2.errors = #[]) :
    All SettledNode ⟨.expr, (transform.visit .expr e walk t).1⟩ := by
  rcases hw : walk t with ⟨z, t'⟩
  rw [hw] at hparts
  by_cases hz : ∃ format args, z.shape = .literal format args
  · obtain ⟨format, args, hz⟩ := hz
    rw [visit_literal hw hz] at h ⊢
    rw [literal_errors] at h
    obtain ⟨hf, -⟩ | ⟨hs, hl⟩ | ⟨i, e', -, -, hi, hl⟩ := literal_cases format args.items t'
    · exact absurd (errors_of_append h).2 hf
    · rw [hl]
      refine .intro (settledNode_expr_iff.2 fun format' args' hz' => ?_) hparts
      cases hz.symm.trans hz'
      exact hs
    · rw [hl]
      have hargs : All SettledNode ⟨.exprs, args⟩ :=
        hparts _ (by simp [parts, hz, ExprShape.parts])
      have hmem : e' ∈ args.items := List.mem_of_getElem? hi
      exact hargs.part (List.mem_map_of_mem hmem)
  · rw [visit_of_ne_literal hw (by simpa using hz)]
    refine .intro (settledNode_expr_iff.2 fun format args h => ?_) hparts
    exact absurd ⟨format, args, h⟩ hz

/-- The literals that are left of a tree are settled, unless an error was reported. -/
theorem collapse_normal {n : Node Origin} (hn : Separate n) {t : Tally}
    (h : (transform.node n t).2.errors = #[]) : All SettledNode (transform.node n t).1 := by
  refine ((transform.exact_induction collapse_isTame
    (P := fun _ s n' s' => s'.errors = #[] → s.errors = #[] ∧ All SettledNode n') ?_ ?_
    n hn t).2 h).2
  · intro b s b' s' ih h
    obtain ⟨hs, hb⟩ := ih h
    exact ⟨hs, (all_block fun _ => ⟨trivial, trivial⟩).2 hb⟩
  · intro k x walk _ hwalk t h
    -- errors are only ever added, so that none had been reported after any of the parts
    have hback := (hwalk t).2.backward (I := fun t => t.errors = #[]) fun _ _ _ _ h => h
    cases k
    case expr =>
      obtain ⟨ht, hparts⟩ := hback (visit_expr_errors h)
      exact ⟨ht, visit_expr_normal hparts h⟩
    all_goals
      obtain ⟨ht, hparts⟩ := hback h
      exact ⟨ht, .intro trivial hparts⟩

/-- Collapse keeps a property of all objects that does not depend on their parts. -/
theorem collapse_keeps {P : Node Origin → Prop} (hP : ∀ n z : Node Origin, n.Alike z → P n → P z)
    (hblock : ∀ b, P ⟨.block, b⟩ ∧ P ⟨.stmt, .block b⟩) {n : Node Origin} (h : All P n)
    (t : Tally) : All P (transform.node n t).1 := by
  have hlocal : Local fun _ : Node Origin => () := fun _ _ _ _ => rfl
  have htransfers : Transfers (fun _ => ()) P := fun n z ha _ => hP n z ha
  refine (transform.relates (R := Keeps (fun _ => ()) P) .refl ?_ ?_ n t).1 h
  · intro b b'
    exact Keeps.block hblock fun _ => rfl
  · intro k x walk hwalk t
    have hz := Keeps.of_parts hlocal htransfers (hwalk t).1 (hwalk t).2
    cases k
    case expr =>
      obtain he | ⟨format, args, hs, hmem⟩ := visit_expr_cases x walk t
      · rw [he]
        exact hz
      · refine ⟨fun hx => ?_, rfl⟩
        have hargs : (⟨.exprs, args⟩ : Node Origin) ∈ parts ⟨.expr, (walk t).1⟩ := by
          simp [parts, hs, ExprShape.parts]
        have hall : All P ⟨.exprs, args⟩ := (hz.1 hx).part hargs
        exact hall.part (List.mem_map_of_mem hmem)
    all_goals exact hz

end ScriptTree.Collapse
