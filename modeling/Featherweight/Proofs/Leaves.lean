import Featherweight.Proofs.Grouping

/-!
# Featherweight.Proofs.Leaves

Statement lists and the walk over them.

* `sequence_eq_foldl` : all nodes that a statement list is folded into have one position.
* `leaves_of_sequences` : the walk over a tree ends, and has then found the leaves of the tree from left
  to right; those of a statement list are the leaves of its statements.
-/

namespace Featherweight.Expr

theorem not_seq_of_mem_inOrder {e s : Expr} (h : s ∈ e.inOrder) (a b : Expr) (pos : Option Pos) :
    s ≠ seq a b pos := by
  cases e with
  | seq first second _ =>
    rw [inOrder, List.mem_append] at h
    rcases h with h | h
    · exact not_seq_of_mem_inOrder h a b pos
    · exact not_seq_of_mem_inOrder h a b pos
  | _ =>
    obtain rfl := List.mem_singleton.1 h
    intro heq
    cases heq

/-- The walk over a tree has ended when it has taken the turns of the tree, and no sooner. -/
theorem turn?_run_eq_none (e : Expr) (n : Nat) :
    (Walk.run n ⟨[e], []⟩).turn? = none ↔ e.turns ≤ n := by
  rw [Walk.turn?_eq_none, ← Walk.left_eq_zero, Walk.left_run, Walk.left_start]
  omega

/-- The position of the first statement goes to the innermost node, and from there to the next ones. -/
theorem sequence_eq_foldl (e : Expr) (rest : List Expr) (pos : Option Pos) :
    sequence (e :: rest) pos = rest.foldl (fun acc s => seq acc s (e.pos? <|> pos)) e := by
  rw [sequence]
  -- For the induction the inner nodes are any tree that hands on the same position.
  suffices h : ∀ acc : Expr, (acc.pos? <|> pos) = (e.pos? <|> pos) →
      rest.foldl (fun acc s => seq acc s (acc.pos? <|> pos)) acc =
        rest.foldl (fun acc s => seq acc s (e.pos? <|> pos)) acc from h e rfl
  induction rest with
  | nil =>
    intro acc _
    rfl
  | cons s rest ih =>
    intro acc hacc
    rw [List.foldl_cons, List.foldl_cons, hacc]
    apply ih
    show ((e.pos? <|> pos) <|> pos) = (e.pos? <|> pos)
    cases e.pos? with
    | none => cases pos <;> rfl
    | some p => rfl

/-- The walk over a tree ends after the turns of the tree, and what it finds are the leaves from left to
right, of which none is a sequence. The leaves of a statement list are those of its statements, one after
the other, and each node that the list is folded into has the position of the first statement, or else
the given one. -/
theorem leaves_of_sequences :
    (∀ e : Expr,
      (∀ n, (Walk.run n ⟨[e], []⟩).turn? = none ↔ e.turns ≤ n) ∧
      (∀ n, e.turns ≤ n → Walk.run n ⟨[e], []⟩ = ⟨[], e.leaves.reverse⟩) ∧
      e.leaves = e.inOrder ∧ ∀ s ∈ e.leaves, ∀ a b pos, s ≠ seq a b pos) ∧
    ∀ (e : Expr) (rest : List Expr) (pos : Option Pos),
      (sequence (e :: rest) pos).leaves = (e :: rest).flatMap leaves ∧
      sequence (e :: rest) pos = rest.foldl (fun acc s => seq acc s (e.pos? <|> pos)) e := by
  constructor
  · intro e
    refine ⟨turn?_run_eq_none e, ?_, leaves_eq_inOrder e, ?_⟩
    · intro n hn
      rw [Walk.run_of_left_le hn, Walk.total_start, leaves_eq_inOrder]
    · intro s hs
      rw [leaves_eq_inOrder] at hs
      exact not_seq_of_mem_inOrder hs
  · intro e rest pos
    exact ⟨leaves_sequence (List.cons_ne_nil e rest) pos, sequence_eq_foldl e rest pos⟩

/-- Sequences nested to both sides, and a list of two statements of which the first is such a sequence
and has no position. -/
theorem leaves_of_sequences_nested :
    let leaf (x : String) : Expr := .var x none
    let nested : Expr := .seq (.seq (leaf "a") (leaf "b") none) (.seq (leaf "c") (leaf "d") none) none
    let here : Option Pos := some ⟨some 1, some 2, none, none⟩
    nested.turns = 7 ∧
    Walk.run 7 ⟨[nested], []⟩ = ⟨[], [leaf "d", leaf "c", leaf "b", leaf "a"]⟩ ∧
    leaf "a" ≠ nested ∧
    (sequence [nested, leaf "e"] here).leaves =
      [leaf "a", leaf "b", leaf "c", leaf "d", leaf "e"] ∧
    sequence [nested, leaf "e"] here = .seq nested (leaf "e") here := by
  intro leaf nested here
  obtain ⟨-, hrun, -, hnot⟩ := leaves_of_sequences.1 nested
  obtain ⟨hleaves, hfold⟩ := leaves_of_sequences.2 nested [leaf "e"] here
  have hmem : leaf "a" ∈ nested.leaves := List.mem_cons_self
  exact ⟨rfl, hrun 7 (Nat.le_refl 7), hnot _ hmem _ _ _, hleaves, hfold⟩

end Featherweight.Expr
