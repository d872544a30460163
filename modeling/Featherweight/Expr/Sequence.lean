import Featherweight.Expr

/-!
# Featherweight.Expr.Sequence

Statement lists as trees. `sequence` folds a list of statements into nested `seq` nodes, and `leaves`
lists the nodes of a tree of `seq` nodes that are none themselves, in the order of evaluation.

The leaves are found by a `Walk` that keeps the trees still to come on a stack, so that it does not
recur into deeply nested sequences. `inOrder` says what it finds: no turn of the walk changes what is
found and still to come, and each brings it one turn nearer to its end.
-/

namespace Featherweight.Expr

/-- The trees still to come, the next one first, and the leaves found so far, the latest first. -/
structure Walk where
  pending : List Expr
  found : List Expr

namespace Walk

/-- One turn: the parts of a `seq` node take its place, and any other node is a leaf. -/
def turn? : Walk → Option Walk
  | ⟨[], _⟩ => none
  | ⟨seq a b _ :: pending, found⟩ => some ⟨a :: b :: pending, found⟩
  | ⟨e :: pending, found⟩ => some ⟨pending, e :: found⟩

/-- Walk on to the end, for at most `n` turns. -/
def run : Nat → Walk → Walk
  | 0, w => w
  | n + 1, w =>
    match w.turn? with
    | some w' => run n w'
    | none => w

end Walk

/-- The number of turns that a tree takes. -/
def turns : Expr → Nat
  | seq a b _ => a.turns + b.turns + 1
  | _ => 1

def leaves (e : Expr) : List Expr := (Walk.run e.turns ⟨[e], []⟩).found.reverse

/-- The leaves of a tree from left to right. -/
def inOrder : Expr → List Expr
  | seq a b _ => a.inOrder ++ b.inOrder
  | e => [e]

theorem seq_or_leaf (e : Expr) :
    (∃ a b pos, e = seq a b pos) ∨ (e.inOrder = [e] ∧ e.turns = 1 ∧
      ∀ pending found, Walk.turn? ⟨e :: pending, found⟩ = some ⟨pending, e :: found⟩) := by
  cases e with
  | seq a b pos => exact .inl ⟨a, b, pos, rfl⟩
  | _ => exact .inr ⟨rfl, rfl, fun _ _ => rfl⟩

namespace Walk

/-- The turns that are left. -/
def left (w : Walk) : Nat := w.pending.foldr (fun e n => e.turns + n) 0

/-- The leaves that are found already and those of the trees still to come. -/
def total (w : Walk) : List Expr := w.found.reverse ++ w.pending.flatMap inOrder

theorem turn?_eq_none {w : Walk} : w.turn? = none ↔ w.pending = [] := by
  obtain ⟨pending, found⟩ := w
  cases pending with
  | nil => exact ⟨fun _ => rfl, fun _ => rfl⟩
  | cons e pending => rcases e.seq_or_leaf with ⟨a, b, pos, rfl⟩ | ⟨-, -, h⟩ <;> simp_all [turn?]

/-- A turn finds no leaf that was not to come, loses none, and is one of those that were left. -/
theorem turn?_eq_some {w w' : Walk} (h : w.turn? = some w') :
    w'.total = w.total ∧ w.left = w'.left + 1 := by
  obtain ⟨pending, found⟩ := w
  cases pending with
  | nil => cases h
  | cons e pending =>
    rcases e.seq_or_leaf with ⟨a, b, pos, rfl⟩ | ⟨horder, hturns, hturn⟩
    · cases h
      refine ⟨by simp [total, inOrder], ?_⟩
      simp only [left, List.foldr_cons, turns]
      omega
    · rw [hturn] at h
      cases h
      refine ⟨by simp [total, horder], ?_⟩
      simp only [left, List.foldr_cons, hturns]
      omega

theorem left_eq_zero {w : Walk} : w.left = 0 ↔ w.pending = [] := by
  constructor
  · intro h
    rw [← turn?_eq_none]
    cases hturn : w.turn? with
    | none => rfl
    | some w' =>
      have hleft := (turn?_eq_some hturn).2
      omega
  · intro h
    rw [left, h, List.foldr_nil]

theorem total_run (n : Nat) (w : Walk) : (run n w).total = w.total := by
  induction n generalizing w with
  | zero => rfl
  | succ n ih =>
    rw [run]
    cases h : w.turn? with
    | none => rfl
    | some w' => exact (ih w').trans (turn?_eq_some h).1

theorem left_run (n : Nat) (w : Walk) : (run n w).left = w.left - n := by
  induction n generalizing w with
  | zero => rfl
  | succ n ih =>
    rw [run]
    cases h : w.turn? with
    | none =>
      have hend := left_eq_zero.2 (turn?_eq_none.1 h)
      show w.left = w.left - (n + 1)
      omega
    | some w' =>
      have hleft := (turn?_eq_some h).2
      show (run n w').left = w.left - (n + 1)
      rw [ih w']
      omega

/-- A walk ends when it has taken the turns that were left, and then has found all leaves. -/
theorem run_of_left_le {n : Nat} {w : Walk} (h : w.left ≤ n) : run n w = ⟨[], w.total.reverse⟩ := by
  have htotal := total_run n w
  have hend : (run n w).pending = [] := by
    rw [← left_eq_zero, left_run]
    omega
  rw [total, hend, List.flatMap_nil, List.append_nil] at htotal
  rw [← htotal, List.reverse_reverse, ← hend]

theorem left_start (e : Expr) : left ⟨[e], []⟩ = e.turns := rfl

theorem total_start (e : Expr) : total ⟨[e], []⟩ = e.inOrder := by
  simp [total]

end Walk

theorem leaves_eq_inOrder (e : Expr) : e.leaves = e.inOrder := by
  have hrun := Walk.run_of_left_le (Nat.le_of_eq (Walk.left_start e))
  rw [leaves, hrun, List.reverse_reverse, Walk.total_start]

theorem leaves_seq (a b : Expr) (pos : Option Pos) :
    (seq a b pos).leaves = a.leaves ++ b.leaves := by
  simp only [leaves_eq_inOrder, inOrder]

theorem leaves_ne_nil (e : Expr) : e.leaves ≠ [] := by
  cases e with
  | seq a b pos =>
    rw [leaves_seq]
    exact List.append_ne_nil_of_left_ne_nil a.leaves_ne_nil _
  | _ => exact List.cons_ne_nil _ _

/-- Nest statements to the left. The empty list is a null literal at `pos`; a `seq` node has the
position of its first part, or else `pos`. -/
def sequence (stmts : List Expr) (pos : Option Pos) : Expr :=
  match stmts with
  | [] => literal .null pos
  | e :: rest => rest.foldl (fun acc s => seq acc s (acc.pos? <|> pos)) e

end Featherweight.Expr
