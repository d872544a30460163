import Featherweight.Expr.Sequence

/-!
# Featherweight.Proofs.Bare

Trees and values without positions.

* `Expr.bare` and `Value.bare` leave out every position, also those in the bodies of closures.
* Sequences keep their shape (`bare_sequence`, `leaves_bare`).
-/

namespace Featherweight

mutual

def Value.bare : Value → Value
  | .null => .null
  | .bool b => .bool b
  | .int n => .int n
  | .closure params body f i => .closure params body.bare f i
  | .host h => .host h

def Expr.bare : Expr → Expr
  | .literal v _ => .literal v.bare none
  | .var x _ => .var x none
  | .print a _ => .print a.bare none
  | .binary op a b _ => .binary op a.bare b.bare none
  | .branch a b c _ => .branch a.bare b.bare c.bare none
  | .loop a b _ => .loop a.bare b.bare none
  | .seq a b _ => .seq a.bare b.bare none
  | .declare x a _ => .declare x a.bare none
  | .assign x a _ => .assign x a.bare none
  | .function params a _ => .function params a.bare none
  | .call f args _ => .call f.bare (Expr.bareAll args) none
  | .blank => .blank
  | .host h => .host h

def Expr.bareAll : List Expr → List Expr
  | [] => []
  | e :: es => e.bare :: Expr.bareAll es

end

namespace Expr

theorem bareAll_eq_map (es : List Expr) : bareAll es = es.map bare := by
  induction es with
  | nil => simp [bareAll]
  | cons e es ih => simp [bareAll, ih]

theorem leaves_bare (e : Expr) : e.bare.leaves = e.leaves.map bare := by
  cases e with
  | seq a b pos =>
    rw [bare, leaves_seq, leaves_seq, List.map_append, leaves_bare a, leaves_bare b]
  | _ => simp [leaves_eq_inOrder, bare, inOrder]

/-- Statements nested to the left, without positions. -/
def chain : List Expr → Expr
  | [] => .literal .null none
  | e :: rest => rest.foldl (fun acc s => .seq acc s none) e

theorem bare_sequence (stmts : List Expr) (pos : Option Pos) :
    (sequence stmts pos).bare = chain (stmts.map bare) := by
  cases stmts with
  | nil => simp [sequence, chain, bare, Value.bare]
  | cons e rest =>
    simp only [sequence, chain, List.map_cons]
    induction rest generalizing e with
    | nil => rfl
    | cons s rest ih => simp only [List.foldl_cons, List.map_cons, ih, bare]

theorem chain_concat (e : Expr) (stmts : List Expr) (s : Expr) :
    chain (e :: (stmts ++ [s])) = .seq (chain (e :: stmts)) s none := by
  simp [chain]

theorem leaves_chain (e : Expr) (rest : List Expr) :
    (chain (e :: rest)).leaves = (e :: rest).flatMap leaves := by
  induction rest generalizing e with
  | nil => simp [chain]
  | cons s rest ih =>
    have h := ih (.seq e s none)
    simp only [chain, List.foldl_cons] at h ⊢
    rw [h]
    simp [leaves_seq]

end Expr

end Featherweight
