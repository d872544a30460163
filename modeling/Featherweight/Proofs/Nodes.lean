import Featherweight.Expr.Sequence

/-!
# Featherweight.Proofs.Nodes

What a tree is made of.

* `Expr.nodes` : the nodes of a tree, with those in the bodies of the closures in its literals.
* `Expr.values` : the values in its literals, with those in the bodies of these closures.
* `Expr.All p q` : every node satisfies `p` and every value in a literal satisfies `q`; `Value.All` is
  the same for a value and what is in its body.
-/

namespace Featherweight

mutual

def Value.nodes : Value → List Expr
  | .closure _ body _ _ => body.nodes
  | .null | .bool _ | .int _ | .host _ => []

def Expr.nodes : Expr → List Expr
  | .literal v pos => .literal v pos :: v.nodes
  | .var x pos => [.var x pos]
  | .print a pos => .print a pos :: a.nodes
  | .binary op a b pos => .binary op a b pos :: (a.nodes ++ b.nodes)
  | .branch a b c pos => .branch a b c pos :: (a.nodes ++ (b.nodes ++ c.nodes))
  | .loop a b pos => .loop a b pos :: (a.nodes ++ b.nodes)
  | .seq a b pos => .seq a b pos :: (a.nodes ++ b.nodes)
  | .declare x a pos => .declare x a pos :: a.nodes
  | .assign x a pos => .assign x a pos :: a.nodes
  | .function params a pos => .function params a pos :: a.nodes
  | .call a args pos => .call a args pos :: (a.nodes ++ Expr.nodesIn args)
  | .blank => [.blank]
  | .host h => [.host h]

def Expr.nodesIn : List Expr → List Expr
  | [] => []
  | e :: es => e.nodes ++ Expr.nodesIn es

end

mutual

def Value.values : Value → List Value
  | .closure params body f i => .closure params body f i :: body.values
  | .null => [.null]
  | .bool b => [.bool b]
  | .int n => [.int n]
  | .host h => [.host h]

def Expr.values : Expr → List Value
  | .literal v _ => v.values
  | .var _ _ | .blank | .host _ => []
  | .print a _ | .declare _ a _ | .assign _ a _ | .function _ a _ => a.values
  | .binary _ a b _ | .loop a b _ | .seq a b _ => a.values ++ b.values
  | .branch a b c _ => a.values ++ (b.values ++ c.values)
  | .call a args _ => a.values ++ Expr.valuesIn args

def Expr.valuesIn : List Expr → List Value
  | [] => []
  | e :: es => e.values ++ Expr.valuesIn es

end

theorem Value.mem_values_self (v : Value) : v ∈ v.values := by
  cases v <;> exact List.mem_cons_self

mutual

theorem Value.mem_values_of_mem_nodes {v : Value} (u : Value) {pos : Option Pos}
    (h : .literal v pos ∈ u.nodes) : v ∈ u.values := by
  cases u with
  | closure params body f i => exact List.mem_cons_of_mem _ (body.mem_values_of_mem_nodes h)
  | _ => cases h

/-- The value of a literal node is one of the values in the tree. -/
theorem Expr.mem_values_of_mem_nodes {v : Value} (e : Expr) {pos : Option Pos}
    (h : .literal v pos ∈ e.nodes) : v ∈ e.values := by
  cases e with
  | literal u pos =>
    rcases List.mem_cons.1 h with h | h
    · cases h
      exact v.mem_values_self
    · exact Value.mem_values_of_mem_nodes u h
  | var | blank | host => simp [Expr.nodes] at h
  | print a | declare _ a | assign _ a | function _ a =>
    simp only [Expr.nodes, List.mem_cons, reduceCtorEq, false_or] at h
    exact a.mem_values_of_mem_nodes h
  | binary _ a b | loop a b | seq a b =>
    simp only [Expr.nodes, List.mem_cons, reduceCtorEq, false_or, List.mem_append] at h
    exact List.mem_append.2 (h.imp a.mem_values_of_mem_nodes b.mem_values_of_mem_nodes)
  | branch a b c =>
    simp only [Expr.nodes, List.mem_cons, reduceCtorEq, false_or, List.mem_append] at h
    exact List.mem_append.2 (h.imp a.mem_values_of_mem_nodes fun h =>
      List.mem_append.2 (h.imp b.mem_values_of_mem_nodes c.mem_values_of_mem_nodes))
  | call a args =>
    simp only [Expr.nodes, List.mem_cons, reduceCtorEq, false_or, List.mem_append] at h
    exact List.mem_append.2 (h.imp a.mem_values_of_mem_nodes (Expr.mem_valuesIn_of_mem_nodesIn args))

theorem Expr.mem_valuesIn_of_mem_nodesIn {v : Value} (es : List Expr) {pos : Option Pos}
    (h : .literal v pos ∈ Expr.nodesIn es) : v ∈ Expr.valuesIn es := by
  cases es with
  | nil => cases h
  | cons e es =>
    exact List.mem_append.2 ((List.mem_append.1 h).imp e.mem_values_of_mem_nodes
      (Expr.mem_valuesIn_of_mem_nodesIn es))

end

/-- There is a closure over a frame in a value, or deeper in its code. -/
def Value.Captures (v : Value) (f : FrameId) : Prop :=
  ∃ params body i, .closure params body f i ∈ v.values

def Expr.Captures (e : Expr) (f : FrameId) : Prop :=
  ∃ params body i, .closure params body f i ∈ e.values

section All

variable (p : Expr → Prop) (q : Value → Prop)

mutual

def Value.All : Value → Prop
  | .closure params body f i => q (.closure params body f i) ∧ body.All
  | .null => q .null
  | .bool b => q (.bool b)
  | .int n => q (.int n)
  | .host h => q (.host h)

def Expr.All : Expr → Prop
  | .literal v pos => p (.literal v pos) ∧ v.All
  | .var x pos => p (.var x pos)
  | .print a pos => p (.print a pos) ∧ a.All
  | .binary op a b pos => p (.binary op a b pos) ∧ a.All ∧ b.All
  | .branch a b c pos => p (.branch a b c pos) ∧ a.All ∧ b.All ∧ c.All
  | .loop a b pos => p (.loop a b pos) ∧ a.All ∧ b.All
  | .seq a b pos => p (.seq a b pos) ∧ a.All ∧ b.All
  | .declare x a pos => p (.declare x a pos) ∧ a.All
  | .assign x a pos => p (.assign x a pos) ∧ a.All
  | .function params a pos => p (.function params a pos) ∧ a.All
  | .call a args pos => p (.call a args pos) ∧ a.All ∧ Expr.AllIn args
  | .blank => p .blank
  | .host h => p (.host h)

def Expr.AllIn : List Expr → Prop
  | [] => True
  | e :: es => e.All ∧ Expr.AllIn es

end

end All

variable {p p' : Expr → Prop} {q q' : Value → Prop}

mutual

theorem Value.all_iff (v : Value) :
    v.All p q ↔ (∀ n ∈ v.nodes, p n) ∧ ∀ u ∈ v.values, q u := by
  cases v with
  | closure params body f i =>
    simp only [Value.All, Value.nodes, Value.values, Expr.all_iff body, List.mem_cons, forall_eq_or_imp]
    exact and_left_comm
  | _ => simp [Value.All, Value.nodes, Value.values]

theorem Expr.all_iff (e : Expr) :
    e.All p q ↔ (∀ n ∈ e.nodes, p n) ∧ ∀ u ∈ e.values, q u := by
  cases e with
  | literal v pos =>
    simp only [Expr.All, Expr.nodes, Expr.values, Value.all_iff v, List.mem_cons, forall_eq_or_imp, and_assoc]
  | var x pos => simp [Expr.All, Expr.nodes, Expr.values]
  | blank => simp [Expr.All, Expr.nodes, Expr.values]
  | host h => simp [Expr.All, Expr.nodes, Expr.values]
  | print a pos =>
    simp only [Expr.All, Expr.nodes, Expr.values, Expr.all_iff a, List.mem_cons, forall_eq_or_imp, and_assoc]
  | declare x a pos =>
    simp only [Expr.All, Expr.nodes, Expr.values, Expr.all_iff a, List.mem_cons, forall_eq_or_imp, and_assoc]
  | assign x a pos =>
    simp only [Expr.All, Expr.nodes, Expr.values, Expr.all_iff a, List.mem_cons, forall_eq_or_imp, and_assoc]
  | function params a pos =>
    simp only [Expr.All, Expr.nodes, Expr.values, Expr.all_iff a, List.mem_cons, forall_eq_or_imp, and_assoc]
  | binary op a b pos =>
    simp only [Expr.All, Expr.nodes, Expr.values, Expr.all_iff a, Expr.all_iff b,
      List.mem_cons, forall_eq_or_imp, List.forall_mem_append, and_assoc, and_left_comm]
  | loop a b pos =>
    simp only [Expr.All, Expr.nodes, Expr.values, Expr.all_iff a, Expr.all_iff b,
      List.mem_cons, forall_eq_or_imp, List.forall_mem_append, and_assoc, and_left_comm]
  | seq a b pos =>
    simp only [Expr.All, Expr.nodes, Expr.values, Expr.all_iff a, Expr.all_iff b,
      List.mem_cons, forall_eq_or_imp, List.forall_mem_append, and_assoc, and_left_comm]
  | branch a b c pos =>
    simp only [Expr.All, Expr.nodes, Expr.values, Expr.all_iff a, Expr.all_iff b, Expr.all_iff c,
      List.mem_cons, forall_eq_or_imp, List.forall_mem_append, and_assoc, and_left_comm]
  | call a args pos =>
    simp only [Expr.All, Expr.nodes, Expr.values, Expr.all_iff a, Expr.allIn_iff args,
      List.mem_cons, forall_eq_or_imp, List.forall_mem_append, and_assoc, and_left_comm]

theorem Expr.allIn_iff (es : List Expr) :
    Expr.AllIn p q es ↔ (∀ n ∈ Expr.nodesIn es, p n) ∧ ∀ u ∈ Expr.valuesIn es, q u := by
  cases es with
  | nil => simp [Expr.AllIn, Expr.nodesIn, Expr.valuesIn]
  | cons e es =>
    simp only [Expr.AllIn, Expr.nodesIn, Expr.valuesIn, Expr.all_iff e, Expr.allIn_iff es,
      List.forall_mem_append, and_assoc, and_left_comm]

end

theorem Value.All.mono {v : Value} (h : v.All p q) (hp : ∀ n, p n → p' n) (hq : ∀ u, q u → q' u) :
    v.All p' q' := by
  rw [Value.all_iff] at h ⊢
  exact ⟨fun n hn => hp n (h.1 n hn), fun u hu => hq u (h.2 u hu)⟩

namespace Expr

theorem All.mono {e : Expr} (h : e.All p q) (hp : ∀ n, p n → p' n) (hq : ∀ u, q u → q' u) :
    e.All p' q' := by
  rw [all_iff] at h ⊢
  exact ⟨fun n hn => hp n (h.1 n hn), fun u hu => hq u (h.2 u hu)⟩

theorem allIn_iff_forall (es : List Expr) : AllIn p q es ↔ ∀ e ∈ es, e.All p q := by
  induction es with
  | nil => simp [AllIn]
  | cons e es ih => simp [AllIn, ih]

theorem All.node {e : Expr} (h : e.All p q) : p e := by
  cases e <;> first | exact h | exact h.1

theorem All.leaves {e : Expr} (h : e.All p q) : ∀ s ∈ e.leaves, s.All p q := by
  cases e with
  | seq a b pos =>
    intro s hs
    rw [leaves_seq, List.mem_append] at hs
    rcases hs with hs | hs
    · exact All.leaves h.2.1 s hs
    · exact All.leaves h.2.2 s hs
  | _ => simpa [leaves_eq_inOrder, inOrder] using h

theorem all_sequence {stmts : List Expr} {pos : Option Pos} (hnull : (literal .null pos).All p q)
    (hseq : ∀ a b pos', p (seq a b pos')) (h : ∀ s ∈ stmts, s.All p q) :
    (sequence stmts pos).All p q := by
  cases stmts with
  | nil => exact hnull
  | cons e rest =>
    rw [sequence]
    induction rest generalizing e with
    | nil => exact h e (by simp)
    | cons s rest ih =>
      rw [List.foldl_cons]
      apply ih
      intro t ht
      rcases List.mem_cons.1 ht with rfl | ht
      · exact ⟨hseq _ _ _, h e (by simp), h s (by simp)⟩
      · exact h t (by simp [ht])

end Expr

end Featherweight
