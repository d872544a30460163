import Featherweight.Proofs.Drive

/-!
# Featherweight.Proofs.Pairing

Every derivation can be changed into one in which each `else` belongs to the nearest branch, and the
tokens stay the same.

* `Tree.exists_attached` : an `else` and its statement go to the last branch that is still open.
* `Tree.exists_paired` : hence every derivation has a paired one with the same yield.
-/

namespace Featherweight

theorem Tree.paired_term {t : Terminal} (d : Tree (.term t)) : d.Paired := by
  cases d with
  | leaf kind text => trivial

/-! ## The two kinds of branches -/

section Branches

variable (i : Tree (.term (.keyword .ifWord))) (l : Tree (.term .lpar))
  (test : Tree (.non (.exp .expr))) (r : Tree (.term .rpar)) (yes : Tree (.non .stmt))
  (el : Tree (.term (.keyword .elseWord))) (no : Tree (.non .stmt))

def Tree.ifThen : Tree (.non .stmt) :=
  .node .stmtIf (.cons i (.cons l (.cons test (.cons r (.cons yes .nil)))))

def Tree.ifElse : Tree (.non .stmt) :=
  .node .stmtIfElse
    (.cons i (.cons l (.cons test (.cons r (.cons yes (.cons el (.cons no .nil)))))))

theorem Tree.yield_ifThen {yes yes' : Tree (.non .stmt)} {more : List Lexeme}
    (h : yes'.yield = yes.yield ++ more) :
    (ifThen i l test r yes').yield = (ifThen i l test r yes).yield ++ more := by
  simp [ifThen, Tree.yield, Forest.yield, h]

theorem Tree.yield_ifElse :
    (ifElse i l test r yes el no).yield =
      (ifThen i l test r yes).yield ++ (el.yield ++ no.yield) := by
  simp [ifElse, ifThen, Tree.yield, Forest.yield]

theorem Tree.paired_ifThen : (ifThen i l test r yes).Paired ↔ test.Paired ∧ yes.Paired := by
  simp [ifThen, Tree.Paired, Forest.Paired, Forest.Nearest, paired_term]

theorem Tree.paired_ifElse : (ifElse i l test r yes el no).Paired ↔
    yes.endsOpen = false ∧ test.Paired ∧ yes.Paired ∧ no.Paired := by
  simp [ifElse, Tree.Paired, Forest.Paired, Forest.Nearest, Forest.openAt, paired_term]

end Branches

/-! ## Attaching an `else` -/

mutual

theorem Tree.exists_attached (el : Tree (.term (.keyword .elseWord))) {no : Tree (.non .stmt)}
    (hno : no.Paired) {X : Symbol} (d : Tree X) (hp : d.Paired) (hopen : d.endsOpen = true) :
    ∃ d' : Tree X, d'.Paired ∧ d'.yield = d.yield ++ (el.yield ++ no.yield) := by
  match d with
  | .leaf kind text => cases hopen
  | .node p parts =>
    cases hlast : parts.endsOpen false with
    | true =>
      obtain ⟨parts', hpaired, hyield, hsame⟩ := Forest.exists_attached el hno parts hp.2 hlast
      refine ⟨.node p parts', ⟨fun h => ?_, hpaired⟩, hyield⟩
      subst h
      rw [hsame 4 (by decide)]
      exact hp.1 rfl
    | false =>
      -- This branch is the nearest one, so the `else` goes to it.
      obtain rfl : p = .stmtIf := by simpa [Tree.endsOpen, hlast] using hopen
      match parts with
      | .cons i (.cons l (.cons test (.cons r (.cons yes .nil)))) =>
        obtain ⟨htest, hyes⟩ := (Tree.paired_ifThen i l test r yes).1 hp
        exact ⟨.ifElse i l test r yes el no,
          (Tree.paired_ifElse ..).2 ⟨hlast, htest, hyes, hno⟩, Tree.yield_ifElse ..⟩

/-- The part that changes is the last one. -/
theorem Forest.exists_attached (el : Tree (.term (.keyword .elseWord))) {no : Tree (.non .stmt)}
    (hno : no.Paired) {word : List Symbol} (parts : Forest word) (hp : parts.Paired)
    (hopen : parts.endsOpen false = true) :
    ∃ parts' : Forest word, parts'.Paired ∧
      parts'.yield = parts.yield ++ (el.yield ++ no.yield) ∧
      ∀ n, n + 1 < word.length → parts'.openAt n = parts.openAt n := by
  match parts with
  | .nil => cases hopen
  | .cons head .nil =>
    obtain ⟨head', hpaired, hyield⟩ := Tree.exists_attached el hno head hp.1 hopen
    refine ⟨.cons head' .nil, ⟨hpaired, trivial⟩, by simp [Forest.yield, hyield], ?_⟩
    intro n hn
    simp at hn
  | .cons head (.cons next tail) =>
    obtain ⟨tail', hpaired, hyield, hsame⟩ :=
      Forest.exists_attached el hno (.cons next tail) hp.2 hopen
    refine ⟨.cons head tail', ⟨hp.1, hpaired⟩, by simp [Forest.yield, hyield], ?_⟩
    intro n hn
    cases n with
    | zero => rfl
    | succ n => exact hsame n (by simpa using hn)

end

/-! ## Pairing a derivation -/

mutual

/-- A derivation in which each `else` belongs to the nearest branch, with the same tokens. -/
theorem Tree.exists_paired {X : Symbol} (d : Tree X) :
    ∃ d' : Tree X, d'.Paired ∧ d'.yield = d.yield := by
  match d with
  | .leaf kind text => exact ⟨.leaf kind text, trivial, rfl⟩
  | .node p parts =>
    obtain ⟨parts', hpaired, hyield⟩ := parts.exists_paired
    rw [Tree.yield, ← hyield]
    by_cases hnear : Forest.Nearest p parts'
    · exact ⟨.node p parts', ⟨hnear, hpaired⟩, rfl⟩
    · obtain ⟨rfl, hopen⟩ := Classical.not_imp.1 hnear
      match parts' with
      | .cons i (.cons l (.cons test (.cons r (.cons yes (.cons el (.cons no .nil)))))) =>
        obtain ⟨-, -, htest, -, hyes, -, hno, -⟩ := hpaired
        have hyesOpen : yes.endsOpen = true := Bool.not_eq_false _ ▸ hopen
        obtain ⟨yes', hpaired, hyield⟩ := Tree.exists_attached el hno yes hyes hyesOpen
        exact ⟨.ifThen i l test r yes', (Tree.paired_ifThen ..).2 ⟨htest, hpaired⟩,
          (Tree.yield_ifThen i l test r hyield).trans (Tree.yield_ifElse ..).symm⟩

theorem Forest.exists_paired {word : List Symbol} (parts : Forest word) :
    ∃ parts' : Forest word, parts'.Paired ∧ parts'.yield = parts.yield := by
  match parts with
  | .nil => exact ⟨.nil, trivial, rfl⟩
  | .cons head tail =>
    obtain ⟨head', hhead, hyield⟩ := head.exists_paired
    obtain ⟨tail', htail, hyields⟩ := tail.exists_paired
    exact ⟨.cons head' tail', ⟨hhead, htail⟩, by rw [Forest.yield, Forest.yield, hyield, hyields]⟩

end

end Featherweight
