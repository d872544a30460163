import Featherweight.Highlight
import Featherweight.Proofs.Layout

/-!
# Featherweight.Proofs.Pieces

Colouring loses nothing.

* `piece_length` : at every place of every text some piece starts, which takes a character or more and
  ends within the text.
* `pieces_cons` : the pieces of a text are the first one and those of what is left, whatever bound there
  is on their number.
* `pieces_cover` : no piece is empty, and together they are the text.
-/

namespace Featherweight.Highlight

variable {text : List Char} {n m : Nat}

theorem blockLength?_eq_some (h : blockLength? n text = some m) : n ≤ m ∧ m ≤ n + text.length := by
  fun_induction blockLength? n text with
  | case1 n rest =>
    obtain rfl := Option.some.inj h
    simp only [List.length_cons]
    omega
  | case2 n | case3 n =>
    obtain rfl := Option.some.inj h
    omega
  | case4 => cases h
  | case5 n c rest _ _ _ ih =>
    have hbounds := ih h
    simp only [List.length_cons]
    omega

theorem commentLength?_eq_some (h : commentLength? text = some n) : 0 < n ∧ n ≤ text.length := by
  revert h
  fun_cases commentLength? text with
  | case1 rest =>
    intro h
    have hle := (List.takeWhile_prefix (l := rest) (· ≠ '\n')).length_le
    obtain rfl := Option.some.inj h
    simp only [List.length_cons]
    omega
  | case2 rest =>
    intro h
    have hbounds := blockLength?_eq_some h
    simp only [List.length_cons]
    omega
  | case3 =>
    intro h
    cases h

theorem operatorLength?_eq_some (h : operatorLength? text = some n) : 0 < n ∧ n ≤ text.length := by
  revert h
  fun_cases operatorLength? text with
  | case1 | case2 | case3 | case4 =>
    intro h
    obtain rfl := Option.some.inj h
    simp
  | case5 | case6 =>
    intro h
    cases h

/-- The first piece takes a character or more, and no more than there are. -/
theorem piece_length (c : Char) (rest : List Char) :
    0 < (piece c rest).2 ∧ (piece c rest).2 ≤ (c :: rest).length := by
  fun_cases piece c rest with
  | case1 text n hn => exact commentLength?_eq_some hn
  | case2 text _ hc => exact Token.takeWhile_cons_length rest hc
  | case3 text _ _ hc =>
    exact Token.takeWhile_cons_length rest (Token.isNamePart_of_isNameStart hc)
  | case4 text _ _ _ n hn => exact operatorLength?_eq_some hn
  | case6 text _ _ _ _ _ hc => exact Token.takeWhile_cons_length rest hc
  | case5 | case7 => simp

theorem length_drop_piece (c : Char) (rest : List Char) :
    ((c :: rest).drop (piece c rest).2).length ≤ rest.length := by
  have hpos := (piece_length c rest).1
  simp only [List.length_drop, List.length_cons]
  omega

/-- The bound on the number of pieces is never what ends them. -/
theorem piecesFrom_of_le (hn : text.length ≤ n) (hm : text.length ≤ m) :
    piecesFrom n text = piecesFrom m text := by
  induction n generalizing text m with
  | zero =>
    obtain rfl := List.eq_nil_of_length_eq_zero (Nat.le_zero.1 hn)
    simp [piecesFrom]
  | succ n ih =>
    cases text with
    | nil => simp [piecesFrom]
    | cons c rest =>
      have hrest := length_drop_piece c rest
      simp only [List.length_cons] at hn hm
      obtain ⟨m, rfl⟩ : ∃ k, m = k + 1 := ⟨m - 1, by omega⟩
      simp only [piecesFrom]
      rw [ih (m := m) (by omega) (by omega)]

theorem pieces_nil : pieces [] = [] := rfl

theorem pieces_cons (c : Char) (rest : List Char) :
    pieces (c :: rest) = ((piece c rest).1, (c :: rest).take (piece c rest).2) ::
      pieces ((c :: rest).drop (piece c rest).2) := by
  rw [pieces, List.length_cons, piecesFrom, pieces]
  simp only []
  rw [piecesFrom_of_le (length_drop_piece c rest) (Nat.le_refl _)]

/-- Every piece has a character in it, and the pieces one after the other are the text. -/
theorem pieces_cover (text : List Char) :
    (∀ p ∈ pieces text, p.2 ≠ []) ∧ ((pieces text).map (·.2)).flatten = text := by
  -- The first piece may take any number of characters, so the induction is on the length.
  induction hlen : text.length using Nat.strongRecOn generalizing text with
  | ind len ih =>
    cases text with
    | nil => simp [pieces_nil]
    | cons c rest =>
      have hrest := length_drop_piece c rest
      rw [List.length_cons] at hlen
      obtain ⟨hfull, hflat⟩ := ih _ (by omega) ((c :: rest).drop (piece c rest).2) rfl
      rw [pieces_cons]
      constructor
      · intro p hp
        rcases List.mem_cons.1 hp with rfl | hp
        · obtain ⟨hpos, hle⟩ := piece_length c rest
          show (c :: rest).take (piece c rest).2 ≠ []
          rw [← List.length_pos_iff, List.length_take]
          omega
        · exact hfull p hp
      · rw [List.map_cons, List.flatten_cons, hflat, List.take_append_drop]

/-- A line end behind an open comment, one inside another, and a character that no token has. -/
theorem pieces_cover_open :
    let text := "a/*b\n\u200b/*\n".toList
    (pieces text).map (·.1.name) =
      ["identifier", "operator", "operator", "identifier", "", "error", "comment", ""] ∧
    (∀ p ∈ pieces text, p.2 ≠ []) ∧ ((pieces text).map (·.2)).flatten = text :=
  ⟨rfl, pieces_cover _⟩

end Featherweight.Highlight
