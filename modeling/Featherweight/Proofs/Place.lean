import Featherweight.Pos
import Featherweight.Proofs.Placed
import Mathlib.Data.List.Induction

/-!
# Featherweight.Proofs.Place

Lines and columns of a text, and stretches of it.

* `Place.behind before` : the line and the column of the place behind `before`, by counting.
* `Point.place_past` : the points of the reader are these places.
* `Place.Before` : the order of places, which is that of the text.
* `Span.On text s` : the span is a stretch of the text with something in it.
* `Row before mid ts` : behind `before`, the text `mid` is made of the tokens `ts` and the gaps in
  front of each, and each token knows its place.
-/

namespace Featherweight

structure Place where
  line : Nat
  column : Nat

namespace Place

/-- Lines and columns count from one, and only a line feed ends a line. -/
def behind (before : List Char) : Place :=
  ⟨1 + before.count '\n', 1 + (Text.lastLine before).length⟩

def Before (a b : Place) : Prop := a.line < b.line ∨ a.line = b.line ∧ a.column < b.column

end Place

namespace Text

theorem lastLine_concat (text : List Char) (c : Char) :
    lastLine (text ++ [c]) = if c = '\n' then [] else lastLine text ++ [c] := by
  unfold lastLine
  by_cases hc : c = '\n'
  · simp [hc]
  · simp [hc]

end Text

namespace Point

theorem past_concat (p : Point) (text : List Char) (c : Char) :
    p.past (text ++ [c]) = (p.past text).next c := by
  simp [past]

theorem offset_past (p : Point) (text : List Char) :
    (p.past text).offset = p.offset + text.length := by
  induction text generalizing p with
  | nil => rfl
  | cons c text ih =>
    have hnext : (p.next c).offset = p.offset + 1 := by
      unfold next
      split <;> rfl
    show ((p.next c).past text).offset = _
    rw [ih, hnext, List.length_cons]
    omega

/-- The reader's points are the places of the text. -/
theorem place_past (text : List Char) :
    (start.past text).line = (Place.behind text).line ∧
      (start.past text).column = (Place.behind text).column := by
  induction text using List.reverseRecOn with
  | nil => exact ⟨rfl, rfl⟩
  | append_singleton text c ih =>
    obtain ⟨hline, hcolumn⟩ := ih
    simp only [Place.behind] at hline hcolumn ⊢
    rw [past_concat, next, Text.lastLine_concat]
    by_cases hc : c = '\n'
    · simp [hc, hline, Nat.add_assoc]
    · simp [hc, hline, hcolumn, Nat.add_assoc]

end Point

namespace Place

/-- A place further on in the text is a later place. -/
theorem behind_before (before : List Char) {inside : List Char} (h : inside ≠ []) :
    (behind before).Before (behind (before ++ inside)) := by
  induction inside using List.reverseRecOn with
  | nil => exact absurd rfl h
  | append_singleton inside c ih =>
    have hle : behind (before ++ inside) = behind before ∨
        (behind before).Before (behind (before ++ inside)) := by
      by_cases hi : inside = []
      · exact .inl (by rw [hi, List.append_nil])
      · exact .inr (ih hi)
    have hstep : (behind (before ++ inside)).Before (behind (before ++ inside ++ [c])) := by
      unfold Before behind
      rw [Text.lastLine_concat]
      by_cases hc : c = '\n'
      · simp [hc]
      · simp [hc]
    rw [← List.append_assoc]
    unfold Before at *
    rcases hle with hle | hle
    · rw [← hle]
      exact hstep
    · omega

theorem not_before_of_prefix {a b : List Char} (h : a <+: b) : ¬ (behind b).Before (behind a) := by
  obtain ⟨more, rfl⟩ := h
  intro hlt
  by_cases hm : more = []
  · rw [hm, List.append_nil] at hlt
    unfold Before at hlt
    omega
  · have hgt := behind_before a hm
    unfold Before at hlt hgt
    omega

end Place

/-! ## Stretches of a text -/

namespace Span

/-- The stretch of `inside` behind `before`. -/
def across (before inside : List Char) : Span :=
  ⟨Point.start.past before, Point.start.past (before ++ inside)⟩

def On (text : List Char) (s : Span) : Prop :=
  ∃ before inside after, text = before ++ (inside ++ after) ∧ inside ≠ [] ∧ s = across before inside

def Within (s w : Span) : Prop :=
  w.start.offset ≤ s.start.offset ∧ s.stop.offset ≤ w.stop.offset

theorem Within.refl (s : Span) : s.Within s := ⟨Nat.le_refl _, Nat.le_refl _⟩

theorem Within.trans {s w u : Span} (h : s.Within w) (h' : w.Within u) : s.Within u :=
  ⟨Nat.le_trans h'.1 h.1, Nat.le_trans h.2 h'.2⟩

end Span

/-- The position from one place to another. -/
def Pos.between (a b : Place) : Pos := ⟨some a.line, some a.column, some b.line, some b.column⟩

theorem Pos.ofSpan_across (before inside : List Char) :
    Pos.ofSpan (.across before inside) = .between (.behind before) (.behind (before ++ inside)) := by
  obtain ⟨hline, hcolumn⟩ := Point.place_past before
  obtain ⟨hline', hcolumn'⟩ := Point.place_past (before ++ inside)
  simp only [Span.across, ofSpan, between, hline, hcolumn, hline', hcolumn']

/-- A position lies within another if it starts no sooner and ends no later. -/
def Pos.Within (q p : Pos) : Prop :=
  ∃ a b a' b', p = .between a b ∧ q = .between a' b' ∧ ¬ a'.Before a ∧ ¬ b.Before b'

theorem Span.Within.pos {text : List Char} {s w : Span} (h : s.Within w) (hs : s.On text)
    (hw : w.On text) : (Pos.ofSpan s).Within (.ofSpan w) := by
  obtain ⟨before, inside, after, htext, -, rfl⟩ := hs
  obtain ⟨before', inside', after', htext', -, rfl⟩ := hw
  have hstart : before' <+: before := by
    refine List.prefix_of_prefix_length_le ⟨_, htext'.symm⟩ ⟨_, htext.symm⟩ ?_
    simpa [Span.across, Point.offset_past] using h.1
  have hstop : before ++ inside <+: before' ++ inside' := by
    rw [← List.append_assoc] at htext htext'
    refine List.prefix_of_prefix_length_le ⟨_, htext.symm⟩ ⟨_, htext'.symm⟩ ?_
    simpa [Span.across, Point.offset_past] using h.2
  exact ⟨_, _, _, _, Pos.ofSpan_across before' inside', Pos.ofSpan_across before inside,
    Place.not_before_of_prefix hstart, Place.not_before_of_prefix hstop⟩

/-! ## Rows of tokens -/

inductive Row : List Char → List Char → List Token → Prop where
  | nil {before : List Char} : Row before [] []
  | cons {before gap mid : List Char} {t : Token} {ts : List Token} : Laid gap [] →
      t.lexeme.Spelt → t.span = .across (before ++ gap) t.text.toList →
      Row (before ++ (gap ++ t.text.toList)) mid ts →
      Row before (gap ++ (t.text.toList ++ mid)) (t :: ts)

namespace Row

variable {before mid mid' : List Char} {ts us : List Token}

theorem append (h : Row before mid ts) (h' : Row (before ++ mid) mid' us) :
    Row before (mid ++ mid') (ts ++ us) := by
  induction h with
  | nil => simpa using h'
  | @cons before gap mid t ts hgap hspelt hspan _ ih =>
    have hrest := ih (by simpa using h')
    simpa using Row.cons hgap hspelt hspan hrest

theorem split (h : Row before mid (ts ++ us)) :
    ∃ m m', mid = m ++ m' ∧ Row before m ts ∧ Row (before ++ m) m' us := by
  induction ts generalizing before mid with
  | nil => exact ⟨[], mid, rfl, .nil, by simpa using h⟩
  | cons t ts ih =>
    cases h with
    | @cons _ gap mid _ _ hgap hspelt hspan hrest =>
      obtain ⟨m, m', rfl, hm, hm'⟩ := ih hrest
      refine ⟨gap ++ (t.text.toList ++ m), m', by simp, .cons hgap hspelt hspan hm, ?_⟩
      simpa using hm'

end Row

/-- The tokens of a text are a row, with a gap behind them. -/
theorem Placed.row {text : List Char} {tokens : List Token} (h : Placed text tokens) :
    ∃ mid gap, text = mid ++ gap ∧ Laid gap [] ∧ Row [] mid tokens := by
  induction h with
  | nil => exact ⟨[], [], rfl, .nil, .nil⟩
  | @gap before gap tokens _ hg ih =>
    obtain ⟨mid, gap', rfl, hgap', hrow⟩ := ih
    have hgap : Laid gap [] := by simpa using Laid.gap hg .nil
    exact ⟨mid, gap' ++ gap, by simp, by simpa using hgap'.append hgap, hrow⟩
  | @token before tokens t _ hl hspan ih =>
    obtain ⟨mid, gap, rfl, hgap, hrow⟩ := ih
    have htoken : Row mid (gap ++ (t.text.toList ++ [])) [t] := .cons hgap hl hspan .nil
    refine ⟨mid ++ (gap ++ (t.text.toList ++ [])), [], by simp, .nil, ?_⟩
    exact hrow.append htoken

end Featherweight
