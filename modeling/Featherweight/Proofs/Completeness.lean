import Featherweight.Proofs.Drive
import Featherweight.Proofs.Soundness

/-!
# Featherweight.Proofs.Completeness

Every program of the grammar is read as its derivation says.

* `render` writes tokens one after the other with separators between them.
* `Lexeme.Plain` : a token that is read as itself where a blank or the end of the text follows it.
* `Drives.scans_render` : a text of tokens that drive the machine is read to the end.
-/

namespace Featherweight

/-- Tokens with a separator after each but the last. -/
def render (sep : Nat → List Char) : List Lexeme → List Char
  | [] => []
  | [l] => l.text.toList
  | l :: ls => l.text.toList ++ (sep 0 ++ render (fun n => sep (n + 1)) ls)

namespace Token

theorem ignored_digit {c : Char} (rest : List Char) (h : c.isDigit = true) :
    ignored (c :: rest) = 0 := by
  apply ignored_cons
  · by_contra hb
    rw [isDigit_of_isSpace (isSpace_of_isBlank (by simpa using hb))] at h
    cases h
  · rintro rfl
    cases h

theorem readings_spelt_word {text : String} (hw : Lexeme.Spelt ⟨.name, text⟩) :
    ignored text.toList = 0 ∧ readings text.toList = wordReadings text.toList := by
  obtain ⟨c, cs, ht, hc, hcs⟩ := hw
  dsimp only at ht
  have hpart : ∀ d ∈ c :: cs, isNamePart d = true := by
    intro d hd
    rcases List.mem_cons.1 hd with rfl | hd
    · exact isNamePart_of_isNameStart hc
    · exact hcs d hd
  have htake : (c :: cs).takeWhile isNamePart = c :: cs := List.takeWhile_eq_self_iff.2 hpart
  have hb : isBlank c = false := by
    by_contra hb
    have := isNamePart_of_isSpace (isSpace_of_isBlank (by simpa using hb))
    rw [isNamePart_of_isNameStart hc] at this
    cases this
  have hs : c ≠ '/' := by
    rintro rfl
    cases hc
  rw [ht]
  exact ⟨ignored_cons _ hb hs, by rw [readings_word _ hc, htake]⟩

theorem spelt_keyword (k : Keyword) : Lexeme.Spelt ⟨.name, k.text⟩ := by
  cases k <;> exact ⟨_, _, rfl, rfl, List.all_eq_true.1 rfl⟩

end Token

/-- A token that stands for itself wherever it is followed by a blank. -/
def Lexeme.Plain (l : Lexeme) : Prop :=
  l.Spelt ∧ (l.kind = .name → Keyword.ofText? l.text = none)

namespace Lexeme.Plain

variable {l : Lexeme}

/-- The text of a token starts with no gap and is read as the token first. -/
theorem readings (h : l.Plain) :
    Token.ignored l.text.toList = 0 ∧
      ∃ more, Token.readings l.text.toList = (l.kind, l.text.toList.length) :: more := by
  obtain ⟨kind, text⟩ := l
  obtain ⟨hl, hname⟩ := h
  cases kind with
  | eof => exact absurd hl id
  | int =>
    obtain ⟨hne, hd⟩ := hl
    dsimp only at hne hd ⊢
    cases ht : text.toList with
    | nil => exact absurd ht hne
    | cons c cs =>
      rw [ht] at hd
      have hc := hd c List.mem_cons_self
      refine ⟨Token.ignored_digit _ hc, [], ?_⟩
      rw [Token.readings_digit _ hc, List.takeWhile_eq_self_iff.2 hd]
  | name =>
    obtain ⟨hi, hread⟩ := Token.readings_spelt_word hl
    refine ⟨hi, [], ?_⟩
    dsimp only at hread hname ⊢
    rw [hread, Token.wordReadings, String.ofList_toList, hname rfl]
  | keyword k =>
    obtain rfl : text = k.text := hl
    obtain ⟨hi, hread⟩ := Token.readings_spelt_word (Token.spelt_keyword k)
    refine ⟨hi, [(.name, k.text.toList.length)], ?_⟩
    dsimp only at hread ⊢
    rw [hread, Token.wordReadings, String.ofList_toList, Keyword.ofText?_text]
  | op o =>
    obtain rfl : text = o.symbol := hl
    cases o <;> exact ⟨rfl, _, rfl⟩
  | _ =>
    obtain rfl : text = _ := hl
    exact ⟨rfl, [], rfl⟩

theorem length_pos (h : l.Plain) : 0 < l.text.toList.length := by
  obtain ⟨-, more, hread⟩ := h.readings
  exact (Token.spelt_of_mem_readings (hread ▸ List.mem_cons_self)).1

end Lexeme.Plain

/-- White space that is there. -/
def Blanks (text : List Char) : Prop := text ≠ [] ∧ ∀ c ∈ text, Token.isBlank c = true

theorem blanks_space : Blanks [' '] := ⟨by simp, by simp [Token.isBlank]⟩

theorem Blanks.apart {sep : List Char} (h : Blanks sep) (rest : List Char) :
    Apart (sep ++ rest) := by
  obtain ⟨hne, hb⟩ := h
  cases sep with
  | nil => exact absurd rfl hne
  | cons c cs =>
    intro d hd
    cases hd
    exact Token.isSpace_of_isBlank (hb _ List.mem_cons_self)

namespace Drives

variable {bound n : Nat} {stack : Stack Tree} {ls : List Lexeme} {d : Tree (.non .program)}

/-- A token that drives the machine is read where it is the first reading of the text ahead. -/
theorem scans_cons_of_readings {l : Lexeme} {rest : List Char} {more : List (Terminal × Nat)}
    (hd : Drives n stack (l :: ls) d) (hn : n ≤ bound)
    (hi : Token.ignored (l.text.toList ++ rest) = 0)
    (hread : Token.readings (l.text.toList ++ rest) = (l.kind, l.text.toList.length) :: more)
    (hrest : ∀ {m stack'}, Drives m stack' ls d → m ≤ n → Scans bound d stack' rest ls) :
    Scans bound d stack (l.text.toList ++ rest) (l :: ls) := by
  obtain ⟨m, stack', hfeed, hd', hm⟩ := hd.feed_read hn
  have hfind : (Token.readings (l.text.toList ++ rest)).find?
      (fun r => stack.state.admits r.1) = some (l.kind, l.text.toList.length) := by
    rw [hread]
    exact List.find?_cons_of_pos hd.admits
  have htake : String.ofList ((l.text.toList ++ rest).take l.text.toList.length) = l.text := by
    rw [List.take_left, String.ofList_toList]
  have h := Scans.token hi hfind (by rw [htake]; exact hfeed)
    (by rw [List.drop_left]; exact hrest hd' hm)
  rwa [htake] at h

/-- One token that drives the machine is read. -/
theorem scans_cons {l : Lexeme} {rest : List Char} (hd : Drives n stack (l :: ls) d)
    (hn : n ≤ bound) (hl : l.Plain) (hr : Apart rest)
    (hrest : ∀ {m stack'}, Drives m stack' ls d → m ≤ n → Scans bound d stack' rest ls) :
    Scans bound d stack (l.text.toList ++ rest) (l :: ls) := by
  obtain ⟨hi, more, hread⟩ := hl.readings
  have hne : l.text.toList ≠ [] := List.length_pos_iff.1 hl.length_pos
  have hopen : ∀ tail, l.text.toList ≠ '/' :: '*' :: tail := by
    intro tail ht
    rw [ht] at hread
    simp [Token.readings] at hread
  exact hd.scans_cons_of_readings hn (Token.ignored_append hne hr hi hopen)
    ((Token.readings_append hne hr).trans hread) hrest

/-- Tokens that drive the machine are read, whatever blanks stand between them. -/
theorem scans_render (hd : Drives n stack ls d) (hn : n ≤ bound) (hls : ∀ l ∈ ls, l.Plain)
    (sep : Nat → List Char) (hsep : ∀ i, Blanks (sep i)) :
    Scans bound d stack (render sep ls) ls := by
  induction ls generalizing n stack sep with
  | nil => exact .done (hd.feed_finished hn _)
  | cons l ls ih =>
    have hl := hls l List.mem_cons_self
    have hls' : ∀ l ∈ ls, l.Plain := fun x hx => hls x (List.mem_cons_of_mem _ hx)
    cases ls with
    | nil =>
      have hnil : Apart [] := by simp [Apart]
      have h := hd.scans_cons hn hl hnil fun hd' hm => ih hd' (by omega) hls' sep hsep
      rwa [List.append_nil] at h
    | cons l' ls =>
      refine hd.scans_cons hn hl ((hsep 0).apart _) fun hd' hm => ?_
      exact (ih hd' (by omega) hls' _ fun i => hsep (i + 1)).blanks (hsep 0).2

end Drives

theorem length_le_render (sep : Nat → List Char) {ls : List Lexeme} (hls : ∀ l ∈ ls, l.Plain) :
    ls.length ≤ (render sep ls).length := by
  induction ls generalizing sep with
  | nil => exact Nat.le_refl _
  | cons l ls ih =>
    have hpos := (hls l List.mem_cons_self).length_pos
    cases ls with
    | nil =>
      simp only [render, List.length_cons, List.length_nil]
      omega
    | cons l' ls =>
      have := ih (fun n => sep (n + 1)) fun x hx => hls x (List.mem_cons_of_mem _ hx)
      simp only [render, List.length_append, List.length_cons] at this ⊢
      omega

/-- The tokens of a derivation are read as that derivation. -/
theorem Parser.scan_render {d : Tree (.non .program)} (hp : d.Paired)
    (hd : ∀ l ∈ d.yield, l.Plain) {sep : Nat → List Char} (hsep : ∀ i, Blanks (sep i)) :
    ∃ tokens, scan growing (render sep d.yield) = .ok (d, tokens) ∧
      tokens.map Token.lexeme = d.yield := by
  have hbound : d.steps ≤ 16 * ((render sep d.yield).length + 2) := by
    have h₁ := d.program_steps_le
    have h₂ := length_le_render sep hd
    omega
  exact scan_growing_iff.2 ((drives_yield d hp).scans_render hbound hd sep hsep)

namespace Parser

section Render

variable {d : Tree (.non .program)} {sep : Nat → List Char}

end Render

end Parser

end Featherweight
