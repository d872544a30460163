import Featherweight.Proofs.Discipline
import Featherweight.Session

/-!
# Featherweight.Proofs.Sessions

Sessions: texts that are run or entered one after the other in the same frame.

* `Session.serve` answers one request and `Session.serveAll` any number of them.
* `Session.serve_leads` and `Session.serveAll_leads` : a discipline that all programs obey is kept
  along a session.
-/

namespace Featherweight

/-- A world with one frame, which has nothing around it and binds no name. -/
def World.fresh (sink : Option SinkId) (source : Option String) : World :=
  ⟨#[.fresh none sink source], []⟩

theorem World.fresh_getElem? {sink : Option SinkId} {source : Option String} {f : FrameId} {a : Frame}
    (h : (World.fresh sink source).store[f]? = some a) : f = 0 ∧ a = .fresh none sink source := by
  obtain ⟨hlt, ha⟩ := Array.getElem?_eq_some_iff.1 h
  obtain rfl : f = 0 := Nat.lt_one_iff.1 hlt
  exact ⟨rfl, ha.symm⟩

/-- White space at the end of a text is trimmed off. -/
theorem Text.exists_trimRight (text : List Char) :
    ∃ spaces, (∀ c ∈ spaces, isSpace c = true) ∧ text = trimRight text ++ spaces := by
  refine ⟨(text.reverse.takeWhile isSpace).reverse, fun c hc => ?_, ?_⟩
  · exact List.all_eq_true.1 List.all_takeWhile c (List.mem_reverse.1 hc)
  · rw [trimRight, ← List.reverse_append, List.takeWhile_append_dropWhile, List.reverse_reverse]

namespace Session

theorem toList_completed (text : String) :
    (completed text).toList = Text.trimRight text.toList ++ ['\n', ';'] :=
  String.toList_ofList

inductive Request where
  | run (text : String) (sink : Option SinkId)
  /-- The sink is set before the entry is read. -/
  | enter (text : String) (sink : Option SinkId)

def serve (f : FrameId) : Request → World → Except Failure Value × World
  | .run text sink, w => run text f sink w
  | .enter text sink, w => enter text f (equip f sink none w)

def serveAll (f : FrameId) : List Request → World → List (Except Failure Value) × World
  | [], w => ([], w)
  | r :: rs, w =>
    let (answer, w₁) := serve f r w
    let (answers, w₂) := serveAll f rs w₁
    (answer :: answers, w₂)

/-- An entry is read as it is or, if it is refused, with a semicolon behind it. -/
theorem parseEntry_eq_ok {text : String} {e : Expr} :
    parseEntry text = .ok e ↔ parse text = .ok e ∨
      (∃ r, parse text = .error (.refused r)) ∧ parse (completed text) = .ok e := by
  unfold parseEntry
  cases h : parse text with
  | ok e' => simp
  | error err =>
    cases err with
    | refused r =>
      cases h' : parse (completed text) with
      | ok e' => simp
      | error err' => cases err' <;> simp
    | longLiteral n => simp
    | tooDeep => simp

theorem exists_of_isOk {ε α : Type} {r : Except ε α} (h : r.isOk = true) : ∃ a, r = .ok a := by
  cases r with
  | ok a => exact ⟨a, rfl⟩
  | error e => cases h

theorem parse_of_parseEntry {text : String} {e : Expr} (h : parseEntry text = .ok e) :
    ∃ text', parse text' = .ok e := by
  rcases parseEntry_eq_ok.1 h with h | ⟨-, h⟩
  · exact ⟨text, h⟩
  · exact ⟨completed text, h⟩

variable {D : Discipline} {f : FrameId} {w : World}

theorem equip_leads (hw : D.Obeyed w.store) (hf : D.frame w.store.size f) (sink : Option SinkId)
    (source : Option String) : D.Leads w (equip f sink source w) :=
  .modify (hw.modify (fun _ => rfl) fun _ _ _ hu => .inr hu) hf

theorem evalParsed_leads {parsed : Except ParseError Expr}
    (hcode : ∀ e, parsed = .ok e → D.Code w.store.size e) (hw : D.Obeyed w.store)
    (hf : D.frame w.store.size f) (sink : Option SinkId) (source : String) :
    let (answer, w') := evalParsed parsed f sink source w
    D.Leads w w' ∧ ∀ v, answer = .ok v → D.Admits w'.store.size v := by
  cases parsed with
  | error e => exact ⟨.refl hw, nofun⟩
  | ok e =>
    have hequip := equip_leads hw hf sink (some source)
    have heval := eval_keeps maxRounds maxDepth (hcode e rfl) hf _ hequip.obeyed hequip.size_le
    rw [evalParsed, evalProgram, evalIn]
    generalize eval maxRounds maxDepth e f (equip f sink (some source) w) = result at heval ⊢
    obtain ⟨r, w'⟩ := result
    cases r with
    | ok v => exact ⟨hequip.trans heval.1, fun u hu => by cases hu; exact heval.2 v rfl⟩
    | error fault => cases fault <;> exact ⟨hequip.trans heval.1, nofun⟩

variable (hparse : ∀ text e, parse text = .ok e → D.Code w.store.size e)
  (hw : D.Obeyed w.store) (hf : D.frame w.store.size f)
include hparse hw hf

theorem serve_leads (r : Request) :
    let (answer, w') := serve f r w
    D.Leads w w' ∧ ∀ v, answer = .ok v → D.Admits w'.store.size v := by
  cases r with
  | run text sink => exact evalParsed_leads (hparse text) hw hf sink text
  | enter text sink =>
    have hequip := equip_leads hw hf sink none
    have hcode : ∀ e, parseEntry text = .ok e → D.Code (equip f sink none w).store.size e := by
      intro e he
      obtain ⟨text', he⟩ := parse_of_parseEntry he
      exact (hparse text' e he).mono hequip.size_le
    obtain ⟨hlead, hok⟩ := evalParsed_leads hcode hequip.obeyed
      (D.frame_mono hequip.size_le hf) none text
    exact ⟨hequip.trans hlead, hok⟩

theorem serveAll_leads (rs : List Request) :
    let (answers, w') := serveAll f rs w
    D.Leads w w' ∧ ∀ v, .ok v ∈ answers → D.Admits w'.store.size v := by
  induction rs generalizing w with
  | nil => exact ⟨.refl hw, by simp⟩
  | cons r rs ih =>
    obtain ⟨hlead, hok⟩ := serve_leads hparse hw hf r
    have hparse₁ : ∀ text e, parse text = .ok e → D.Code (serve f r w).2.store.size e :=
      fun text e he => (hparse text e he).mono hlead.size_le
    obtain ⟨hlead', hok'⟩ := ih hparse₁ hlead.obeyed (D.frame_mono hlead.size_le hf)
    refine ⟨hlead.trans hlead', fun v hv => ?_⟩
    rcases List.mem_cons.1 hv with hv | hv
    · exact (hok v hv.symm).mono hlead'.size_le
    · exact hok' v hv

end Session

end Featherweight
