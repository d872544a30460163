import Featherweight.Proofs.BareEval
import Featherweight.Proofs.Computation
import Featherweight.Proofs.Frames
import Featherweight.Proofs.Seam
import Featherweight.Session

/-!
# Featherweight.Proofs.Splitting

A program may be run in two pieces.

* `Parser.parseTokens_join` : two accepted texts with a line feed between them are accepted, and the
  statements of the whole are those of the pieces.
* `Eval.extends_chain_append` : evaluating all statements is evaluating the first ones and then the
  others.
* `run_append` : running the whole text does what running the pieces in turn does.
-/

namespace Featherweight

/-! ## Reading -/

theorem Tree.sense_stmts_ne_nil (u : Tree (.non .stmts)) : u.sense ≠ ([] : List Expr) := by
  rcases u.stmts_cases with ⟨s, rfl⟩ | ⟨v, s, rfl⟩
  · exact List.cons_ne_nil _ _
  · exact List.append_ne_nil_of_right_ne_nil _ (List.cons_ne_nil _ _)

theorem Tree.height_ofStmts (u : Tree (.non .stmts)) : (Tree.ofStmts u).height = u.height + 1 := by
  simp [Tree.height, Forest.height, Production.isLevel]

theorem Parser.parseTokens_join {a b : List Char} {e₁ e₂ : Expr} {ts us : List Token} {u : Token}
    (h₁ : parseTokens a = .ok (e₁, ts)) (h₂ : parseTokens b = .ok (e₂, u :: us))
    (helse : u.text ≠ "else") :
    ∃ e tokens xs ys, parseTokens (a ++ '\n' :: b) = .ok (e, tokens) ∧ ys ≠ [] ∧
      e₁.bare = .chain xs ∧ e₂.bare = .chain ys ∧ e.bare = .chain (xs ++ ys) := by
  obtain ⟨d₁, hscan₁, hheight₁, hlit₁, hsense₁⟩ := parseTokens_eq_ok h₁
  obtain ⟨d₂, hscan₂, hheight₂, hlit₂, hsense₂⟩ := parseTokens_eq_ok h₂
  have hs₁ := scan_growing_iff.1 ⟨ts, hscan₁, rfl⟩
  have hs₂ := scan_growing_iff.1 ⟨u :: us, hscan₂, rfl⟩
  have hlen : (a ++ '\n' :: b).length = a.length + (b.length + 1) := by simp
  have hb₁ : 16 * (a.length + 2) ≤ 16 * ((a ++ '\n' :: b).length + 2) := by omega
  have hb₂ : 16 * (b.length + 2) ≤ 16 * ((a ++ '\n' :: b).length + 2) := by omega
  obtain ⟨d, hs, hcases⟩ := (hs₁.mono hb₁).join (hs₂.mono hb₂) helse
  obtain ⟨tokens, hscan, hmap⟩ := scan_growing_iff.2 hs
  have hlit : tokens.findSome? literalError? = none := by
    rw [literalErrors_eq_none] at hlit₁ hlit₂ ⊢
    intro l hl
    rw [hmap] at hl
    rcases List.mem_append.1 hl with hl | hl
    · exact hlit₁ l hl
    · exact hlit₂ l hl
  have hwhole : d.height ≤ maxLevels ∧ ∃ xs ys, ys ≠ [] ∧ e₁.bare = .chain xs ∧
      e₂.bare = .chain ys ∧ d.sense = Expr.chain (xs ++ ys) := by
    rcases hcases with ⟨rfl, rfl⟩ | ⟨v₁, v₂, v, rfl, rfl, rfl, hj⟩
    · rcases d.program_cases with rfl | ⟨v, rfl⟩
      · cases hs₂.yield trivial
      · exact ⟨hheight₂, [], v.sense, v.sense_stmts_ne_nil, hsense₁, hsense₂, rfl⟩
    · refine ⟨?_, v₁.sense, v₂.sense, v₂.sense_stmts_ne_nil, hsense₁, hsense₂, ?_⟩
      · rw [Tree.height_ofStmts] at hheight₁ hheight₂ ⊢
        rw [hj.height]
        omega
      · show Expr.chain v.sense = _
        rw [hj.sense]
        rfl
  obtain ⟨hheight, xs, ys, hys, he₁, he₂, hd⟩ := hwhole
  have h := parseTokens_of_scan hscan hlit
  rw [if_neg (Nat.not_lt.2 hheight)] at h
  obtain ⟨e, he, hsense⟩ := h
  exact ⟨e, tokens, xs, ys, he, hys, he₁, he₂, hsense.trans hd⟩

/-! ## Evaluating -/

namespace Eval

variable {rounds depth : Nat} {f : FrameId}

/-- The leaves of a tree, run one after the other, do what the tree does one level higher. -/
theorem extends_leaves {e : Expr} (h : e.pos? = none) :
    Extends (runAll (fun s => eval rounds (depth + 1) s f) .null e.leaves)
      (eval rounds (depth + 4) e f) := by
  cases e with
  | seq a b pos =>
    rw [eval_node, locate_of_pos? h]
    exact .refl _
  | _ =>
    show Extends (runAll _ _ [_]) _
    rw [runAll_singleton]
    exact eval_extends (Nat.le_refl _) (by omega) _ f

theorem runAll_of_ne_nil (run : Expr → Eval Value) (v v' : Value) {es : List Expr} (h : es ≠ []) :
    runAll run v es = runAll run v' es := by
  cases es with
  | nil => exact absurd rfl h
  | cons e es => rfl

/-- Evaluating all statements is evaluating the first ones and then the others. -/
theorem extends_chain_append {xs ys : List Expr} (hys : ys ≠ []) (hx : (Expr.chain xs).pos? = none)
    (hy : (Expr.chain ys).pos? = none) :
    Extends (eval rounds (depth + 4) (.chain (xs ++ ys)) f) (do
      let _ ← eval rounds (depth + 4) (.chain xs) f
      eval rounds (depth + 4) (.chain ys) f) := by
  cases xs with
  | nil => exact fun _ _ => rfl
  | cons x xs =>
    -- Two statements or more are a sequence, whose leaves run one level lower.
    have hwhole : eval rounds (depth + 4) (.chain (x :: xs ++ ys)) f =
        runAll (fun s => eval rounds (depth + 1) s f) .null (Expr.chain (x :: xs ++ ys)).leaves := by
      obtain ⟨stmts, s, rfl⟩ : ∃ stmts s, ys = stmts ++ [s] :=
        ⟨_, _, (List.dropLast_concat_getLast hys).symm⟩
      rw [List.cons_append, ← List.append_assoc, Expr.chain_concat, eval_node,
        locate_of_pos? rfl]
      rfl
    have hleaves : (Expr.chain (x :: xs ++ ys)).leaves =
        (Expr.chain (x :: xs)).leaves ++ (Expr.chain ys).leaves := by
      obtain ⟨y, ys, rfl⟩ := List.exists_cons_of_ne_nil hys
      rw [List.cons_append, Expr.leaves_chain, Expr.leaves_chain, Expr.leaves_chain,
        ← List.cons_append, List.flatMap_append]
    rw [hwhole, hleaves, runAll_append]
    refine (extends_leaves hx).bind fun v => ?_
    rw [runAll_of_ne_nil _ v .null (Expr.leaves_ne_nil _)]
    exact extends_leaves hy

end Eval

/-! ## Running -/

/-- Leave out a recorded text. -/
abbrev forget (_ : Option String) : Option String := none

/-- A failure without the place of an error. -/
def Failure.bare : Failure → Failure
  | .parse e => .parse e
  | .fault f => .fault f.bare

namespace Session

/-- What a run came to, without positions and recorded texts. -/
def bare : Except Failure Value × World → Except Failure Value × World
  | (.ok v, w) => (.ok v.bare, w.bare forget)
  | (.error e, w) => (.error e.bare, w.bare forget)

/-- Run one text and, if it returns, another one. -/
def runInTurn (a b : String) (f : FrameId) (sink : Option SinkId) (w : World) :
    Except Failure Value × World :=
  match run a f sink w with
  | (.ok _, w') => run b f sink w'
  | (.error e, w') => (.error e, w')

/-- The answer of a run, by what the evaluation came to. -/
def answer : Except Fault Value × World → Except Failure Value × World
  | (.ok v, w) => (.ok v, w)
  | (.error .limit, w) => (.error (.fault (.error .tooDeep none)), w)
  | (.error (.error c pos), w) => (.error (.fault (.error c pos)), w)

theorem run_eq_answer {text : String} {e : Expr} (h : parse text = .ok e) (f : FrameId)
    (sink : Option SinkId) (w : World) :
    run text f sink w = answer (evalIn f e (equip f sink (some text) w)) := by
  rw [run, h, evalParsed, evalProgram]
  rcases evalIn f e (equip f sink (some text) w) with ⟨r, w'⟩
  cases r with
  | ok v => rfl
  | error fault => cases fault <;> rfl

theorem bare_equip (f : FrameId) (sink : Option SinkId) (text : String) (w : World) :
    (equip f sink (some text) w).bare forget =
      equip f sink none (w.bare forget) := by
  simp only [equip, World.bare]
  rw [Store.bare_modify]
  intro frame
  simp [Frame.bare]

/-- Equipping a frame again with the sink it has changes nothing. -/
theorem equip_eq_self {f : FrameId} {sink : Option SinkId} {w : World} {frame : Frame}
    (h : w.store[f]? = some frame) (hs : (sink <|> frame.sink) = frame.sink) :
    equip f sink none w = w := by
  have hstore : (equip f sink none w).store = w.store := by
    apply Array.ext_getElem?
    intro i
    rw [equip, Array.getElem?_modify]
    split
    · rename_i hi
      subst hi
      rw [h, Option.map_some, hs]
      rfl
    · rfl
  exact congrArg (World.mk · w.log) hstore

/-- The bare program does in the bare world what the program does. -/
theorem evalIn_bare (f : FrameId) (e : Expr) (sink : Option SinkId) (text : String) (w : World) :
    evalIn f e.bare (equip f sink none (w.bare forget)) =
      (Eval.bareWith Value.bare (evalIn f e (equip f sink (some text) w)).1,
        (evalIn f e (equip f sink (some text) w)).2.bare forget) := by
  rw [← bare_equip f sink text w]
  exact eval_bare rfl maxRounds maxDepth e f (equip f sink (some text) w)

theorem bare_run {text : String} {e : Expr} (h : parse text = .ok e) (f : FrameId)
    (sink : Option SinkId) (w : World) :
    bare (run text f sink w) =
      answer (evalIn f e.bare (equip f sink none (w.bare forget))) := by
  rw [run_eq_answer h, evalIn_bare f e sink text w]
  rcases evalIn f e (equip f sink (some text) w) with ⟨r, w'⟩
  cases r with
  | ok v => rfl
  | error fault => cases fault <;> rfl

/-- The frame that a program ran in keeps its sink. -/
theorem equip_evalIn {f : FrameId} (sink : Option SinkId) {w : World} (hf : f < w.store.size)
    (text : Option String) (e : Expr) :
    equip f sink none ((evalIn f e (equip f sink text w)).2.bare forget) =
      (evalIn f e (equip f sink text w)).2.bare forget := by
  have hframe : ∃ a, (equip f sink text w).store[f]? = some a ∧ (sink <|> a.sink) = a.sink := by
    rw [equip, Array.getElem?_modify, if_pos rfl, Array.getElem?_eq_getElem hf]
    exact ⟨_, rfl, by cases sink <;> rfl⟩
  obtain ⟨a, ha, hs⟩ := hframe
  obtain ⟨b, hb, hgrows⟩ := (eval_stepwise maxRounds maxDepth e f (equip f sink text w)).grows f a ha
  have hbare : ((evalIn f e (equip f sink text w)).2.bare forget).store[f]? =
      some (b.bare forget) := by
    rw [World.bare, Store.getElem?_bare, evalIn, hb, Option.map_some]
  refine equip_eq_self hbare ?_
  show (sink <|> b.sink) = b.sink
  rw [hgrows.sink, hs]

theorem bare_runInTurn {a b : String} {e₁ e₂ : Expr} (ha : parse a = .ok e₁) (hb : parse b = .ok e₂)
    {f : FrameId} (sink : Option SinkId) {w : World} (hf : f < w.store.size) :
    bare (runInTurn a b f sink w) = answer ((do
      let _ ← evalIn f e₁.bare
      evalIn f e₂.bare : Eval Value) (equip f sink none (w.bare forget))) := by
  have hsame := equip_evalIn sink hf (some a) e₁
  rw [runInTurn, run_eq_answer ha, Eval.bind_apply, evalIn_bare f e₁ sink a w]
  generalize evalIn f e₁ (equip f sink (some a) w) = result at hsame ⊢
  obtain ⟨r, w₁⟩ := result
  cases r with
  | ok v =>
    show bare (run b f sink w₁) = answer (evalIn f e₂.bare (w₁.bare forget))
    rw [bare_run hb]
    exact congrArg (fun w => answer (evalIn f e₂.bare w)) hsame
  | error fault => cases fault <;> rfl

/-- A run that did not go too deep did not exhaust the evaluation. -/
theorem evalIn_ne_limit {text : String} {e : Expr} (h : parse text = .ok e) {f : FrameId}
    {sink : Option SinkId} {w : World}
    (hr : (run text f sink w).1 ≠ .error (.fault (.error .tooDeep none))) :
    (evalIn f e.bare (equip f sink none (w.bare forget))).1 ≠ .error .limit := by
  rw [run_eq_answer h] at hr
  rw [evalIn_bare f e sink text w]
  generalize evalIn f e (equip f sink (some text) w) = result at hr ⊢
  obtain ⟨r, w'⟩ := result
  cases r with
  | ok v => nofun
  | error fault =>
    cases fault with
    | error c pos => nofun
    | limit => exact absurd rfl hr

end Session

/-- Running two accepted texts with a line feed between them does what running the first and, if it
returns, the second one does, up to positions and recorded texts, unless it goes too deep. The second
text has a token, and its first token is not the word `else`. -/
theorem run_append (a b : String) (e₁ e₂ : Expr) (t : Token) (ts : List Token)
    (ha : parse a = .ok e₁) (hb : Parser.parseTokens b.toList = .ok (e₂, t :: ts))
    (helse : t.text ≠ "else") (f : FrameId) (sink : Option SinkId) (w : World)
    (hf : f < w.store.size) :
    (∃ e, parse (a ++ "\n" ++ b) = .ok e) ∧
      ((Session.run (a ++ "\n" ++ b) f sink w).1 ≠ .error (.fault (.error .tooDeep none)) →
        Session.bare (Session.run (a ++ "\n" ++ b) f sink w) =
          Session.bare (Session.runInTurn a b f sink w)) := by
  obtain ⟨us, ha'⟩ := parse_eq_ok.1 ha
  have hb' : parse b = .ok e₂ := parse_eq_ok.2 ⟨_, hb⟩
  obtain ⟨e, tokens, xs, ys, hjoin, hys, hx, hy, hxy⟩ := Parser.parseTokens_join ha' hb helse
  have hparse : parse (a ++ "\n" ++ b) = .ok e := by
    have htext : (a ++ "\n" ++ b).toList = a.toList ++ '\n' :: b.toList := by simp
    exact parse_eq_ok.2 ⟨tokens, by rw [htext, hjoin]⟩
  refine ⟨⟨e, hparse⟩, fun hr => ?_⟩
  have hlimit := Session.evalIn_ne_limit hparse hr
  have hextends : Eval.Extends (eval maxRounds maxDepth (.chain (xs ++ ys)) f) (do
      let _ ← eval maxRounds maxDepth (.chain xs) f
      eval maxRounds maxDepth (.chain ys) f) :=
    Eval.extends_chain_append hys (hx ▸ e₁.pos?_bare) (hy ▸ e₂.pos?_bare)
  rw [Session.bare_run hparse, Session.bare_runInTurn ha hb' sink hf]
  rw [hxy] at hlimit ⊢
  rw [hx, hy]
  exact congrArg Session.answer (hextends _ hlimit).symm

/-- The frame of a program that starts from nothing. -/
def World.single : World := ⟨#[.fresh none none none], []⟩

theorem run_append_branch :
    let a := "function f(n) \x7b print(n); \x7d if (true) f(1); // once"
    let b := "(f(2));"
    (parse a).isOk = true ∧
    (Parser.parseTokens b.toList).toOption.map (·.2.map Token.text) =
      some ["(", "f", "(", "2", ")", ")", ";"] ∧
    (Session.run (a ++ "\n" ++ b) 0 none .single).1.toOption.map Value.display = some "2" ∧
    Session.bare (Session.run (a ++ "\n" ++ b) 0 none .single) =
      Session.bare (Session.runInTurn a b 0 none .single) := by
  intro a b
  have ha : (parse a).isOk = true := by decide +kernel
  have hb : (Parser.parseTokens b.toList).toOption.map (·.2.map Token.text) =
    some ["(", "f", "(", "2", ")", ")", ";"] := by decide +kernel
  have hr : (Session.run (a ++ "\n" ++ b) 0 none .single).1.toOption.map Value.display =
    some "2" := by decide +kernel
  refine ⟨ha, hb, hr, ?_⟩
  obtain ⟨e₁, ha⟩ : ∃ e₁, parse a = .ok e₁ := by
    cases h : parse a with
    | ok e₁ => exact ⟨e₁, rfl⟩
    | error err => rw [h] at ha; cases ha
  obtain ⟨e₂, t, ts, hb, ht⟩ : ∃ e₂ t ts, Parser.parseTokens b.toList = .ok (e₂, t :: ts) ∧
      t.text = "(" := by
    cases h : Parser.parseTokens b.toList with
    | error err => rw [h] at hb; cases hb
    | ok result =>
      obtain ⟨e₂, tokens⟩ := result
      rw [h] at hb
      have htexts : tokens.map Token.text = ["(", "f", "(", "2", ")", ")", ";"] := Option.some.inj hb
      cases tokens with
      | nil => cases htexts
      | cons t ts => exact ⟨e₂, t, ts, rfl, (List.cons.inj htexts).1⟩
  refine (run_append a b e₁ e₂ t ts ha hb (by rw [ht]; decide) 0 none .single (by decide)).2 ?_
  intro hdeep
  rw [hdeep] at hr
  cases hr

end Featherweight
