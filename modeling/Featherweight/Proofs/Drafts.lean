import Featherweight.Proofs.Continued
import Featherweight.Proofs.Sessions
import Mathlib.Data.List.Induction

/-!
# Featherweight.Proofs.Drafts

What becomes of the semicolon that the prompt puts behind a refused entry.

* `Tree.Lists u ss` : the statements of `u`, one after the other.
* `Clause` : what stands in front of the last statement of a branch or a loop.
* `Tree.exists_clauses` : behind its clauses, a statement ends with a semicolon or a brace of its own.
* `Draft` : a program that lacks its last semicolon.
* `Scans.eq_of_paired` : the parser finds the derivation that has every `else` at the nearest branch.
* `draft_of_entry` : an entry that is read only with a semicolon behind it is a draft.
-/

namespace Featherweight

/-! ## Statements one after the other -/

namespace Tree

/-- The program that a statement stands for. -/
def stmtSense (s : Tree (.non .stmt)) : Expr := s.sense

inductive Lists : Tree (.non .stmts) → List (Tree (.non .stmt)) → Prop where
  | one (s : Tree (.non .stmt)) : Lists (.node .stmtsOne (.cons s .nil)) [s]
  | more {u : Tree (.non .stmts)} {ss : List (Tree (.non .stmt))} (s : Tree (.non .stmt)) :
      Lists u ss → Lists (.node .stmtsMore (.cons u (.cons s .nil))) (ss ++ [s])

namespace Lists

variable {u : Tree (.non .stmts)} {ss : List (Tree (.non .stmt))}

theorem yield_eq (h : Lists u ss) : u.yield = ss.flatMap Tree.yield := by
  induction h with
  | one s => simp [Tree.yield, Forest.yield]
  | more s _ ih => simp [Tree.yield, Forest.yield, ih]

theorem sense_eq (h : Lists u ss) : u.sense = ss.map stmtSense := by
  induction h with
  | one s => rfl
  | @more u ss s _ ih =>
    rw [List.map_append]
    exact congrArg (List.append · [s.stmtSense]) ih

theorem paired (h : Lists u ss) (hs : ∀ s ∈ ss, s.Paired) : u.Paired := by
  induction h with
  | one s => simpa [Tree.Paired, Forest.Paired, Forest.Nearest] using hs
  | more s _ ih =>
    obtain ⟨hs, hlast⟩ := List.forall_mem_append.1 hs
    simpa [Tree.Paired, Forest.Paired, Forest.Nearest, ih hs] using hlast

theorem ne_nil (h : Lists u ss) : ss ≠ [] := by
  cases h <;> simp

theorem unique {ss' : List (Tree (.non .stmt))} (h : Lists u ss) (h' : Lists u ss') : ss = ss' := by
  induction h generalizing ss' with
  | one s =>
    cases h'
    rfl
  | more s _ ih =>
    cases h' with
    | more _ h' => rw [ih h']

end Lists

theorem exists_lists (u : Tree (.non .stmts)) : ∃ ss, Lists u ss := by
  induction hn : u.steps using Nat.strong_induction_on generalizing u with
  | _ n ih =>
    rcases u.stmts_cases with ⟨s, rfl⟩ | ⟨v, s, rfl⟩
    · exact ⟨[s], .one s⟩
    · have hlt : v.steps < n := by
        rw [← hn]
        simp only [Tree.steps, Forest.steps]
        omega
      obtain ⟨ss, hss⟩ := ih v.steps hlt v rfl
      exact ⟨ss ++ [s], .more s hss⟩

/-- Statements one after the other can be put together. -/
theorem lists_of_ne_nil {ss : List (Tree (.non .stmt))} (h : ss ≠ []) : ∃ u, Lists u ss := by
  induction ss using List.reverseRecOn with
  | nil => exact absurd rfl h
  | append_singleton ss s ih =>
    cases ss with
    | nil => exact ⟨_, .one s⟩
    | cons s' ss =>
      obtain ⟨u, hu⟩ := ih (List.cons_ne_nil s' ss)
      exact ⟨_, .more s hu⟩

/-- Statements one after the other are a program. -/
theorem exists_program (ss : List (Tree (.non .stmt))) :
    ∃ d : Tree (.non .program), d.yield = ss.flatMap Tree.yield := by
  cases ss with
  | nil => exact ⟨.node .programEmpty .nil, rfl⟩
  | cons s ss =>
    obtain ⟨u, hu⟩ := lists_of_ne_nil (List.cons_ne_nil s ss)
    refine ⟨.ofStmts u, ?_⟩
    simpa [Tree.yield, Forest.yield] using hu.yield_eq

/-- Each statement can be derived anew with every `else` at the nearest branch. -/
theorem exists_all_paired (ss : List (Tree (.non .stmt))) :
    ∃ ss' : List (Tree (.non .stmt)), (∀ s ∈ ss', s.Paired) ∧
      ss'.flatMap Tree.yield = ss.flatMap Tree.yield := by
  induction ss with
  | nil => exact ⟨[], by simp, rfl⟩
  | cons s ss ih =>
    obtain ⟨s', hs', hyield⟩ := s.exists_paired
    obtain ⟨ss', hss', hyields⟩ := ih
    refine ⟨s' :: ss', by simpa using ⟨hs', hss'⟩, ?_⟩
    rw [List.flatMap_cons, List.flatMap_cons, hyield, hyields]

end Tree

/-! ## Clauses -/

/-- What stands in front of the last statement of a branch or a loop. -/
inductive Clause where
  | ifThen (i : Tree (.term (.keyword .ifWord))) (l : Tree (.term .lpar))
      (test : Tree (.non (.exp .expr))) (r : Tree (.term .rpar))
  | ifElse (i : Tree (.term (.keyword .ifWord))) (l : Tree (.term .lpar))
      (test : Tree (.non (.exp .expr))) (r : Tree (.term .rpar)) (yes : Tree (.non .stmt))
      (el : Tree (.term (.keyword .elseWord)))
  | loop (w : Tree (.term (.keyword .whileWord))) (l : Tree (.term .lpar))
      (test : Tree (.non (.exp .expr))) (r : Tree (.term .rpar))

namespace Clause

/-- The whole statement. -/
def close : Clause → Tree (.non .stmt) → Tree (.non .stmt)
  | ifThen i l test r, s => .ifThen i l test r s
  | ifElse i l test r yes el, s => .ifElse i l test r yes el s
  | loop w l test r, s => .node .stmtWhile (.cons w (.cons l (.cons test (.cons r (.cons s .nil)))))

def yield : Clause → List Lexeme
  | ifThen i l test r => i.yield ++ l.yield ++ test.yield ++ r.yield
  | ifElse i l test r yes el => i.yield ++ l.yield ++ test.yield ++ r.yield ++ yes.yield ++ el.yield
  | loop w l test r => w.yield ++ l.yield ++ test.yield ++ r.yield

/-- The program that the whole statement stands for. -/
def around : Clause → Expr → Expr
  | ifThen _ _ test _, e => .branch test.sense e (.literal .null none) none
  | ifElse _ _ test _ yes _, e => .branch test.sense yes.stmtSense e none
  | loop _ _ test _, e => .loop test.sense e none

theorem yield_close (c : Clause) (s : Tree (.non .stmt)) :
    (c.close s).yield = c.yield ++ s.yield := by
  cases c <;> simp [close, yield, Tree.ifThen, Tree.ifElse, Tree.yield, Forest.yield]

theorem sense_close (c : Clause) (s : Tree (.non .stmt)) :
    (c.close s).stmtSense = c.around s.stmtSense := by
  cases c <;> rfl

theorem steps_lt_close (c : Clause) (s : Tree (.non .stmt)) : s.steps < (c.close s).steps := by
  cases c <;> simp [close, Tree.ifThen, Tree.ifElse, Tree.steps, Forest.steps] <;> omega

theorem yield_foldr_close (cs : List Clause) (s : Tree (.non .stmt)) :
    (cs.foldr close s).yield = cs.flatMap yield ++ s.yield := by
  induction cs with
  | nil => rfl
  | cons c cs ih => rw [List.foldr_cons, yield_close, ih, List.flatMap_cons, List.append_assoc]

theorem sense_foldr_close (cs : List Clause) (s : Tree (.non .stmt)) :
    (cs.foldr close s).stmtSense = cs.foldr around s.stmtSense := by
  induction cs with
  | nil => rfl
  | cons c cs ih => rw [List.foldr_cons, sense_close, ih, List.foldr_cons]

end Clause

namespace Tree

/-- The statement that a semicolon ends: an expression, or nothing. -/
def ended (text : String) : Option (Tree (.non (.exp .expr))) → Tree (.non .stmt)
  | some e => .node .stmtExpr (.cons e (.cons (.leaf .semicolon text) .nil))
  | none => .node .stmtEmpty (.cons (.leaf .semicolon text) .nil)

/-- What it stands for. -/
def endedSense : Option (Tree (.non (.exp .expr))) → Expr
  | some e => e.sense
  | none => .literal .null none

theorem yield_ended (text : String) (last : Option (Tree (.non (.exp .expr)))) :
    (ended text last).yield = last.toList.flatMap Tree.yield ++ [⟨.semicolon, text⟩] := by
  cases last <;> simp [ended, Tree.yield, Forest.yield]

theorem paired_ended {text : String} {e : Tree (.non (.exp .expr))} (h : e.Paired) :
    (ended text (some e)).Paired := by
  simpa [ended, Tree.Paired, Forest.Paired, Forest.Nearest] using h

theorem sense_ended (text : String) (last : Option (Tree (.non (.exp .expr)))) :
    (ended text last).stmtSense = endedSense last := by
  cases last <;> rfl

theorem eq_leaf {t : Terminal} (d : Tree (.term t)) : ∃ text, d = .leaf t text := by
  cases d with
  | leaf kind text => exact ⟨text, rfl⟩

theorem exists_yield_eq_concat (d : Tree (.non .stmt)) : ∃ ls l, d.yield = ls ++ [l] := by
  obtain ⟨first, rest, hd, -⟩ := d.yield_first (by simp)
  exact ⟨_, _, (List.dropLast_concat_getLast (hd ▸ List.cons_ne_nil first rest)).symm⟩

theorem yield_body (d : Tree (.non .body)) : ∃ ls l, d.yield = ls ++ [l] ∧ l.kind = .rbrace := by
  obtain ⟨p, hp, parts, rfl⟩ := d.exists_node
  cases p with
  | bodyStmts =>
    match parts with
    | .cons l (.cons u (.cons r .nil)) =>
      obtain ⟨text, rfl⟩ := r.eq_leaf
      exact ⟨l.yield ++ u.yield, ⟨.rbrace, text⟩, by simp [Tree.yield, Forest.yield], rfl⟩
  | bodyEmpty =>
    match parts with
    | .cons l (.cons r .nil) =>
      obtain ⟨text, rfl⟩ := r.eq_leaf
      exact ⟨l.yield, ⟨.rbrace, text⟩, by simp [Tree.yield, Forest.yield], rfl⟩
  | _ => cases hp

/-- A statement ends with a semicolon of its own, with another statement, or with a brace. -/
theorem stmt_cases (d : Tree (.non .stmt)) :
    (∃ text last, d = ended text last) ∨ (∃ (c : Clause) (s : Tree (.non .stmt)), d = c.close s) ∨
      ∃ ls l, d.yield = ls ++ [l] ∧ l.kind = .rbrace := by
  obtain ⟨p, hp, parts, rfl⟩ := d.exists_node
  cases p with
  | stmtExpr =>
    match parts with
    | .cons e (.cons semi .nil) =>
      obtain ⟨text, rfl⟩ := semi.eq_leaf
      exact .inl ⟨text, some e, rfl⟩
  | stmtEmpty =>
    match parts with
    | .cons semi .nil =>
      obtain ⟨text, rfl⟩ := semi.eq_leaf
      exact .inl ⟨text, none, rfl⟩
  | stmtIf =>
    match parts with
    | .cons i (.cons l (.cons test (.cons r (.cons s .nil)))) =>
      exact .inr (.inl ⟨.ifThen i l test r, s, rfl⟩)
  | stmtIfElse =>
    match parts with
    | .cons i (.cons l (.cons test (.cons r (.cons yes (.cons el (.cons s .nil)))))) =>
      exact .inr (.inl ⟨.ifElse i l test r yes el, s, rfl⟩)
  | stmtWhile =>
    match parts with
    | .cons w (.cons l (.cons test (.cons r (.cons s .nil)))) =>
      exact .inr (.inl ⟨.loop w l test r, s, rfl⟩)
  | stmtFunction =>
    match parts with
    | .cons f (.cons x (.cons params (.cons body .nil))) =>
      obtain ⟨ls, l, hbody, hl⟩ := body.yield_body
      refine .inr (.inr ⟨f.yield ++ (x.yield ++ (params.yield ++ ls)), l, ?_, hl⟩)
      simp [Tree.yield, Forest.yield, hbody]
  | stmtBlock =>
    match parts with
    | .cons body .nil =>
      obtain ⟨ls, l, hbody, hl⟩ := body.yield_body
      exact .inr (.inr ⟨ls, l, by simpa [Tree.yield, Forest.yield] using hbody, hl⟩)
  | _ => cases hp

/-- Behind its clauses, a statement ends with a semicolon or a brace of its own. -/
theorem exists_clauses (d : Tree (.non .stmt)) :
    ∃ (cs : List Clause) (s : Tree (.non .stmt)), d = cs.foldr Clause.close s ∧
      ((∃ text last, s = ended text last) ∨ ∃ ls l, s.yield = ls ++ [l] ∧ l.kind = .rbrace) := by
  induction hn : d.steps using Nat.strong_induction_on generalizing d with
  | _ n ih =>
    rcases d.stmt_cases with hended | ⟨c, s, rfl⟩ | hbrace
    · exact ⟨[], d, rfl, .inl hended⟩
    · obtain ⟨cs, s, rfl, hs⟩ := ih s.steps (hn ▸ c.steps_lt_close s) s rfl
      exact ⟨c :: cs, s, rfl, hs⟩
    · exact ⟨[], d, rfl, .inr hbrace⟩

/-- The semicolon at the end of a statement ends an expression or nothing, behind clauses. -/
theorem exists_ended {d : Tree (.non .stmt)} {ls : List Lexeme} {semicolon : String}
    (hd : d.yield = ls ++ [⟨.semicolon, semicolon⟩]) :
    ∃ (cs : List Clause) (last : Option (Tree (.non (.exp .expr)))),
      d = cs.foldr Clause.close (ended semicolon last) := by
  obtain ⟨cs, s, rfl, hs⟩ := d.exists_clauses
  rw [Clause.yield_foldr_close] at hd
  rcases hs with ⟨text, last, rfl⟩ | ⟨ls', l, hs, hl⟩
  · rw [yield_ended, ← List.append_assoc] at hd
    obtain ⟨-, htext⟩ := List.append_inj' hd rfl
    obtain rfl : text = semicolon := by simpa using htext
    exact ⟨cs, last, rfl⟩
  · rw [hs, ← List.append_assoc] at hd
    obtain ⟨-, hlast⟩ := List.append_inj' hd rfl
    cases List.singleton_inj.1 hlast
    cases hl

/-- A statement has a semicolon or a brace in it. -/
theorem exists_mem_yield_stmt (d : Tree (.non .stmt)) :
    ∃ l ∈ d.yield, l.kind = .semicolon ∨ l.kind = .rbrace := by
  obtain ⟨cs, s, rfl, hs⟩ := d.exists_clauses
  rw [Clause.yield_foldr_close]
  rcases hs with ⟨text, last, rfl⟩ | ⟨ls, l, hs, hl⟩
  · exact ⟨⟨.semicolon, text⟩, by simp [yield_ended], .inl rfl⟩
  · exact ⟨l, by simp [hs], .inr hl⟩

/-- A statement that is an expression has no clause in front. -/
theorem clauses_eq_nil_of_ended {text text' : String} {cs : List Clause}
    {last : Option (Tree (.non (.exp .expr)))} {e : Tree (.non (.exp .expr))}
    (h : cs.foldr Clause.close (ended text last) = ended text' (some e)) :
    cs = [] ∧ last.isSome = true := by
  cases cs with
  | cons c cs => cases c <;> cases h
  | nil =>
    cases last with
    | none => cases h
    | some e => exact ⟨rfl, rfl⟩

end Tree

/-! ## Programs that lack their last semicolon -/

/-- Statements, clauses of a last one, and the expression in it, if there is one. -/
structure Draft where
  stmts : List (Tree (.non .stmt))
  clauses : List Clause
  last : Option (Tree (.non (.exp .expr)))

namespace Draft

def yield (s : Draft) : List Lexeme :=
  s.stmts.flatMap Tree.yield ++ s.clauses.flatMap Clause.yield ++ s.last.toList.flatMap Tree.yield

/-- The statements, when the last semicolon is there. -/
def complete (s : Draft) (semicolon : String) : List (Tree (.non .stmt)) :=
  s.stmts ++ [s.clauses.foldr Clause.close (.ended semicolon s.last)]

/-- The program that it stands for. -/
def sense (s : Draft) : Expr :=
  .chain (s.stmts.map Tree.stmtSense ++
    [s.clauses.foldr Clause.around (Tree.endedSense s.last)])

variable (s : Draft) (semicolon : String)

theorem yield_complete :
    (s.complete semicolon).flatMap Tree.yield = s.yield ++ [⟨.semicolon, semicolon⟩] := by
  simp [complete, yield, Clause.yield_foldr_close, Tree.yield_ended]

theorem sense_complete : Expr.chain ((s.complete semicolon).map Tree.stmtSense) = s.sense := by
  rw [complete, List.map_append, List.map_singleton, Clause.sense_foldr_close, Tree.sense_ended,
    sense]

/-- Statements with a semicolon at the end are a draft that has been completed. -/
theorem exists_complete {ss : List (Tree (.non .stmt))} {before : List Lexeme} (hne : ss ≠ [])
    (hyield : ss.flatMap Tree.yield = before ++ [⟨.semicolon, semicolon⟩]) :
    ∃ s : Draft, ss = s.complete semicolon ∧ before = s.yield := by
  obtain ⟨stmts, d, rfl⟩ : ∃ stmts d, ss = stmts ++ [d] :=
    ⟨_, _, (List.dropLast_concat_getLast hne).symm⟩
  obtain ⟨ls, l, hd⟩ := d.exists_yield_eq_concat
  have hcut : stmts.flatMap Tree.yield ++ ls ++ [l] = before ++ [⟨.semicolon, semicolon⟩] := by
    simpa [hd] using hyield
  obtain ⟨-, hl⟩ := List.append_inj' hcut rfl
  rw [List.singleton_inj.1 hl] at hd
  obtain ⟨cs, last, rfl⟩ := Tree.exists_ended hd
  have hwhole := Draft.yield_complete ⟨stmts, cs, last⟩ semicolon
  rw [complete, hyield] at hwhole
  exact ⟨⟨stmts, cs, last⟩, rfl, List.append_cancel_right hwhole⟩

end Draft

/-! ## The tree that the parser finds -/

theorem Scans.eq_of_drives {bound n : Nat} {d d' : Tree (.non .program)} {stack : Stack Tree}
    {text : List Char} {ls : List Lexeme} (h : Scans bound d stack text ls)
    (hd : Drives n stack ls d') (hn : n ≤ bound) : d = d' := by
  induction h generalizing n with
  | done hf =>
    have hf' := hd.feed_finished hn (.leaf .eof "")
    rw [hf] at hf'
    cases hf'
    rfl
  | blank _ _ ih => exact ih hd hn
  | line _ _ _ ih => exact ih hd hn
  | block _ _ ih => exact ih hd hn
  | token _ _ hf _ ih =>
    obtain ⟨m, stack', hf', hd, hm⟩ := hd.feed_read hn
    rw [hf] at hf'
    cases hf'
    exact ih hd (hm.trans hn)

/-- A text is read as the derivation of its tokens that has every `else` at the nearest branch. -/
theorem Scans.eq_of_paired {bound : Nat} {d d' : Tree (.non .program)} {text : List Char}
    (h : Scans bound d [] text d'.yield) (hp : d'.Paired) : d = d' :=
  (h.mono (Nat.le_max_left bound d'.steps)).eq_of_drives (drives_yield d' hp) (Nat.le_max_right _ _)

/-! ## Entries -/

/-- A text with readable integers that is read as a program is not refused. -/
theorem not_refused_of_scan {text : String} {d : Tree (.non .program)} {tokens : List Token}
    (h : Parser.scan growing text.toList = .ok (d, tokens))
    (hread : ∀ l ∈ tokens.map Token.lexeme, l.Readable) (r : Refusal) :
    parse text ≠ .error (.refused r) := by
  rw [← Parser.yield_of_scan h] at hread
  have hparse := Parser.parse_of_scan h hread
  split at hparse
  · simp [hparse]
  · obtain ⟨e, he, -⟩ := hparse
    simp [he]

/-- A program with a semicolon at the end is a draft that has been completed. -/
theorem Scans.exists_draft {bound : Nat} {d : Tree (.non .program)} {text : List Char}
    {before : List Lexeme} {semicolon : String}
    (h : Scans bound d [] text (before ++ [⟨.semicolon, semicolon⟩])) :
    ∃ (s : Draft) (u : Tree (.non .stmts)), d = .ofStmts u ∧
      Tree.Lists u (s.complete semicolon) ∧ before = s.yield := by
  have hyield : d.yield = before ++ [⟨.semicolon, semicolon⟩] := h.yield trivial
  rcases d.program_cases with rfl | ⟨u, rfl⟩
  · simp [Tree.yield, Forest.yield] at hyield
  · obtain ⟨ss, hu⟩ := u.exists_lists
    have hss : ss.flatMap Tree.yield = before ++ [⟨.semicolon, semicolon⟩] := by
      simpa [Tree.yield, Forest.yield, hu.yield_eq] using hyield
    obtain ⟨s, rfl, hbefore⟩ := Draft.exists_complete semicolon hu.ne_nil hss
    exact ⟨s, u, rfl, hu, hbefore⟩

/-- If its tokens are those of statements and one expression, the parser finds no clause. -/
theorem Draft.clauses_eq_nil {bound : Nat} {u : Tree (.non .stmts)} {text : List Char} {s : Draft}
    {semicolon : String} {stmts : List (Tree (.non .stmt))} {expr : Tree (.non (.exp .expr))}
    (h : Scans bound (.ofStmts u) [] text (s.yield ++ [⟨.semicolon, semicolon⟩]))
    (hu : Tree.Lists u (s.complete semicolon))
    (hs : s.yield = stmts.flatMap Tree.yield ++ expr.yield) :
    s.clauses = [] ∧ s.last.isSome = true := by
  obtain ⟨stmts', hpaired, hstmts⟩ := Tree.exists_all_paired stmts
  obtain ⟨expr', hexpr', hexpr⟩ := expr.exists_paired
  obtain ⟨v, hv⟩ := Tree.lists_of_ne_nil
    (List.append_ne_nil_of_right_ne_nil stmts' (List.cons_ne_nil (.ended semicolon (some expr')) []))
  have hvpaired : v.Paired := by
    refine hv.paired (List.forall_mem_append.2 ⟨hpaired, fun x hx => ?_⟩)
    obtain rfl := List.mem_singleton.1 hx
    exact Tree.paired_ended hexpr'
  have hvyield : (Tree.ofStmts v).yield = s.yield ++ [⟨.semicolon, semicolon⟩] := by
    simp [Tree.yield, Forest.yield, hv.yield_eq, hs, hstmts, hexpr, Tree.yield_ended]
  rw [← hvyield] at h
  cases h.eq_of_paired (by simpa [Tree.Paired, Forest.Paired, Forest.Nearest] using hvpaired)
  -- The last statement of the one list is the last of the other.
  obtain ⟨-, hlast⟩ := List.append_inj' (hu.unique hv) rfl
  exact Tree.clauses_eq_nil_of_ended (List.singleton_inj.1 hlast)

/-- An entry that is refused as it is and read with a semicolon behind it has the tokens of a program
that lacks its last semicolon. The semicolon ends the expression at the end of the entry, or it is an
empty statement: the last part of a branch or loop that the entry leaves open, or one more behind
complete statements and white space that is no blank. The entry is statements with one expression
behind them only in the first case, and only if no branch or loop is left open. -/
theorem draft_of_entry (text : String) (r : Refusal) (e : Expr)
    (hr : parse text = .error (.refused r)) (he : Session.parseEntry text = .ok e) :
    ∃ s : Draft, (Parser.shifted text.toList).map Token.lexeme = s.yield ∧
      Laid (Text.trimRight text.toList) s.yield ∧ e.bare = s.sense ∧
      (s.clauses = [] → s.last = none →
        ∃ c ∈ text.toList, Text.isSpace c = true ∧ Token.isBlank c = false) ∧
      ((∃ (stmts : List (Tree (.non .stmt))) (expr : Tree (.non (.exp .expr))),
          (Parser.shifted text.toList).map Token.lexeme = stmts.flatMap Tree.yield ++ expr.yield) ↔
        s.clauses = [] ∧ s.last.isSome = true) := by
  have hcompleted : parse (Session.completed text) = .ok e := by
    rcases Session.parseEntry_eq_ok.1 he with h | ⟨-, h⟩
    · rw [hr] at h
      cases h
    · exact h
  obtain ⟨tokens, htokens⟩ := parse_eq_ok.1 hcompleted
  obtain ⟨d, hscan, -, hread, hsense⟩ := Parser.parseTokens_eq_ok htokens
  rw [Parser.literalErrors_eq_none] at hread
  rw [Session.toList_completed] at hscan
  have hscans := Parser.scan_growing_iff.1 ⟨tokens, hscan, rfl⟩
  obtain ⟨spaces, hspaces, htext⟩ := Text.exists_trimRight text.toList
  obtain ⟨before, hls, hlaid, hshifted, hsentence⟩ := Parser.scan_uncompleted hscans hspaces
  rw [← htext] at hshifted hsentence
  rw [hls] at hscans hread
  obtain ⟨s, u, rfl, hu, rfl⟩ := hscans.exists_draft
  refine ⟨s, hshifted, hlaid, ?_, fun hclauses hlast => ?_, ?_, ?_⟩
  · rw [hsense, ← s.sense_complete ";", ← hu.sense_eq]
    rfl
  · obtain ⟨d', hd'⟩ := Tree.exists_program s.stmts
    have hyield : d'.yield = s.yield := by simp [hd', Draft.yield, hclauses, hlast]
    rcases hsentence ⟨d', by rw [hyield]⟩ with ⟨c, hc, hodd⟩ | ⟨d'', tokens', hscan'⟩
    · exact ⟨c, by rw [htext]; exact List.mem_append_right _ hc, hspaces c hc, hodd⟩
    · rw [Parser.shifted_of_ok hscan'] at hshifted
      refine absurd hr (not_refused_of_scan hscan' (fun l hl => ?_) r)
      exact hread l (List.mem_append_left _ (hshifted ▸ hl))
  · rintro ⟨stmts, expr, hs⟩
    exact Draft.clauses_eq_nil hscans hu (hshifted ▸ hs)
  · rintro ⟨hclauses, hlast⟩
    obtain ⟨expr, hexpr⟩ := Option.isSome_iff_exists.1 hlast
    refine ⟨s.stmts, expr, ?_⟩
    simp [hshifted, Draft.yield, hclauses, hexpr]

/-- Two clauses are left open at the end of this entry. -/
theorem draft_of_entry_else :
    parse "1; if (x) 2; else while (y)" = .error (.refused (.misread .endOfText ⟨26, 1, 27⟩
      "1; if (x) 2; else while (y)\n                          ^\n")) ∧
    ∃ (e : Expr) (s : Draft), Session.parseEntry "1; if (x) 2; else while (y)" = .ok e ∧
      (Parser.shifted "1; if (x) 2; else while (y)".toList).map Token.lexeme = s.yield ∧
      Laid (Text.trimRight "1; if (x) 2; else while (y)".toList) s.yield ∧ e.bare = s.sense ∧
      (s.clauses ≠ [] ∨ s.last ≠ none) := by
  have hr : parse "1; if (x) 2; else while (y)" = .error (.refused (.misread .endOfText ⟨26, 1, 27⟩
      "1; if (x) 2; else while (y)\n                          ^\n")) := by rfl
  have hok : (Session.parseEntry "1; if (x) 2; else while (y)").isOk = true := by decide +kernel
  obtain ⟨e, he⟩ := Session.exists_of_isOk hok
  obtain ⟨s, hyield, hlaid, hsense, hodd, -⟩ := draft_of_entry _ _ e hr he
  refine ⟨hr, e, s, he, hyield, hlaid, hsense, ?_⟩
  by_contra hnone
  push Not at hnone
  obtain ⟨c, hc, hspace, hblank⟩ := hodd hnone.1 hnone.2
  have hall : "1; if (x) 2; else while (y)".toList.all
      (fun c => !Text.isSpace c || Token.isBlank c) = true := by decide +kernel
  simpa [hspace, hblank] using List.all_eq_true.1 hall c hc

/-- A loop without a body is refused as a program and read as an entry, although it is not statements
with an expression behind them. -/
theorem parseEntry_loop_without_body :
    parse "while (false)" = .error (.refused (.misread .endOfText ⟨12, 1, 13⟩
      "while (false)\n            ^\n")) ∧
    (Session.parseEntry "while (false)").isOk = true ∧
    ¬ ∃ (stmts : List (Tree (.non .stmt))) (expr : Tree (.non (.exp .expr))),
      (Parser.shifted "while (false)".toList).map Token.lexeme =
        stmts.flatMap Tree.yield ++ expr.yield := by
  refine ⟨rfl, by decide +kernel, ?_⟩
  rintro ⟨stmts, expr, h⟩
  have htokens : (Parser.shifted "while (false)".toList).map Token.lexeme =
      [⟨.keyword .whileWord, "while"⟩, ⟨.lpar, "("⟩, ⟨.keyword .falseWord, "false"⟩,
        ⟨.rpar, ")"⟩] := by decide +kernel
  rw [htokens] at h
  cases stmts with
  | nil =>
    obtain ⟨l, rest, hexpr, hfirst⟩ := expr.yield_first (by simp)
    rw [List.flatMap_nil, List.nil_append, hexpr] at h
    cases h
    exact absurd hfirst (by decide)
  | cons s stmts =>
    obtain ⟨l, hl, hkind⟩ := s.exists_mem_yield_stmt
    have hmem : l ∈ (s :: stmts).flatMap Tree.yield ++ expr.yield := by simp [hl]
    rw [← h] at hmem
    simp at hmem
    rcases hmem with rfl | rfl | rfl | rfl <;> simp at hkind

end Featherweight
