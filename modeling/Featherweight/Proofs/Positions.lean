import Featherweight.Proofs.Nodes
import Featherweight.Proofs.Parametric
import Featherweight.Proofs.Place

/-!
# Featherweight.Proofs.Positions

The positions in a tree are those of the text.

* `Expr.written` : the parts of a node for which there is something in the text.
* `Expr.Reads` : what the text at a node's position says.
* `Expr.Sits text w` : a node is at a stretch of the text within `w`, and so is what is in it.
* `Part.Lies` : what has been lowered from a row of tokens sits within the row.
* `parse_positions` : hence every node of a program is where its position says.
-/

namespace Featherweight

/-- The parts of a node but the zero that a minus sign subtracts from and the null of a branch
without `else`. -/
def Expr.written : Expr → List Expr
  | .binary .sub (.literal (.int 0) none) b _ => [b]
  | .binary _ a b _ => [a, b]
  | .branch a b (.literal .null none) _ => [a, b]
  | .branch a b c _ => [a, b, c]
  | .print a _ | .declare _ a _ | .assign _ a _ | .function _ a _ => [a]
  | .loop a b _ | .seq a b _ => [a, b]
  | .call a args _ => a :: args
  | .literal .. | .var .. | .blank | .host _ => []

/-- The nodes whose position covers what is in them. -/
def Expr.isCompound : Expr → Bool
  | .print .. | .branch .. | .loop .. | .declare .. | .assign .. | .function .. | .call .. => true
  | .literal .. | .var .. | .binary .. | .seq .. | .blank | .host _ => false

/-- Nothing but gaps and opening parentheses. -/
def Opening (text : List Char) : Prop := ∃ ls, Laid text ls ∧ ∀ l ∈ ls, l.kind = .lpar

/-- How an integer literal is written: as digits, or as a minus sign in front of an integer literal,
which may be in parentheses. -/
inductive Numeral : List Char → List Char → Int → Prop where
  | digits {digits after : List Char} : digits ≠ [] → (∀ c ∈ digits, c.isDigit = true) →
      Numeral digits after (Token.digitsValue (String.ofList digits))
  | minus {between inside after : List Char} {n : Int} : Opening between →
      Numeral inside after n → Numeral ['-'] (between ++ (inside ++ after)) (-n)

/-- What the text at a node's position says, given the text behind it. -/
def Expr.Reads (inside after : List Char) : Expr → Prop
  | .var x _ => inside = x.toList
  | .binary op _ _ _ => inside = op.symbol.toList
  | .literal (.int n) _ => Numeral inside after n
  | _ => True

/-! ## Nodes at their places -/

namespace Expr

structure Sits (text : List Char) (w : Span) (n : Expr) : Prop where
  written : ∀ c ∈ n.written, c.pos?.isSome = true
  placed : ∀ pos, n.pos? = some pos → ∃ before inside after,
    text = before ++ (inside ++ after) ∧ inside ≠ [] ∧ pos = .ofSpan (.across before inside) ∧
    (Span.across before inside).Within w ∧ n.Reads inside after
  covers : n.isCompound = true → ∀ pos, n.pos? = some pos → ∃ u, pos = .ofSpan u ∧ u.On text ∧
    ∀ m ∈ n.nodes, ∀ q, m.pos? = some q → ∃ s, q = .ofSpan s ∧ s.On text ∧ s.Within u

/-- Every node of a tree sits within a span. -/
abbrev Rests (text : List Char) (w : Span) (e : Expr) : Prop := e.All (Sits text w) fun _ => True

variable {text : List Char} {w w' : Span} {n : Expr}

theorem Sits.mono (h : n.Sits text w) (hw : w.Within w') : n.Sits text w' where
  written := h.written
  placed pos hpos := by
    obtain ⟨before, inside, after, htext, hne, hp, hin, hreads⟩ := h.placed pos hpos
    exact ⟨before, inside, after, htext, hne, hp, hin.trans hw, hreads⟩
  covers := h.covers

theorem Rests.mono {e : Expr} (h : e.Rests text w) (hw : w.Within w') : e.Rests text w' :=
  All.mono h (fun _ hn => hn.mono hw) fun _ => id

theorem Rests.nodes {e : Expr} (h : e.Rests text w) : ∀ n ∈ e.nodes, n.Sits text w :=
  ((all_iff e).1 h).1

theorem Sits.on {pos : Pos} (h : n.Sits text w) (hpos : n.pos? = some pos) :
    ∃ s, pos = .ofSpan s ∧ s.On text ∧ s.Within w := by
  obtain ⟨before, inside, after, htext, hne, hp, hin, -⟩ := h.placed pos hpos
  exact ⟨_, hp, ⟨before, inside, after, htext, hne, rfl⟩, hin⟩

theorem nodes_eq_cons (n : Expr) : n.nodes = n :: n.nodes.tail := by
  cases n <;> rfl

/-- A node without a position of its own and without parts. -/
theorem sits_of_none (hpos : n.pos? = none) (hwritten : n.written = []) : n.Sits text w where
  written c hc := by
    rw [hwritten] at hc
    cases hc
  placed pos h := by
    rw [hpos] at h
    cases h
  covers _ pos h := by
    rw [hpos] at h
    cases h

/-- A node at a stretch of the text that does not cover its parts. -/
theorem sits_at {before inside after : List Char} (htext : text = before ++ (inside ++ after))
    (hne : inside ≠ []) (hw : (Span.across before inside).Within w)
    (hpos : n.pos? = some (.ofSpan (.across before inside))) (hn : n.isCompound = false)
    (hreads : n.Reads inside after) (hwritten : ∀ c ∈ n.written, c.pos?.isSome = true) :
    n.Sits text w where
  written := hwritten
  placed pos h := by
    rw [hpos] at h
    cases h
    exact ⟨before, inside, after, htext, hne, rfl, hw, hreads⟩
  covers h := by
    rw [hn] at h
    cases h

/-- A node at a whole stretch, with all its parts in it. -/
theorem sits_over (hw : w.On text) (hpos : n.pos? = some (.ofSpan w))
    (hreads : ∀ inside after, n.Reads inside after)
    (hwritten : ∀ c ∈ n.written, c.pos?.isSome = true)
    (hparts : ∀ m ∈ n.nodes.tail, m.Sits text w) : n.Sits text w where
  written := hwritten
  placed pos h := by
    rw [hpos] at h
    cases h
    obtain ⟨before, inside, after, htext, hne, rfl⟩ := hw
    exact ⟨before, inside, after, htext, hne, rfl, .refl _, hreads _ _⟩
  covers _ pos h := by
    rw [hpos] at h
    cases h
    refine ⟨w, rfl, hw, fun m hm q hq => ?_⟩
    rw [nodes_eq_cons] at hm
    rcases List.mem_cons.1 hm with rfl | hm
    · rw [hpos] at hq
      cases hq
      exact ⟨w, rfl, hw, .refl w⟩
    · exact (hparts m hm).on hq

/-- A tree that sits within a span and has a position itself. -/
structure Stands (text : List Char) (w : Span) (e : Expr) : Prop where
  rests : e.Rests text w
  pos : e.pos?.isSome = true

theorem Stands.mono {e : Expr} (h : e.Stands text w) (hw : w.Within w') : e.Stands text w' :=
  ⟨h.rests.mono hw, h.pos⟩

variable {a b c : Expr} {pos : Option Pos}

theorem eq_or_eq_of_mem_written_binary {op : Op} {m : Expr}
    (h : m ∈ (binary op a b pos).written) : m = a ∨ m = b := by
  unfold written at h
  split at h <;> simp_all

theorem eq_or_eq_of_mem_written_branch {m : Expr} (h : m ∈ (branch a b c pos).written) :
    m = a ∨ m = b ∨ m = c := by
  unfold written at h
  split at h <;> grind

theorem stands_literal {v : Value} (hw : w.On text) (hv : v.nodes = [])
    (hall : v.All (Sits text w) fun _ => True)
    (hreads : ∀ inside after, (literal v (some (.ofSpan w))).Reads inside after) :
    (literal v (some (.ofSpan w))).Stands text w := by
  refine ⟨⟨sits_over hw rfl hreads (List.forall_mem_nil _) ?_, hall⟩, rfl⟩
  show ∀ m ∈ v.nodes, _
  rw [hv]
  exact List.forall_mem_nil _

/-- A node around one part. -/
theorem stands_around (hw : w.On text) (ha : a.Stands text w) (hpos : n.pos? = some (.ofSpan w))
    (hreads : ∀ inside after, n.Reads inside after) (hnodes : n.nodes.tail = a.nodes)
    (hwritten : n.written = [a]) (hall : n.Sits text w ∧ a.Rests text w → n.Rests text w) :
    n.Stands text w := by
  have hparts : ∀ m ∈ n.nodes.tail, m.Sits text w := by
    rw [hnodes]
    exact ha.rests.nodes
  have hposs : ∀ m ∈ n.written, m.pos?.isSome = true := by
    intro m hm
    rw [hwritten, List.mem_singleton] at hm
    rw [hm]
    exact ha.pos
  exact ⟨hall ⟨sits_over hw hpos hreads hposs hparts, ha.rests⟩, by rw [hpos]; rfl⟩

theorem stands_loop (hw : w.On text) (ha : a.Stands text w) (hb : b.Stands text w) :
    (loop a b (some (.ofSpan w))).Stands text w := by
  have hparts := List.forall_mem_append.2 ⟨ha.rests.nodes, hb.rests.nodes⟩
  refine ⟨⟨sits_over hw rfl (fun _ _ => trivial) ?_ hparts, ha.rests, hb.rests⟩, rfl⟩
  intro m hm
  have hm : m = a ∨ m = b := by simpa [written] using hm
  rcases hm with rfl | rfl
  · exact ha.pos
  · exact hb.pos

theorem stands_branch (hw : w.On text) (ha : a.Stands text w) (hb : b.Stands text w)
    (hc : c.Stands text w) : (branch a b c (some (.ofSpan w))).Stands text w := by
  have hparts := List.forall_mem_append.2
    ⟨ha.rests.nodes, List.forall_mem_append.2 ⟨hb.rests.nodes, hc.rests.nodes⟩⟩
  refine ⟨⟨sits_over hw rfl (fun _ _ => trivial) ?_ hparts, ha.rests, hb.rests, hc.rests⟩, rfl⟩
  intro m hm
  rcases eq_or_eq_of_mem_written_branch hm with rfl | rfl | rfl
  · exact ha.pos
  · exact hb.pos
  · exact hc.pos

/-- The null of a branch without `else` has no place. -/
theorem rests_null : (literal .null none).Rests text w := ⟨sits_of_none rfl rfl, trivial⟩

theorem stands_branch_null (hw : w.On text) (ha : a.Stands text w) (hb : b.Stands text w) :
    (branch a b (literal .null none) (some (.ofSpan w))).Stands text w := by
  have hnull : (literal .null none).Rests text w := rests_null
  have hparts := List.forall_mem_append.2
    ⟨ha.rests.nodes, List.forall_mem_append.2 ⟨hb.rests.nodes, hnull.nodes⟩⟩
  refine ⟨⟨sits_over hw rfl (fun _ _ => trivial) ?_ hparts, ha.rests, hb.rests, hnull⟩, rfl⟩
  intro m hm
  have hm : m = a ∨ m = b := by simpa [written] using hm
  rcases hm with rfl | rfl
  · exact ha.pos
  · exact hb.pos

theorem nodesIn_of_forall {args : List Expr} (h : ∀ e ∈ args, e.Stands text w) :
    ∀ m ∈ nodesIn args, m.Sits text w :=
  ((allIn_iff args).1 ((allIn_iff_forall args).2 fun e he => (h e he).rests)).1

theorem stands_call {args : List Expr} (hw : w.On text) (ha : a.Stands text w)
    (hargs : ∀ e ∈ args, e.Stands text w) : (call a args (some (.ofSpan w))).Stands text w := by
  have hparts := List.forall_mem_append.2 ⟨ha.rests.nodes, nodesIn_of_forall hargs⟩
  refine ⟨⟨sits_over hw rfl (fun _ _ => trivial) ?_ hparts, ha.rests,
    (allIn_iff_forall args).2 fun e he => (hargs e he).rests⟩, rfl⟩
  intro m hm
  rcases List.mem_cons.1 hm with rfl | hm
  · exact ha.pos
  · exact (hargs m hm).pos

/-- A `seq` node is where its first part is. -/
theorem stands_seq (ha : a.Stands text w) (hb : b.Stands text w) (pos : Option Pos) :
    (seq a b (a.pos? <|> pos)).Stands text w := by
  obtain ⟨q, hq⟩ := Option.isSome_iff_exists.1 ha.pos
  rw [hq]
  obtain ⟨before, inside, after, htext, hne, rfl, hin, -⟩ := ha.rests.node.placed q hq
  refine ⟨⟨sits_at htext hne hin rfl rfl trivial ?_, ha.rests, hb.rests⟩, rfl⟩
  intro m hm
  have hm : m = a ∨ m = b := by simpa [written] using hm
  rcases hm with rfl | rfl
  · exact ha.pos
  · exact hb.pos

theorem stands_sequence {stmts : List Expr} (hne : stmts ≠ []) (h : ∀ e ∈ stmts, e.Stands text w)
    (pos : Option Pos) : (sequence stmts pos).Stands text w := by
  cases stmts with
  | nil => exact absurd rfl hne
  | cons e rest =>
    rw [sequence]
    have he := h e (by simp)
    have hrest : ∀ s ∈ rest, s.Stands text w := fun s hs => h s (by simp [hs])
    clear h hne
    induction rest generalizing e with
    | nil => exact he
    | cons s rest ih =>
      rw [List.foldl_cons]
      exact ih _ (stands_seq he (hrest s (by simp)) pos) fun t ht => hrest t (by simp [ht])

theorem stands_binary {op : Op} {before after : List Char} (ha : a.Stands text w)
    (hb : b.Stands text w) (htext : text = before ++ (op.symbol.toList ++ after))
    (hw : (Span.across before op.symbol.toList).Within w) :
    (binary op a b (some (.ofSpan (.across before op.symbol.toList)))).Stands text w := by
  have hne : op.symbol.toList ≠ [] := by cases op <;> decide
  refine ⟨⟨sits_at htext hne hw rfl rfl rfl ?_, ha.rests, hb.rests⟩, rfl⟩
  intro m hm
  rcases eq_or_eq_of_mem_written_binary hm with rfl | rfl
  · exact ha.pos
  · exact hb.pos

/-- The zero that a minus sign subtracts from has no place. -/
theorem stands_minus {before after : List Char} (ha : a.Stands text w)
    (htext : text = before ++ (Op.sub.symbol.toList ++ after))
    (hw : (Span.across before Op.sub.symbol.toList).Within w) :
    (binary .sub (literal (.int 0) none) a
      (some (.ofSpan (.across before Op.sub.symbol.toList)))).Stands text w := by
  have hzero : (literal (.int 0) none).Rests text w := ⟨sits_of_none rfl rfl, trivial⟩
  refine ⟨⟨sits_at htext (by decide) hw rfl rfl rfl ?_, hzero, ha.rests⟩, rfl⟩
  intro m hm
  rw [List.mem_singleton.1 hm]
  exact ha.pos

theorem stands_int {n : Int} {before inside after : List Char}
    (htext : text = before ++ (inside ++ after)) (hne : inside ≠ [])
    (hw : (Span.across before inside).Within w) (hn : Numeral inside after n) :
    (literal (.int n) (some (.ofSpan (.across before inside)))).Stands text w :=
  ⟨⟨sits_at htext hne hw rfl rfl hn (List.forall_mem_nil _), trivial⟩, rfl⟩

theorem stands_var {x : String} {before after : List Char}
    (htext : text = before ++ (x.toList ++ after)) (hne : x.toList ≠ [])
    (hw : (Span.across before x.toList).Within w) :
    (var x (some (.ofSpan (.across before x.toList)))).Stands text w :=
  ⟨sits_at htext hne hw rfl rfl rfl (List.forall_mem_nil _), rfl⟩

end Expr

/-! ## Parts of a production -/

/-- Tokens and trees sit within a span. -/
def Meaning.Sits (text : List Char) (w : Span) : (X : Symbol) → Meaning X → Prop
  | .term k, (t : Token) => t.kind = k ∧ t.lexeme.Spelt ∧ t.span.Within w ∧
      ∃ before after, text = before ++ (t.text.toList ++ after) ∧
        t.span = .across before t.text.toList
  | .non .program, (e : Expr) => e.Stands text w
  | .non .stmt, (e : Expr) => e.Stands text w
  | .non .body, (e : Expr) => e.Stands text w
  | .non (.exp _), (e : Expr) => e.Stands text w
  | .non .stmts, (es : List Expr) => es ≠ [] ∧ ∀ e ∈ es, e.Stands text w
  | .non .args, (es : List Expr) => ∀ e ∈ es, e.Stands text w
  | .non .moreArgs, (es : List Expr) => ∀ e ∈ es, e.Stands text w
  | .non .params, _ => True
  | .non .moreParams, _ => True

/-- What stands first: a token is behind a gap alone, and an integer literal behind parentheses. -/
def Meaning.Leads (before mid rest : List Char) : (X : Symbol) → Meaning X → Prop
  | .term _, (t : Token) => ∃ gap, Laid gap [] ∧ mid = gap ++ t.text.toList ∧
      t.span = .across (before ++ gap) t.text.toList
  | .non (.exp _), (e : Expr) => ∀ n pos, e = .literal (.int n) pos →
      ∃ between inside after, mid ++ rest = between ++ (inside ++ after) ∧ Opening between ∧
        Numeral inside after n
  | _, _ => True

theorem Meaning.Sits.mono {text : List Char} {w w' : Span} {X : Symbol} {m : Meaning X}
    (h : m.Sits text w) (hw : w.Within w') : m.Sits text w' := by
  match X with
  | .term k =>
    obtain ⟨hkind, hspelt, hin, hplace⟩ := h
    exact ⟨hkind, hspelt, hin.trans hw, hplace⟩
  | .non .program => exact Expr.Stands.mono h hw
  | .non .stmt => exact Expr.Stands.mono h hw
  | .non .body => exact Expr.Stands.mono h hw
  | .non (.exp l) => exact Expr.Stands.mono h hw
  | .non .stmts => exact ⟨h.1, fun e he => (h.2 e he).mono hw⟩
  | .non .args => exact fun e he => (h e he).mono hw
  | .non .moreArgs => exact fun e he => (h e he).mono hw
  | .non .params => trivial
  | .non .moreParams => trivial

/-- A part comes from the text `mid` between `before` and `rest`: its span is all of it but the gap
in front, and it sits there. -/
structure Part.Lies {X : Symbol} (text before mid rest : List Char) (part : Part X) : Prop where
  text_eq : text = before ++ (mid ++ rest)
  spans : ∃ gap inside, mid = gap ++ inside ∧ inside ≠ [] ∧
    part.span = some (.across (before ++ gap) inside) ∧
    part.meaning.Sits text (.across (before ++ gap) inside)
  leads : part.meaning.Leads before mid rest

namespace Parser

/-- The parts of a word come from the text one after the other. -/
def AllLie (text rest : List Char) :
    (word : List Symbol) → Values Part word → List Char → List Char → Prop
  | [], _, _, mid => mid = []
  | _ :: word, (part, parts), before, mid => ∃ m m', mid = m ++ m' ∧
      part.Lies text before m (m' ++ rest) ∧ AllLie text rest word parts (before ++ m) m'

/-- The parts of a word sit within a span. -/
def AllSit (text : List Char) (w : Span) : (word : List Symbol) → Values Part word → Prop
  | [], _ => True
  | _ :: word, (part, parts) => part.meaning.Sits text w ∧ AllSit text w word parts

variable {text rest before mid : List Char} {word : List Symbol} {parts : Values Part word}

/-- The span of the parts is all of the text but the gap in front. -/
theorem AllLie.span (h : AllLie text rest word parts before mid) (hne : word ≠ []) :
    ∃ gap inside, mid = gap ++ inside ∧ inside ≠ [] ∧
      span? word parts = some (.across (before ++ gap) inside) := by
  induction word generalizing before mid with
  | nil => exact absurd rfl hne
  | cons X word ih =>
    obtain ⟨part, parts⟩ := parts
    obtain ⟨m, m', rfl, hpart, hrest⟩ := h
    obtain ⟨gap, inside, rfl, hinside, hspan, -⟩ := hpart.spans
    have hhead : span? (X :: word) (part, parts) = Span.join? part.span (span? word parts) := rfl
    rw [hhead, hspan]
    cases word with
    | nil =>
      obtain rfl : m' = [] := hrest
      exact ⟨gap, inside, by simp, hinside, rfl⟩
    | cons Y word =>
      obtain ⟨gap', inside', rfl, -, hspan'⟩ := ih hrest (List.cons_ne_nil _ _)
      rw [hspan']
      refine ⟨gap, inside ++ (gap' ++ inside'), by simp, by simp [hinside], ?_⟩
      simp [Span.join?, Span.across]

/-- Parts behind the start of a span sit within it, if it goes on far enough. -/
theorem AllLie.sit_of_le (h : AllLie text rest word parts before mid) {w : Span}
    (hstart : w.start.offset ≤ before.length)
    (hstop : before.length + mid.length ≤ w.stop.offset) : AllSit text w word parts := by
  induction word generalizing before mid with
  | nil => trivial
  | cons X word ih =>
    obtain ⟨part, parts⟩ := parts
    obtain ⟨m, m', rfl, hpart, hrest⟩ := h
    obtain ⟨gap, inside, rfl, -, -, hsits⟩ := hpart.spans
    simp only [List.length_append] at hstop
    constructor
    · refine hsits.mono ⟨?_, ?_⟩
      · simp only [Span.across, Point.offset_past, List.length_append]
        omega
      · simp only [Span.across, Point.offset_past, List.length_append, Point.start]
        omega
    · refine ih hrest ?_ ?_
      · simp only [List.length_append]
        omega
      · simp only [List.length_append]
        omega

theorem AllLie.sit (h : AllLie text rest word parts before mid) {w : Span}
    (hw : span? word parts = some w) : AllSit text w word parts := by
  cases word with
  | nil => trivial
  | cons X word =>
    obtain ⟨gap, inside, hmid, -, hspan⟩ := h.span (List.cons_ne_nil _ _)
    rw [hspan] at hw
    cases hw
    obtain ⟨part, parts⟩ := parts
    obtain ⟨m, m', hm, hpart, hrest⟩ := h
    obtain ⟨gap', inside', rfl, -, hspan', hsits⟩ := hpart.spans
    -- The first part starts where the whole does.
    have hstart : (Span.across (before ++ gap) inside).start =
        (Span.across (before ++ gap') inside').start := by
      have hhead : span? (X :: word) (part, parts) = Span.join? part.span (span? word parts) := rfl
      rw [hhead, hspan'] at hspan
      cases hjoin : span? word parts with
      | none =>
        rw [hjoin] at hspan
        exact congrArg Span.start (Option.some.inj hspan).symm
      | some s =>
        rw [hjoin] at hspan
        exact (congrArg Span.start (Option.some.inj hspan)).symm
    have hlength := congrArg List.length (hmid.symm.trans hm)
    simp only [List.length_append] at hlength
    have hoffset : (Span.across (before ++ gap') inside').start.offset =
        before.length + gap'.length := by
      simp [Span.across, Point.offset_past, Point.start]
    have hstop : (Span.across (before ++ gap) inside).stop.offset =
        before.length + (gap.length + inside.length) := by
      simp [Span.across, Point.offset_past, Point.start]
    constructor
    · refine hsits.mono ⟨Nat.le_of_eq (congrArg Point.offset hstart), ?_⟩
      rw [hstop]
      simp only [Span.across, Point.offset_past, List.length_append, Point.start]
      omega
    · refine hrest.sit_of_le ?_ ?_
      · rw [hstart, hoffset]
        simp only [List.length_append]
        omega
      · rw [hstop]
        simp only [List.length_append]
        omega

end Parser

/-! ## Lowering -/

theorem Opening.of_gap {gap : List Char} (h : Laid gap []) : Opening gap :=
  ⟨[], h, List.forall_mem_nil _⟩

theorem Opening.paren {gap between : List Char} {t : Token} (hgap : Laid gap [])
    (hspelt : t.lexeme.Spelt) (hkind : t.kind = .lpar) (h : Opening between) :
    Opening (gap ++ (t.text.toList ++ between)) := by
  obtain ⟨ls, hlaid, hls⟩ := h
  refine ⟨t.lexeme :: ls, ?_, List.forall_mem_cons.2 ⟨hkind, hls⟩⟩
  have htoken : Laid (t.text.toList ++ between) (t.lexeme :: ls) := .token hspelt hlaid
  exact hgap.append htoken

/-- A token of a kind with one spelling is spelt so. -/
theorem Token.text_of_op {t : Token} {o : Op} (hkind : t.kind = .op o) (h : t.lexeme.Spelt) :
    t.text = o.symbol := by
  simpa [Lexeme.Spelt, Token.lexeme, hkind] using h

theorem Token.numeral_of_int {t : Token} (hkind : t.kind = .int) (h : t.lexeme.Spelt)
    (after : List Char) : Numeral t.text.toList after (Token.digitsValue t.text) := by
  have hd : t.text.toList ≠ [] ∧ ∀ c ∈ t.text.toList, c.isDigit = true := by
    simpa [Lexeme.Spelt, Token.lexeme, hkind] using h
  have hn : Numeral t.text.toList after (Token.digitsValue (String.ofList t.text.toList)) :=
    .digits hd.1 hd.2
  rwa [String.ofList_toList] at hn

namespace Parser

variable {text rest before mid : List Char} {w : Span}

theorem tokenPos_eq {t : Token} {s : Span} (h : t.span = s) : tokenPos t = some (.ofSpan s) := by
  rw [tokenPos, h]

theorem stands_negate {minus : Token} {e : Expr} {after : List Char}
    (hminus : minus.text = Op.sub.symbol) (hspan : minus.span = .across before minus.text.toList)
    (htext : text = before ++ (minus.text.toList ++ after)) (hw : minus.span.Within w)
    (he : e.Stands text w)
    (hlead : ∀ n pos, e = .literal (.int n) pos → ∃ between inside after',
      after = between ++ (inside ++ after') ∧ Opening between ∧ Numeral inside after' n) :
    (negate minus e).Stands text w := by
  rw [hminus] at htext hspan
  rw [hspan] at hw
  have hpos := tokenPos_eq hspan
  cases e with
  | literal v pos =>
    cases v with
    | int n =>
      obtain ⟨between, inside, after', rfl, hopen, hn⟩ := hlead n pos rfl
      rw [negate, hpos]
      exact Expr.stands_int htext (by decide) hw (.minus hopen hn)
    | _ =>
      rw [negate, hpos]
      · exact Expr.stands_minus he htext hw
      · simp
  | _ =>
    rw [negate, hpos]
    · exact Expr.stands_minus he htext hw
    · simp

/-- What is lowered from parts that sit within a span sits there with them. -/
theorem sits_lower {p : Production} {parts : Values Part p.rhs} (hp : p ≠ .programEmpty)
    (hw : w.On text) (hlie : AllLie text rest p.rhs parts before mid)
    (h : AllSit text w p.rhs parts) :
    Meaning.Sits text w (.non p.lhs) (lower p (some (.ofSpan w)) parts) := by
  cases p with
  | programEmpty => exact absurd rfl hp
  | programStmts =>
    refine Expr.stands_sequence (mt List.reverse_eq_nil_iff.1 h.1.1) (fun e he => h.1.2 e ?_) _
    exact List.mem_reverse.1 he
  | stmtsOne => exact ⟨List.cons_ne_nil _ _, List.forall_mem_singleton.2 h.1⟩
  | stmtsMore => exact ⟨List.cons_ne_nil _ _, List.forall_mem_cons.2 ⟨h.2.1, h.1.2⟩⟩
  | stmtIfElse => exact Expr.stands_branch hw h.2.2.1 h.2.2.2.2.1 h.2.2.2.2.2.2.1
  | stmtIf => exact Expr.stands_branch_null hw h.2.2.1 h.2.2.2.2.1
  | stmtWhile => exact Expr.stands_loop hw h.2.2.1 h.2.2.2.2.1
  | stmtFunction =>
    have hbody : Expr.Stands text w (.function parts.2.2.1.meaning parts.2.2.2.1.meaning
        (some (.ofSpan w))) :=
      Expr.stands_around hw h.2.2.2.1 rfl (fun _ _ => trivial) rfl rfl id
    exact Expr.stands_around hw hbody rfl (fun _ _ => trivial) rfl rfl id
  | stmtEmpty => exact Expr.stands_literal hw rfl trivial fun _ _ => trivial
  | bodyStmts =>
    refine Expr.stands_sequence (mt List.reverse_eq_nil_iff.1 h.2.1.1)
      (fun e he => h.2.1.2 e ?_) _
    exact List.mem_reverse.1 he
  | bodyEmpty => exact Expr.stands_literal hw rfl trivial fun _ _ => trivial
  | argsMore =>
    refine List.forall_mem_cons.2 ⟨h.1, fun e he => h.2.1 e ?_⟩
    exact List.mem_reverse.1 he
  | argsOne => exact List.forall_mem_singleton.2 h.1
  | moreArgsOne => exact List.forall_mem_singleton.2 h.2.1
  | moreArgsMore => exact List.forall_mem_cons.2 ⟨h.2.2.1, h.1⟩
  | exprVar => exact Expr.stands_around hw h.2.2.2.1 rfl (fun _ _ => trivial) rfl rfl id
  | exprAssign => exact Expr.stands_around hw h.2.2.1 rfl (fun _ _ => trivial) rfl rfl id
  | binary o =>
    obtain ⟨a, sign, b, u⟩ := parts
    obtain ⟨ha, ⟨hkind, hspelt, hin, left, after, htext, hspan⟩, hb, -⟩ := h
    have hsymbol := Token.text_of_op hkind hspelt
    show (Expr.binary o a.meaning b.meaning (tokenPos sign.meaning)).Stands text w
    rw [hsymbol] at htext hspan
    rw [hspan] at hin
    rw [tokenPos_eq hspan]
    exact Expr.stands_binary ha hb htext hin
  | negation =>
    obtain ⟨minus, e, u⟩ := parts
    obtain ⟨m, m', rfl, hminus, hrest⟩ := hlie
    obtain ⟨m₁, m₂, rfl, he, rfl⟩ := hrest
    obtain ⟨⟨hkind, hspelt, hin, -⟩, hstands, -⟩ := h
    obtain ⟨gap, -, rfl, hspan⟩ := hminus.leads
    refine stands_negate (Token.text_of_op hkind hspelt) hspan ?_ hin hstands he.leads
    rw [hminus.text_eq]
    simp
  | callArgs => exact Expr.stands_call hw h.1 h.2.2.1
  | callEmpty => exact Expr.stands_call hw h.1 (List.forall_mem_nil _)
  | atomInt =>
    obtain ⟨t, u⟩ := parts
    obtain ⟨⟨hkind, hspelt, hin, left, after, htext, hspan⟩, -⟩ := h
    show Expr.Stands text w
      (.literal (.int (Token.digitsValue (Token.text t.meaning))) (tokenPos t.meaning))
    rw [hspan] at hin
    rw [tokenPos_eq hspan]
    exact Expr.stands_int htext hspelt.text_ne_nil hin (Token.numeral_of_int hkind hspelt after)
  | atomTrue => exact Expr.stands_literal hw rfl trivial fun _ _ => trivial
  | atomFalse => exact Expr.stands_literal hw rfl trivial fun _ _ => trivial
  | atomNull => exact Expr.stands_literal hw rfl trivial fun _ _ => trivial
  | atomPrint => exact Expr.stands_around hw h.2.2.1 rfl (fun _ _ => trivial) rfl rfl id
  | atomName =>
    obtain ⟨t, u⟩ := parts
    obtain ⟨⟨-, hspelt, hin, left, after, htext, hspan⟩, -⟩ := h
    show (Expr.var (Token.text t.meaning) (tokenPos t.meaning)).Stands text w
    rw [hspan] at hin
    rw [tokenPos_eq hspan]
    exact Expr.stands_var htext hspelt.text_ne_nil hin
  | atomFunction => exact Expr.stands_around hw h.2.2.1 rfl (fun _ _ => trivial) rfl rfl id
  | atomParen => exact h.2.1
  | paramsMore => trivial
  | paramsOne => trivial
  | paramsNone => trivial
  | moreParamsOne => trivial
  | moreParamsMore => trivial
  | _ => exact h.1

/-- An expression that is passed on stands where it stood. -/
theorem leads_single {l l' : Level} {part : Part (.non (.exp l))}
    (h : AllLie text rest [.non (.exp l)] (part, ()) before mid) :
    Meaning.Leads before mid rest (.non (.exp l')) part.meaning := by
  obtain ⟨m, m', rfl, hpart, rfl⟩ := h
  have hlead : Meaning.Leads before m ([] ++ rest) (.non (.exp l')) part.meaning := hpart.leads
  simpa using hlead

theorem leads_negate {minus : Token} {e : Expr} {gap after : List Char} (hgap : Laid gap [])
    (hminus : minus.text = Op.sub.symbol)
    (hlead : ∀ n pos, e = .literal (.int n) pos → ∃ between inside after',
      after = between ++ (inside ++ after') ∧ Opening between ∧ Numeral inside after' n)
    {n : Int} {pos : Option Pos} (h : negate minus e = .literal (.int n) pos) :
    ∃ between inside after', gap ++ (minus.text.toList ++ after) = between ++ (inside ++ after') ∧
      Opening between ∧ Numeral inside after' n := by
  cases e with
  | literal v q =>
    cases v with
    | int k =>
      cases h
      obtain ⟨between, inside, after', rfl, hopen, hk⟩ := hlead k q rfl
      exact ⟨gap, ['-'], between ++ (inside ++ after'), by rw [hminus]; rfl, .of_gap hgap,
        .minus hopen hk⟩
    | _ => cases h
  | _ => cases h

/-- What is lowered starts as its parts do. -/
theorem leads_lower {p : Production} {parts : Values Part p.rhs} {pos : Option Pos}
    (hlie : AllLie text rest p.rhs parts before mid) (h : AllSit text w p.rhs parts) :
    Meaning.Leads before mid rest (.non p.lhs) (lower p pos parts) := by
  cases p with
  | exprComparison => exact leads_single hlie
  | comparisonSum => exact leads_single hlie
  | sumProduct => exact leads_single hlie
  | productUnary => exact leads_single hlie
  | unaryCall => exact leads_single hlie
  | callAtom => exact leads_single hlie
  | negation =>
    intro n q hn
    obtain ⟨minus, e, u⟩ := parts
    obtain ⟨m, m', rfl, hminus, hrest⟩ := hlie
    obtain ⟨m₁, m₂, rfl, he, rfl⟩ := hrest
    obtain ⟨⟨hkind, hspelt, -⟩, -⟩ := h
    obtain ⟨gap, hgap, rfl, -⟩ := hminus.leads
    obtain ⟨between, inside, after, heq, hopen, hnumeral⟩ :=
      leads_negate hgap (Token.text_of_op hkind hspelt) he.leads hn
    exact ⟨between, inside, after, by rw [← heq]; simp, hopen, hnumeral⟩
  | atomInt =>
    intro n q hn
    obtain ⟨t, u⟩ := parts
    obtain ⟨m, m', rfl, ht, rfl⟩ := hlie
    obtain ⟨⟨hkind, hspelt, -⟩, -⟩ := h
    obtain ⟨gap, hgap, rfl, -⟩ := ht.leads
    cases hn
    exact ⟨gap, _, rest, by simp, .of_gap hgap, Token.numeral_of_int hkind hspelt rest⟩
  | atomParen =>
    intro n q hn
    obtain ⟨l, e, r, u⟩ := parts
    obtain ⟨m, m', rfl, hl, hrest⟩ := hlie
    obtain ⟨m₁, m₂, rfl, he, -⟩ := hrest
    obtain ⟨⟨hkind, hspelt, -⟩, -⟩ := h
    obtain ⟨gap, hgap, rfl, -⟩ := hl.leads
    obtain ⟨between, inside, after, heq, hopen, hnumeral⟩ := he.leads n q hn
    have hparen := Opening.paren hgap hspelt hkind hopen
    refine ⟨_, inside, after, ?_, hparen, hnumeral⟩
    simp only [List.append_assoc] at heq ⊢
    rw [heq]
  | exprVar | exprAssign | binary o | callArgs | callEmpty | atomTrue | atomFalse | atomNull
  | atomPrint | atomName | atomFunction =>
    intro n q hn
    cases hn
  | _ => trivial

end Parser

/-! ## Rows of tokens and what is lowered from them -/

/-- The tokens of a part, in order. -/
def collecting : Algebra fun _ => List Token where
  leaf t := [t]
  node p parts := parts.contents (fun _ ts => ts) p.rhs

theorem feed_collecting (fuel : Nat) {stack : Stack fun _ => List Token} (t : Token)
    (hl : stack.Linked) :
    (feed collecting.node fuel stack t.kind (collecting.leaf t)).Carries (fun _ ts => ts) stack
      [t] :=
  feed_carries (fun _ ts => ts) (fun _ _ => rfl) fuel (collecting.leaf t) hl

theorem collected_of_steps {bound : Nat} {text : List Char}
    {c : Parser.Config fun _ => List Token}
    (h : Relation.ReflTransGen (Parser.Step collecting bound) (.start _ text) c) :
    c.stack.Linked ∧ c.stack.contents (fun _ ts => ts) = c.tokens.reverse := by
  induction h with
  | refl => exact ⟨trivial, rfl⟩
  | tail _ hstep ih =>
    cases hstep with
    | gap => exact ih
    | @read cursor behind stack stack' tokens t _ hf =>
      have hcarries := feed_collecting bound t ih.1
      rw [hf] at hcarries
      refine ⟨hcarries.1, ?_⟩
      rw [hcarries.2, ih.2, List.reverse_cons]

/-- The parser collects the tokens that it reads. -/
theorem collecting_eq {text : List Char} {ts tokens : List Token}
    (h : Parser.scan collecting text = .ok (ts, tokens)) : ts = tokens := by
  obtain ⟨c, hsteps, -, rfl, hf⟩ := Parser.steps_of_scan h
  obtain ⟨hlinked, hcontents⟩ := collected_of_steps hsteps
  have hcarries := feed_collecting (16 * (text.length + 2)) (.ending c.tokens.head?) hlinked
  have hfinished : feed collecting.node (16 * (text.length + 2)) c.stack
      (Token.ending c.tokens.head?).kind (collecting.leaf (.ending c.tokens.head?)) =
        .finished ts := hf
  rw [hfinished] at hcarries
  exact hcarries.trans hcontents

/-- The tree of an empty program. -/
def Meaning.Blank : (X : Symbol) → Meaning X → Prop
  | .non .program, (e : Expr) => e = .literal .null none
  | _, _ => False

theorem Meaning.Blank.eq_program {X : Symbol} {m : Meaning X} (h : m.Blank) :
    X = .non .program := by
  cases X with
  | term k => exact False.elim h
  | non A =>
    cases A with
    | program => rfl
    | _ => exact False.elim h

/-- What is lowered from a row of tokens lies there; no tokens make an empty program. -/
def Part.LiesOn (text : List Char) (X : Symbol) (part : Part X) (ts : List Token) : Prop :=
  ∀ before mid rest, text = before ++ (mid ++ rest) → Row before mid ts →
    (ts = [] ∧ part.meaning.Blank) ∨ part.Lies text before mid rest

theorem ValuesAlike.allLie {text rest before mid : List Char} {word : List Symbol}
    {parts : Values Part word} {tss : Values (fun _ => List Token) word}
    (h : ValuesAlike (Part.LiesOn text) word parts tss) (hprog : Symbol.non .program ∉ word)
    (htext : text = before ++ (mid ++ rest))
    (hrow : Row before mid (tss.contents (fun _ ts => ts) word)) :
    Parser.AllLie text rest word parts before mid := by
  induction word generalizing before mid with
  | nil =>
    cases hrow
    rfl
  | cons X word ih =>
    obtain ⟨m, m', rfl, hm, hm'⟩ := hrow.split
    refine ⟨m, m', rfl, ?_, ?_⟩
    · rcases h.1 before m (m' ++ rest) (by simpa using htext) hm with ⟨-, hblank⟩ | hlies
      · exact absurd (hblank.eq_program ▸ List.mem_cons_self) hprog
      · exact hlies
    · exact ih h.2 (fun hmem => hprog (List.mem_cons_of_mem _ hmem)) (by simpa using htext) hm'

theorem lowering_collecting_lies (text : List Char) :
    Alike Parser.lowering collecting (Part.LiesOn text) where
  leaf t before mid rest htext hrow := by
    refine .inr ?_
    cases hrow with
    | @cons _ gap mid _ _ hgap hspelt hspan hrest =>
      cases hrest
      rw [List.append_nil] at htext ⊢
      have hplace : text = (before ++ gap) ++ (t.text.toList ++ rest) := by simpa using htext
      refine ⟨htext, ⟨gap, t.text.toList, rfl, hspelt.text_ne_nil, congrArg some hspan, ?_⟩,
        ⟨gap, hgap, rfl, hspan⟩⟩
      exact ⟨rfl, hspelt, hspan ▸ .refl _, before ++ gap, rest, hplace, hspan⟩
  node p parts tss h before mid rest htext hrow := by
    by_cases hp : p = .programEmpty
    · subst hp
      exact .inl ⟨rfl, rfl⟩
    · refine .inr ?_
      have hlie := h.allLie p.program_not_mem_rhs htext hrow
      obtain ⟨gap, inside, hmid, hne, hspan⟩ := hlie.span (Production.rhs_ne_nil hp)
      have hon : (Span.across (before ++ gap) inside).On text :=
        ⟨before ++ gap, inside, rest, by rw [htext, hmid]; simp, hne, rfl⟩
      have hsit := hlie.sit hspan
      have hnode : (Parser.lowering.node p parts).meaning =
          Parser.lower p (some (.ofSpan (.across (before ++ gap) inside))) parts := by
        show Parser.lower p ((Parser.span? p.rhs parts).map .ofSpan) parts = _
        rw [hspan]
        rfl
      refine ⟨htext, ⟨gap, inside, hmid, hne, hspan, ?_⟩, ?_⟩
      · rw [hnode]
        exact Parser.sits_lower hp hon hlie hsit
      · rw [hnode]
        exact Parser.leads_lower hlie hsit

/-- A program is blank or its tree stands on its text. -/
theorem parse_stands {text : String} {e : Expr} (h : parse text = .ok e) :
    (Laid text.toList [] ∧ e = .literal .null none) ∨ ∃ w, e.Stands text.toList w := by
  obtain ⟨tokens, hp⟩ := parse_eq_ok.1 h
  have halike := Parser.scan_alike (lowering_collecting_lies text.toList) text.toList
  obtain ⟨part, hscan, rfl⟩ := Parser.scan_of_parseTokens hp
  rw [hscan] at halike
  obtain ⟨ts, hcollect, hlies⟩ := halike.of_ok
  obtain rfl := collecting_eq hcollect
  have hplaced := Parser.placed_of_scan hscan
  obtain ⟨mid, gap, htext, -, hrow⟩ := hplaced.row
  rcases hlies [] mid gap htext hrow with ⟨rfl, hblank⟩ | hlies
  · exact .inl ⟨hplaced.laid, hblank⟩
  · obtain ⟨g, inside, -, -, -, hsits⟩ := hlies.spans
    exact .inr ⟨_, hsits⟩

/-- The positions of a program's nodes are those of the text. Only the zero that a minus sign
subtracts from, the null of a branch without `else` and the null of an empty program have none. The
text at a node's position is not empty; at a variable it is the name, at an operation the sign, at an
integer its digits or the minus sign in front of them. What is in a node that is more than an
operation or a sequence lies within its position. -/
theorem parse_positions (text : String) (e : Expr) (h : parse text = .ok e) :
    (e.pos? = none → e = .literal .null none ∧ Laid text.toList []) ∧
    ∀ n ∈ e.nodes,
      (∀ c ∈ n.written, c.pos?.isSome = true) ∧
      ∀ pos, n.pos? = some pos →
        (∃ before inside after, text.toList = before ++ (inside ++ after) ∧
          pos = .between (.behind before) (.behind (before ++ inside)) ∧
          (Place.behind before).Before (.behind (before ++ inside)) ∧
          n.Reads inside after) ∧
        (n.isCompound = true → ∀ m ∈ n.nodes, ∀ q, m.pos? = some q → q.Within pos) := by
  rcases parse_stands h with ⟨hlaid, rfl⟩ | ⟨w, hstands⟩
  · refine ⟨fun _ => ⟨rfl, hlaid⟩, fun n hn => ?_⟩
    obtain rfl : n = .literal .null none := by simpa [Expr.nodes, Value.nodes] using hn
    refine ⟨List.forall_mem_nil _, fun pos hpos => ?_⟩
    cases hpos
  · refine ⟨fun hnone => ?_, fun n hn => ?_⟩
    · have hpos := hstands.pos
      rw [hnone] at hpos
      cases hpos
    · have hsits := hstands.rests.nodes n hn
      refine ⟨hsits.written, fun pos hpos => ⟨?_, fun hcompound m hm q hq => ?_⟩⟩
      · obtain ⟨before, inside, after, htext, hne, rfl, -, hreads⟩ := hsits.placed pos hpos
        exact ⟨before, inside, after, htext, Pos.ofSpan_across before inside,
          Place.behind_before before hne, hreads⟩
      · obtain ⟨u, rfl, hon, hcovers⟩ := hsits.covers hcompound pos hpos
        obtain ⟨s, rfl, hson, hin⟩ := hcovers m hm q hq
        exact hin.pos hson hon

theorem parse_positions_minus :
    parse "if (a)\n-x;" = .ok (.branch (.var "a" (some ⟨some 1, some 5, some 1, some 6⟩))
      (.binary .sub (.literal (.int 0) none) (.var "x" (some ⟨some 2, some 2, some 2, some 3⟩))
        (some ⟨some 2, some 1, some 2, some 2⟩))
      (.literal .null none) (some ⟨some 1, some 1, some 2, some 4⟩)) ∧
    (∃ before after, "if (a)\n-x;".toList = before ++ (['-'] ++ after) ∧
      (⟨some 2, some 1, some 2, some 2⟩ : Pos) =
        .between (.behind before) (.behind (before ++ ['-']))) ∧
    Pos.Within ⟨some 2, some 2, some 2, some 3⟩ ⟨some 1, some 1, some 2, some 4⟩ := by
  have h : parse "if (a)\n-x;" = .ok (.branch (.var "a" (some ⟨some 1, some 5, some 1, some 6⟩))
      (.binary .sub (.literal (.int 0) none) (.var "x" (some ⟨some 2, some 2, some 2, some 3⟩))
        (some ⟨some 2, some 1, some 2, some 2⟩))
      (.literal .null none) (some ⟨some 1, some 1, some 2, some 4⟩)) := by rfl
  obtain ⟨-, hnodes⟩ := parse_positions _ _ h
  obtain ⟨-, hbranch⟩ := hnodes _ List.mem_cons_self
  obtain ⟨-, hminus⟩ := hnodes (.binary .sub (.literal (.int 0) none)
    (.var "x" (some ⟨some 2, some 2, some 2, some 3⟩)) (some ⟨some 2, some 1, some 2, some 2⟩))
    (by simp [Expr.nodes])
  obtain ⟨⟨before, inside, after, htext, hpos, -, hreads⟩, -⟩ := hminus _ rfl
  obtain rfl : inside = ['-'] := hreads
  refine ⟨h, ⟨before, after, htext, hpos⟩, ?_⟩
  exact (hbranch _ rfl).2 rfl (.var "x" (some ⟨some 2, some 2, some 2, some 3⟩))
    (by simp [Expr.nodes]) _ rfl

end Featherweight
