import Featherweight.Proofs.Items
import Featherweight.Proofs.Pairing
import Featherweight.Proofs.Soundness

/-!
# Featherweight.Proofs.Viable

What the machine has read can always be completed, and it takes a terminal only if that stays so.

* `Sentence word` : the word of terminals is derived from a program.
* `Viable word` : the word is the beginning of a sentence.
* `Stack.Linked.viable` : what lies on a linked stack is viable.
* `Stack.Linked.expected_ne_nil` and `Stack.Linked.of_takes` : the terminals that a stack would
  take are some, and each of them keeps it viable.
* `Stack.after?` : the machine reads a word without looking at the texts of the tokens.
* `feed_read_of_viable` and `feed_finished_of_sentence` : it refuses nothing that is viable, nor the
  end of a sentence.
-/

namespace Featherweight

def Sentence (word : List Terminal) : Prop :=
  ∃ d : Tree (.non .program), d.yield.map Lexeme.kind = word

def Viable (word : List Terminal) : Prop := ∃ more, Sentence (word ++ more)

/-! ## Completing what has been read -/

/-- Every symbol derives something. -/
theorem Tree.nonempty (X : Symbol) : Nonempty (Tree X) := by
  have atom : Tree (.non (.exp .atom)) := .node .atomNull (.cons (.leaf _ "") .nil)
  have call : Tree (.non (.exp .call)) := .node .callAtom (.cons atom .nil)
  have unary : Tree (.non (.exp .unary)) := .node .unaryCall (.cons call .nil)
  have product : Tree (.non (.exp .product)) := .node .productUnary (.cons unary .nil)
  have sum : Tree (.non (.exp .sum)) := .node .sumProduct (.cons product .nil)
  have comparison : Tree (.non (.exp .comparison)) := .node .comparisonSum (.cons sum .nil)
  have expr : Tree (.non (.exp .expr)) := .node .exprComparison (.cons comparison .nil)
  have stmt : Tree (.non .stmt) := .node .stmtEmpty (.cons (.leaf _ "") .nil)
  have comma : Tree (.term .comma) := .leaf _ ""
  cases X with
  | term t => exact ⟨.leaf t ""⟩
  | non A =>
    cases A with
    | program => exact ⟨.node .programEmpty .nil⟩
    | stmts => exact ⟨.node .stmtsOne (.cons stmt .nil)⟩
    | stmt => exact ⟨stmt⟩
    | body => exact ⟨.node .bodyEmpty (.cons (.leaf _ "") (.cons (.leaf _ "") .nil))⟩
    | params => exact ⟨.node .paramsNone (.cons (.leaf _ "") (.cons (.leaf _ "") .nil))⟩
    | moreParams => exact ⟨.node .moreParamsOne (.cons comma (.cons (.leaf _ "") .nil))⟩
    | args => exact ⟨.node .argsOne (.cons expr .nil)⟩
    | moreArgs => exact ⟨.node .moreArgsOne (.cons comma (.cons expr .nil))⟩
    | exp l =>
      cases l with
      | expr => exact ⟨expr⟩
      | comparison => exact ⟨comparison⟩
      | sum => exact ⟨sum⟩
      | product => exact ⟨product⟩
      | unary => exact ⟨unary⟩
      | call => exact ⟨call⟩
      | atom => exact ⟨atom⟩

theorem Forest.nonempty (word : List Symbol) : Nonempty (Forest word) := by
  induction word with
  | nil => exact ⟨.nil⟩
  | cons X word ih =>
    obtain ⟨head⟩ := Tree.nonempty X
    obtain ⟨tail⟩ := ih
    exact ⟨.cons head tail⟩

namespace Stack

/-- The parts of a word on top of a stack; no state is entered for them. -/
def onto : {word : List Symbol} → Forest word → Stack Tree → Stack Tree
  | _, .nil, stack => stack
  | _, @Forest.cons X _ head tail, stack => onto tail (⟨.start, X, head⟩ :: stack)

theorem pop?_onto {word : List Symbol} (parts : Forest word) (stack : Stack Tree) :
    (onto parts stack).pop? word = some (parts.toValues, stack) := by
  induction word generalizing stack with
  | nil =>
    cases parts
    rfl
  | cons X word ih =>
    cases parts with
    | cons head tail => exact pop?_cons_of_pop? (ih tail _)

theorem yield_onto {word : List Symbol} (parts : Forest word) (stack : Stack Tree) :
    (onto parts stack).yield = stack.yield ++ parts.yield := by
  rw [pop?_eq_some (pop?_onto parts stack), Forest.ofValues_toValues]

theorem Linked.viable {stack : Stack Tree} (hl : stack.Linked) :
    Viable (stack.yield.map Lexeme.kind) := by
  suffices h : ∃ (more : List Lexeme) (d : Tree (.non .program)), d.yield = stack.yield ++ more by
    obtain ⟨more, d, hd⟩ := h
    exact ⟨more.map Lexeme.kind, d, by rw [hd, List.map_append]⟩
  -- By induction on the weight: a production in progress is completed with anything that fits, and
  -- what comes of it is lighter.
  induction hw : stack.weight using Nat.strong_induction_on generalizing stack with
  | _ w ih =>
    subst hw
    by_cases hstart : stack.state = .start
    · obtain rfl := hl.eq_nil_of_start hstart
      exact ⟨[], .node .programEmpty .nil, rfl⟩
    · obtain ⟨p, n, hhas, hlt⟩ := State.exists_lighter hstart
      obtain ⟨rest⟩ := Forest.nonempty (p.rhs.drop (n + 1))
      have hrest := pop?_onto rest stack
      obtain ⟨values, below, hpop, hbelow, hcome⟩ := hl.pop?_rhs hrest hhas
      have hyield : stack.yield ++ rest.yield = below.yield ++ (growing.node p values).yield := by
        rw [← yield_onto]
        exact pop?_eq_some hpop
      by_cases hprog : p.lhs = .program
      · obtain rfl := hbelow.eq_nil_of_start (State.eq_start_of_has hcome hprog)
        exact ⟨rest.yield, hprog ▸ growing.node p values, by rw [Tree.yield_cast, hyield]; rfl⟩
      · obtain ⟨s, hm⟩ := State.move?_of_has hcome hprog
        have hlighter : weight (⟨s, .non p.lhs, growing.node p values⟩ :: below) < stack.weight := by
          have hover := weight_of_pop? hrest
          have hwhole := weight_of_pop? hpop
          have hsplit := Symbol.weights_append (p.rhs.take (n + 1)) (p.rhs.drop (n + 1))
          rw [List.take_append_drop] at hsplit
          rw [weight_cons]
          omega
        have hlinked : Linked (⟨s, .non p.lhs, growing.node p values⟩ :: below) := ⟨hm, hbelow⟩
        obtain ⟨more, d, hd⟩ := ih _ hlighter hlinked rfl
        refine ⟨rest.yield ++ more, d, ?_⟩
        rw [hd, ← List.append_assoc, hyield]
        rfl

end Stack

/-! ## Without values -/

def Reply.erase {V : Symbol → Type} : Reply V → Reply fun _ => Unit
  | .read stack => .read stack.erase
  | .finished _ => .finished ()
  | .refused stack => .refused stack.erase

section Erase

variable {V : Symbol → Type}

theorem Stack.erase_alike (stack : Stack V) : StackAlike (fun _ _ _ => True) stack.erase stack := by
  induction stack with
  | nil => exact .nil
  | cons e below ih => exact .cons trivial ih

theorem StackAlike.eq_erase {a : Stack fun _ => Unit} {b : Stack V}
    (h : StackAlike (fun _ _ _ => True) a b) : a = b.erase := by
  induction h with
  | nil => rfl
  | cons _ _ ih =>
    rw [ih]
    rfl

@[simp]
theorem Stack.weight_erase (stack : Stack V) : stack.erase.weight = stack.weight := by
  simp only [weight, erase, List.map_map]
  rfl

/-- The machine does the same with a stack without its values. -/
theorem feed_erase (build : Build V) (fuel : Nat) (stack : Stack V) (t : Terminal)
    (v : V (.term t)) :
    feed (fun _ _ => ()) fuel stack.erase t () = (feed build fuel stack t v).erase := by
  have h : ReplyAlike (fun _ _ _ => True) (feed (fun _ _ => ()) fuel stack.erase t ())
      (feed build fuel stack t v) :=
    feed_alike (fun _ _ _ _ => trivial) stack.erase_alike trivial
  generalize feed (fun _ _ => ()) fuel stack.erase t () = x at h ⊢
  generalize feed build fuel stack t v = y at h ⊢
  cases h with
  | read hs => rw [hs.eq_erase, Reply.erase]
  | finished => rfl
  | refused hs => rw [hs.eq_erase, Reply.erase]

theorem Stack.takes_iff (build : Build V) {fuel : Nat} {stack : Stack V} {t : Terminal}
    (v : V (.term t)) :
    stack.takes fuel t = true ↔ ∀ s, feed build fuel stack t v ≠ .refused s := by
  rw [takes, feed_erase build fuel stack t v]
  cases feed build fuel stack t v <;> simp [Reply.erase]

end Erase

/-! ## The terminals that a stack takes -/

theorem State.move?_eof (s : State) : s.move? (.term .eof) = none := by
  have hall := forall_of_all (q := fun s => s.move? (.term .eof) = none) (by decide) s
  simpa using hall

namespace Stack

variable {fuel : Nat} {stack stack' : Stack Tree} {t : Terminal} {v : Tree (.term t)}

/-- A terminal other than the end that is taken continues what has been read, and the end is taken
only behind a sentence. -/
theorem Linked.of_takes (hl : stack.Linked) (h : stack.takes fuel t = true) :
    (t = .eof → Sentence (stack.yield.map Lexeme.kind)) ∧
      (t ≠ .eof → Viable (stack.yield.map Lexeme.kind ++ [t])) := by
  have hs := feed_growing fuel t "" hl
  have hr := (takes_iff growing.node (.leaf t "")).1 h
  cases hf : Featherweight.feed growing.node fuel stack t (.leaf t "") with
  | refused s => exact absurd hf (hr s)
  | finished d =>
    rw [hf] at hs
    exact ⟨fun _ => ⟨d, by rw [hs]⟩, fun hne => absurd (feed_finished_eof hf) hne⟩
  | read stack' =>
    rw [hf] at hs
    obtain ⟨hl', hyield⟩ := hs
    refine ⟨fun heof => ?_, fun _ => by simpa [hyield] using hl'.viable⟩
    obtain ⟨s, below, -, hm⟩ := feed_read hf
    rw [heof, State.move?_eof] at hm
    cases hm

/-- A linked stack takes some terminal. -/
theorem Linked.exists_takes (hl : stack.Linked) (hw : stack.weight < fuel) :
    ∃ t, stack.takes fuel t = true := by
  suffices h : ∃ t, ∀ s, Featherweight.feed growing.node fuel stack t (.leaf t "") ≠ .refused s by
    obtain ⟨t, ht⟩ := h
    exact ⟨t, (takes_iff growing.node (.leaf t "")).2 ht⟩
  induction fuel generalizing stack with
  | zero => exact absurd hw (Nat.not_lt_zero _)
  | succ fuel ih =>
    rcases stack.state.reads_or_done with ⟨t, s, hm⟩ | ⟨p, hdone, hfollow⟩
    · refine ⟨t, fun s' hf => ?_⟩
      rw [feed_shift (State.action?_of_move? hm)] at hf
      cases hf
    · obtain ⟨values, below, hpop, hbelow, hcome⟩ := hl.pop?_of_done? hdone
      by_cases hprog : p.lhs = .program
      · have heof : Terminal.eof ∈ p.lhs.follow := by
          rw [hprog]
          exact List.mem_singleton_self _
        refine ⟨.eof, fun s' hf => ?_⟩
        rw [feed_accept (hfollow _ heof) hpop hprog] at hf
        cases hf
      · obtain ⟨s, hm⟩ := State.move?_of_has hcome hprog
        have hlt := weight_reduce_lt hpop hprog s (growing.node p values)
        have hl' : Linked (⟨s, .non p.lhs, growing.node p values⟩ :: below) := ⟨hm, hbelow⟩
        obtain ⟨t, ht⟩ := ih hl' (by omega)
        obtain ⟨k, rfl⟩ : ∃ k, fuel = k + 1 := ⟨fuel - 1, by omega⟩
        -- What comes after the nonterminal may follow it, so the production is complete before it.
        have hadmits : s.admits t = true := by
          rcases feed_cases ht with ⟨s', ha⟩ | ⟨q, values', below', ha, -⟩
          · have ha : s.action? t = _ := ha
            simp [State.admits, ha]
          · have ha : s.action? t = _ := ha
            simp [State.admits, ha]
        have ha := hfollow t (State.mem_follow_of_admits hm hadmits)
        exact ⟨t, by rwa [feed_reduce ha hpop hprog hm]⟩

theorem Linked.expected_ne_nil (hl : stack.Linked) (hw : stack.weight < fuel) :
    stack.expected fuel ≠ [] := by
  obtain ⟨t, ht⟩ := hl.exists_takes hw
  exact List.ne_nil_of_mem (List.mem_filter.2 ⟨Terminal.mem_all t, ht⟩)

/-- Productions that are taken together before a refusal leave the tokens on the stack. -/
theorem Linked.of_feed_refused (hl : stack.Linked)
    (h : Featherweight.feed growing.node fuel stack t v = .refused stack') :
    stack'.Linked ∧ stack'.yield = stack.yield ∧ stack'.weight ≤ stack.weight := by
  induction fuel generalizing stack with
  | zero =>
    cases h
    exact ⟨hl, rfl, Nat.le_refl _⟩
  | succ fuel ih =>
    rcases feed_refused_cases h with rfl | ⟨p, values, below, s, hpop, hprog, hm, h⟩
    · exact ⟨hl, rfl, Nat.le_refl _⟩
    · have hl' : Linked (⟨s, .non p.lhs, growing.node p values⟩ :: below) := ⟨hm, hl.pop? hpop⟩
      obtain ⟨hlinked, hyield, hle⟩ := ih hl' h
      have hlt := weight_reduce_lt hpop hprog s (growing.node p values)
      exact ⟨hlinked, hyield.trans (pop?_eq_some hpop).symm, by omega⟩

end Stack

/-! ## Reading a word -/

/-- The stack behind a word, if all of it is read. -/
def Stack.after? (fuel : Nat) :
    List Terminal → (Stack fun _ => Unit) → Option (Stack fun _ => Unit)
  | [], stack => some stack
  | t :: word, stack =>
    match feed (fun _ _ => ()) fuel stack t () with
    | .read stack' => after? fuel word stack'
    | _ => none

namespace Stack

variable {fuel fuel' : Nat} {word : List Terminal} {stack stack' : Stack fun _ => Unit}

theorem after?_cons {t : Terminal} (h : feed (fun _ _ => ()) fuel stack t () = .read stack') :
    after? fuel (t :: word) stack = after? fuel word stack' := by
  rw [after?, h]

theorem after?_cons_eq_some {t : Terminal} {last : Stack fun _ => Unit}
    (h : after? fuel (t :: word) stack = some last) :
    ∃ stack', feed (fun _ _ => ()) fuel stack t () = .read stack' ∧
      after? fuel word stack' = some last := by
  rw [after?] at h
  split at h
  · rename_i stack' hf
    exact ⟨stack', hf, h⟩
  · cases h

theorem after?_concat {t : Terminal} {last : Stack fun _ => Unit}
    (h : after? fuel word stack = some stack')
    (hf : feed (fun _ _ => ()) fuel stack' t () = .read last) :
    after? fuel (word ++ [t]) stack = some last := by
  induction word generalizing stack with
  | nil =>
    cases h
    exact after?_cons hf
  | cons u word ih =>
    obtain ⟨next, hu, hnext⟩ := after?_cons_eq_some h
    rw [List.cons_append, after?_cons hu]
    exact ih hnext

theorem weight_of_after? (h : after? fuel word stack = some stack') :
    stack'.weight ≤ stack.weight + 12 * word.length := by
  induction word generalizing stack with
  | nil =>
    cases h
    exact Nat.le_refl _
  | cons t word ih =>
    obtain ⟨next, hf, hnext⟩ := after?_cons_eq_some h
    have hle := weight_of_feed_read hf
    have hle' := ih hnext
    rw [List.length_cons]
    omega

/-- With fuel enough for both, the fuel does not matter. -/
theorem after?_enough (hw : stack.weight + 12 * word.length < fuel)
    (hw' : stack.weight + 12 * word.length < fuel') (h : after? fuel word stack = some stack') :
    after? fuel' word stack = some stack' := by
  induction word generalizing stack with
  | nil => exact h
  | cons t word ih =>
    obtain ⟨next, hf, hnext⟩ := after?_cons_eq_some h
    have hle := weight_of_feed_read hf
    rw [List.length_cons] at hw hw'
    have hf' : feed (fun _ _ => ()) fuel' stack t () = .read next :=
      (feed_enough (by omega) (by omega)).trans hf
    rw [after?_cons hf']
    exact ih (by omega) (by omega) hnext

end Stack

/-- The machine reads the beginning of what drives it. -/
theorem Drives.after? {n fuel : Nat} {stack : Stack Tree} {before rest : List Lexeme}
    {d : Tree (.non .program)} (h : Drives n stack (before ++ rest) d) (hn : n ≤ fuel) :
    ∃ m stack', Stack.after? fuel (before.map Lexeme.kind) stack.erase = some stack'.erase ∧
      Drives m stack' rest d ∧ m ≤ n := by
  induction before generalizing n stack with
  | nil => exact ⟨n, stack, rfl, h, Nat.le_refl _⟩
  | cons l before ih =>
    obtain ⟨m, next, hf, hd, hm⟩ := h.feed_read hn
    obtain ⟨k, stack', hafter, hd', hk⟩ := ih hd (by omega)
    refine ⟨k, stack', ?_, hd', by omega⟩
    have hread : feed (fun _ _ => ()) fuel stack.erase l.kind () = .read next.erase := by
      rw [feed_erase growing.node fuel stack l.kind (.leaf l.kind l.text), hf, Reply.erase]
    rw [List.map_cons, Stack.after?_cons hread]
    exact hafter

section Sentences

variable {bound : Nat} {word : List Terminal} {stack : Stack Tree}

/-- A stack behind the beginning of a sentence is driven by the rest of it. -/
theorem Sentence.drives {more : List Terminal} (h : Sentence (word ++ more))
    (hb : 12 * word.length < bound) (hs : Stack.after? bound word [] = some stack.erase) :
    ∃ fuel n stack' rest d, stack'.erase = stack.erase ∧ Drives n stack' rest d ∧ n ≤ fuel ∧
      12 * word.length < fuel ∧ rest.map Lexeme.kind = more := by
  obtain ⟨d, hd⟩ := h
  obtain ⟨d', hpaired, hyield⟩ := d.exists_paired
  rw [← hyield] at hd
  obtain ⟨before, rest, hsplit, rfl, rfl⟩ := List.map_eq_append_iff.1 hd
  have hdrives := drives_yield d' hpaired
  rw [hsplit] at hdrives
  let fuel := d'.steps + 12 * (before.map Lexeme.kind).length + 1
  have hsteps : d'.steps ≤ fuel := by omega
  obtain ⟨n, stack', hafter, hrest, hn⟩ := hdrives.after? hsteps
  have hempty : Stack.weight ([] : Stack fun _ => Unit) = 0 := Stack.weight_nil
  have hsame : Stack.after? bound (before.map Lexeme.kind) [] = some stack'.erase :=
    Stack.after?_enough (by omega) (by omega) hafter
  rw [hs] at hsame
  exact ⟨fuel, n, stack', rest, d', (Option.some.inj hsame).symm, hrest, by omega, by omega, rfl⟩

/-- With the fuel that the tokens on a stack call for, its answer is that with any more. -/
theorem feed_erase_enough (hb : 12 * word.length < bound)
    (hs : Stack.after? bound word [] = some stack.erase) {fuel : Nat} (hf : 12 * word.length < fuel)
    (t : Terminal) (v : Tree (.term t)) :
    feed (fun _ _ => ()) fuel stack.erase t () = (feed growing.node bound stack t v).erase := by
  have hw := Stack.weight_of_after? hs
  rw [Stack.weight_nil] at hw
  rw [← feed_erase]
  exact feed_enough (by omega) (by omega)

/-- What continues a beginning of a sentence is read. -/
theorem feed_read_of_viable {t : Terminal} (h : Viable (word ++ [t])) (hb : 12 * word.length < bound)
    (hs : Stack.after? bound word [] = some stack.erase) (v : Tree (.term t)) :
    ∃ stack', feed growing.node bound stack t v = .read stack' := by
  obtain ⟨more, h⟩ := h
  rw [List.append_assoc] at h
  obtain ⟨fuel, n, stack', rest, d, herase, hd, hn, hfuel, hrest⟩ := h.drives hb hs
  obtain ⟨l, rest, rfl, rfl, -⟩ := List.map_eq_cons_iff.1 hrest
  obtain ⟨m, next, hread, -⟩ := hd.feed_read hn
  have hsame := feed_erase_enough hb hs hfuel l.kind v
  rw [← herase, feed_erase growing.node fuel stack' l.kind (.leaf l.kind l.text), hread] at hsame
  cases hf : feed growing.node bound stack l.kind v with
  | read s => exact ⟨s, rfl⟩
  | finished _ =>
    rw [hf] at hsame
    cases hsame
  | refused _ =>
    rw [hf] at hsame
    cases hsame

/-- The end is taken behind a sentence. -/
theorem feed_finished_of_sentence (h : Sentence word) (hb : 12 * word.length < bound)
    (hs : Stack.after? bound word [] = some stack.erase) (v : Tree (.term .eof)) :
    ∃ d, feed growing.node bound stack .eof v = .finished d := by
  rw [← List.append_nil word] at h
  obtain ⟨fuel, n, stack', rest, d, herase, hd, hn, hfuel, hrest⟩ := h.drives hb hs
  obtain rfl := List.map_eq_nil_iff.1 hrest
  have hfinished := hd.feed_finished hn v
  have hsame := feed_erase_enough hb hs hfuel .eof v
  rw [← herase, feed_erase growing.node fuel stack' .eof v, hfinished] at hsame
  cases hf : feed growing.node bound stack .eof v with
  | finished d => exact ⟨d, rfl⟩
  | read _ =>
    rw [hf] at hsame
    cases hsame
  | refused _ =>
    rw [hf] at hsame
    cases hsame

end Sentences

end Featherweight
