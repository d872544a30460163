import Featherweight.Cause

/-!
# Featherweight.Store

Scope frames. A `Frame` binds names in the order in which they were first bound and may have an
enclosing frame, which is always an older one. The `Store` holds every frame ever made.

* `Store.chain` is a frame with the frames around it, innermost first.
* `Store.resolve`, `Store.set` and `Store.update` read and write variables.
* `Store.sink?` and `Store.source?` are found on the chain as well.
-/

namespace Featherweight

/-- Receivers of printed values are numbered by the embedding program. -/
abbrev SinkId : Type := Nat

structure Frame where
  parent : Option FrameId
  vars : List (String × Value)
  sink : Option SinkId
  /-- The program text that was last run in this frame. -/
  source : Option String
  /-- How many closures have been made in this frame. -/
  born : Nat

/-- Bind a name: a name that is bound keeps its place. -/
def bindIn (x : String) (v : Value) : List (String × Value) → List (String × Value)
  | [] => [(x, v)]
  | (y, w) :: rest => if y = x then (y, v) :: rest else (y, w) :: bindIn x v rest

/-- Reading after binding. -/
theorem lookup_bindIn (x : String) (v : Value) (vars : List (String × Value)) (y : String) :
    (bindIn x v vars).lookup y = if y = x then some v else vars.lookup y := by
  induction vars with
  | nil =>
    by_cases h : y = x
    · simp [bindIn, h]
    · simp [bindIn, List.lookup_cons, beq_false_of_ne h, h]
  | cons p rest ih =>
    obtain ⟨z, w⟩ := p
    by_cases hz : z = x
    · subst hz
      by_cases h : y = z
      · simp [bindIn, h]
      · simp [bindIn, List.lookup_cons, beq_false_of_ne h, h]
    · by_cases hy : y = z
      · subst hy
        simp [bindIn, hz]
      · simp [bindIn, List.lookup_cons, beq_false_of_ne hy, hz, ih]

/-- A new name comes last, and the names before it keep their order. -/
theorem map_fst_bindIn (x : String) (v : Value) (vars : List (String × Value)) :
    (bindIn x v vars).map Prod.fst =
      if x ∈ vars.map Prod.fst then vars.map Prod.fst else vars.map Prod.fst ++ [x] := by
  induction vars with
  | nil => simp [bindIn]
  | cons p rest ih =>
    obtain ⟨z, w⟩ := p
    by_cases hz : z = x
    · simp [bindIn, hz]
    · have hx : ¬ x = z := fun h => hz h.symm
      by_cases hm : x ∈ rest.map Prod.fst <;> simp_all [bindIn]

namespace Frame

def fresh (parent : Option FrameId) (sink : Option SinkId) (source : Option String) : Frame :=
  ⟨parent, [], sink, source, 0⟩

def get? (f : Frame) (x : String) : Option Value := f.vars.lookup x

def set (f : Frame) (x : String) (v : Value) : Frame := { f with vars := bindIn x v f.vars }

def names (f : Frame) : List String := f.vars.map Prod.fst

theorem get?_set (f : Frame) (x : String) (v : Value) (y : String) :
    (f.set x v).get? y = if y = x then some v else f.get? y :=
  lookup_bindIn x v f.vars y

end Frame

abbrev Store : Type := Array Frame

namespace Store

/-- At most `n` frames from `f` outwards. -/
def chainFrom (s : Store) : Nat → FrameId → List FrameId
  | 0, _ => []
  | n + 1, f =>
    match s[f]? with
    | none => []
    | some frame =>
      f :: match frame.parent with
        | some p => chainFrom s n p
        | none => []

/-- A frame and the frames around it. The frames around it are older, so there are at most `f`. -/
def chain (s : Store) (f : FrameId) : List FrameId := s.chainFrom (f + 1) f

def root (s : Store) (f : FrameId) : FrameId := (s.chain f).getLastD f

/-- The number of frames around a frame. -/
def depth (s : Store) (f : FrameId) : Nat := (s.chain f).length - 1

def get? (s : Store) (f : FrameId) (x : String) : Option Value := (s[f]?).bind (·.get? x)

/-- Whether the frame itself binds a name. -/
def binds (s : Store) (f : FrameId) (x : String) : Bool := (s.get? f x).isSome

/-- The innermost frame that binds a name. -/
def owner? (s : Store) (f : FrameId) (x : String) : Option FrameId :=
  (s.chain f).find? fun g => s.binds g x

/-- The innermost value of a name; a name that is not bound reads as null. The host's stack is not
counted in looking outwards, which goes no further than functions are nested in a program. -/
def resolve (s : Store) (f : FrameId) (x : String) : Value :=
  ((s.chain f).findSome? fun g => s.get? g x).getD .null

def set (s : Store) (f : FrameId) (x : String) (v : Value) : Store := s.modify f (·.set x v)

theorem size_set (s : Store) (f : FrameId) (x : String) (v : Value) : (s.set f x v).size = s.size := by
  simp [set]

/-- Assign to the innermost frame that binds the name, or else to the root. -/
def update (s : Store) (f : FrameId) (x : String) (v : Value) : Store :=
  s.set ((s.owner? f x).getD (s.root f)) x v

def sink? (s : Store) (f : FrameId) : Option SinkId :=
  (s.chain f).findSome? fun g => (s[g]?).bind (·.sink)

def source? (s : Store) (f : FrameId) : Option String :=
  (s.chain f).findSome? fun g => (s[g]?).bind (·.source)

/-- A short description of a frame. -/
def describe (s : Store) (f : FrameId) : String :=
  let names := ((s[f]?).map (·.names)).getD []
  "<Environment depth=" ++ toString (s.depth f) ++ " names=[" ++
    ", ".intercalate (names.map Text.quoted) ++ "]>"

end Store

end Featherweight
