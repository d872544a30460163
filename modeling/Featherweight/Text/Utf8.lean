import Featherweight.Text.Quoted

/-!
# Featherweight.Text.Utf8

Strict decoding of UTF-8. A `Fault` tells where the first bytes stand that are no character, how many of
them belong together, and why they are none.
-/

namespace Featherweight.Text.Utf8

inductive Reason where
  | startByte
  | continuation
  | endOfData
deriving DecidableEq, Repr

structure Fault where
  position : Nat
  /-- The first of the bytes. -/
  byte : Nat
  count : Nat
  reason : Reason
deriving DecidableEq, Repr

/-- For a first byte: its bits of the character, how many bytes follow, and the range of the next. -/
def lead? (b : Nat) : Option (Nat × Nat × Nat × Nat) :=
  if b < 0x80 then some (b, 0, 0x80, 0xbf)
  else if b < 0xc2 then none
  else if b < 0xe0 then some (b - 0xc0, 1, 0x80, 0xbf)
  else if b = 0xe0 then some (0, 2, 0xa0, 0xbf)
  else if b = 0xed then some (0xd, 2, 0x80, 0x9f)
  else if b < 0xf0 then some (b - 0xe0, 2, 0x80, 0xbf)
  else if b = 0xf0 then some (0, 3, 0x90, 0xbf)
  else if b < 0xf4 then some (b - 0xf0, 3, 0x80, 0xbf)
  else if b = 0xf4 then some (4, 3, 0x80, 0x8f)
  else none

/-- Read `n` more bytes of a character, the next of which is in the given range. The error tells how
many bytes of the character there were. -/
def tail : (n low high value count : Nat) → List Nat → Except (Nat × Reason) (Nat × List Nat)
  | 0, _, _, value, _, rest => .ok (value, rest)
  | _ + 1, _, _, _, count, [] => .error (count, .endOfData)
  | n + 1, low, high, value, count, b :: rest =>
    if low ≤ b && b ≤ high then tail n 0x80 0xbf (64 * value + (b - 0x80)) (count + 1) rest
    else .error (count, .continuation)

/-- Decode at most `fuel` characters; the text so far comes latest first. -/
def decodeFrom : Nat → Nat → List Nat → List Char → Except Fault (List Char)
  | _, _, [], text => .ok text.reverse
  | 0, _, _ :: _, text => .ok text.reverse
  | fuel + 1, position, b :: rest, text =>
    match lead? b with
    | none => .error ⟨position, b, 1, .startByte⟩
    | some (bits, n, low, high) =>
      match tail n low high bits 1 rest with
      | .ok (value, rest') =>
        decodeFrom fuel (position + n + 1) rest' (Char.ofNat value :: text)
      | .error (count, reason) => .error ⟨position, b, count, reason⟩

def decode (bytes : List Nat) : Except Fault (List Char) := decodeFrom bytes.length 0 bytes []

namespace Reason

def text : Reason → String
  | startByte => "invalid start byte"
  | continuation => "invalid continuation byte"
  | endOfData => "unexpected end of data"

end Reason

namespace Fault

def text (f : Fault) : String :=
  "'utf-8' codec can't decode " ++
    (if f.count = 1 then
      "byte 0x" ++ String.ofList (hex 2 f.byte) ++ " in position " ++ toString f.position
    else
      "bytes in position " ++ toString f.position ++ "-" ++ toString (f.position + f.count - 1)) ++
    ": " ++ f.reason.text

end Fault

/-- Line ends of every kind as line feeds. -/
def unifyLines : List Char → List Char
  | '\r' :: '\n' :: rest => '\n' :: unifyLines rest
  | '\r' :: rest => '\n' :: unifyLines rest
  | c :: rest => c :: unifyLines rest
  | [] => []

/-- The text in a file. -/
def readText (bytes : List Nat) : Except Fault String :=
  (decode bytes).map fun text => String.ofList (unifyLines text)

end Featherweight.Text.Utf8
