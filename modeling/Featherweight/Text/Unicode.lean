/-!
# Featherweight.Text.Unicode

Characters in the wide sense of Unicode, which is that of the settings and of the interactive prompt;
the language itself knows only five blank characters and ten digits.

* `trim` takes white space off a text.
* `digitValue?` knows the decimal digits of every script. Each script has its ten digits in a row, so
  the table holds the zeros alone.
* `integer?` reads an integer from a setting: white space around it, one sign, decimal digits with
  single underscores between them, at most 4300 digits.
-/

namespace Featherweight.Text

def isSpace (c : Char) : Bool :=
  let n := c.toNat
  (0x9 ≤ n && n ≤ 0xd) || (0x1c ≤ n && n ≤ 0x20) || n = 0x85 || n = 0xa0 || n = 0x1680 ||
  (0x2000 ≤ n && n ≤ 0x200a) || n = 0x2028 || n = 0x2029 || n = 0x202f || n = 0x205f || n = 0x3000

def trimLeft (text : List Char) : List Char := text.dropWhile isSpace

def trimRight (text : List Char) : List Char := (text.reverse.dropWhile isSpace).reverse

def trim (text : List Char) : List Char := trimRight (trimLeft text)

/-- The zeros of the scripts in Unicode 14, in ascending order. -/
def zeros : List Nat :=
  [0x30, 0x660, 0x6f0, 0x7c0, 0x966, 0x9e6, 0xa66, 0xae6, 0xb66, 0xbe6,
   0xc66, 0xce6, 0xd66, 0xde6, 0xe50, 0xed0, 0xf20, 0x1040, 0x1090, 0x17e0,
   0x1810, 0x1946, 0x19d0, 0x1a80, 0x1a90, 0x1b50, 0x1bb0, 0x1c40, 0x1c50, 0xa620,
   0xa8d0, 0xa900, 0xa9d0, 0xa9f0, 0xaa50, 0xabf0, 0xff10, 0x104a0, 0x10d30, 0x11066,
   0x110f0, 0x11136, 0x111d0, 0x112f0, 0x11450, 0x114d0, 0x11650, 0x116c0, 0x11730, 0x118e0,
   0x11950, 0x11c50, 0x11d50, 0x11da0, 0x16a60, 0x16ac0, 0x16b50, 0x1d7ce, 0x1d7d8, 0x1d7e2,
   0x1d7ec, 0x1d7f6, 0x1e140, 0x1e2f0, 0x1e950, 0x1fbf0]

/-- The value of a decimal digit of any script. -/
def digitValue? (c : Char) : Option Nat :=
  (zeros.find? fun z => z ≤ c.toNat && c.toNat < z + 10).map fun z => c.toNat - z

/-- The digits after the first one, each possibly behind an underscore. -/
def moreDigits? : List Char → Option (List Nat)
  | [] => some []
  | '_' :: c :: rest => do
    let d ← digitValue? c
    let ds ← moreDigits? rest
    some (d :: ds)
  | c :: rest => do
    let d ← digitValue? c
    let ds ← moreDigits? rest
    some (d :: ds)

def digits? : List Char → Option (List Nat)
  | [] => none
  | c :: rest => do
    let d ← digitValue? c
    let ds ← moreDigits? rest
    some (d :: ds)

def natural? (text : List Char) : Option Nat := do
  let ds ← digits? text
  if ds.length ≤ 4300 then some (ds.foldl (fun n d => 10 * n + d) 0) else none

def integer? (text : List Char) : Option Int :=
  match trim text with
  | '-' :: rest => (natural? rest).map fun n => -(n : Int)
  | '+' :: rest => (natural? rest).map fun n => (n : Int)
  | rest => (natural? rest).map fun n => (n : Int)

end Featherweight.Text
