/-!
# Featherweight.Decimal

Decimal fractions and their text: positional from 0.0001 up to sixteen digits before the point, with
at least one digit on either side of it, and otherwise with an exponent of at least two digits.

A decimal is the short form of a number with 53 binary digits, so a large one stands for the integer
of that kind which is nearest to it.
-/

namespace Featherweight

/-- The number `digits * 10 ^ exponent` or its opposite. -/
structure Decimal where
  negative : Bool
  digits : Nat
  exponent : Int
deriving DecidableEq, Repr

namespace Decimal

/-- The digits without the zeros at the end. -/
def significant (d : Decimal) : List Char :=
  match ((Nat.toDigits 10 d.digits).reverse.dropWhile (· = '0')).reverse with
  | [] => ['0']
  | ds => ds

/-- How many digits stand before the point; zero or less if the number is below one tenth. -/
def point (d : Decimal) : Int :=
  if d.digits = 0 then 1 else (Nat.toDigits 10 d.digits).length + d.exponent

def positional (ds : List Char) (point : Int) : List Char :=
  if point ≤ 0 then '0' :: '.' :: List.replicate (-point).toNat '0' ++ ds
  else
    let whole := ds.take point.toNat
    let fraction := ds.drop point.toNat
    whole ++ List.replicate (point.toNat - whole.length) '0' ++
      '.' :: (if fraction.isEmpty then ['0'] else fraction)

def scientific (ds : List Char) (exponent : Int) : List Char :=
  let size := Nat.toDigits 10 exponent.natAbs
  ds.take 1 ++ (if ds.length ≤ 1 then [] else '.' :: ds.drop 1) ++
    'e' :: (if exponent < 0 then '-' else '+') :: List.replicate (2 - size.length) '0' ++ size

def text (d : Decimal) : String :=
  let exponent := d.point - 1
  String.ofList <|
    (if d.negative then ['-'] else []) ++
      if -4 ≤ exponent ∧ exponent < 16 then positional d.significant d.point
      else scientific d.significant exponent

/-- The nearest number with at most 53 binary digits; of two that are equally near, the one with an even
last digit. -/
def nearest (n : Nat) : Nat :=
  let unit := Nat.pow 2 (n.log2 - 52)
  let q := n / unit
  let r := n % unit
  (if unit < 2 * r || (2 * r = unit && q % 2 = 1) then q + 1 else q) * unit

/-- The integer that a decimal stands for, if it stands for one. -/
def toInt? (d : Decimal) : Option Int :=
  let scale := Nat.pow 10 d.exponent.natAbs
  if 0 ≤ d.exponent then some (signed (nearest (d.digits * scale)))
  else if d.digits % scale = 0 then some (signed (nearest (d.digits / scale)))
  else none
where
  signed (n : Nat) : Int := if d.negative then -n else n

/-- Whether two decimals are the same number. -/
def same (a b : Decimal) : Bool :=
  let low := min a.exponent b.exponent
  let scaled (d : Decimal) : Int :=
    (if d.negative then -1 else 1) * d.digits * Int.pow 10 (d.exponent - low).toNat
  scaled a = scaled b

end Decimal

end Featherweight
