import Columnar.Decimal.Shortest

/-!
# Written floating-point numbers

A `Layout` collects the choices of a number format: which numbers are written
positionally and what follows a whole number.  `Layout.write` prints the shortest
decimal of a value under a layout.  Numbers that a layout does not write
positionally get one digit before the point and a decimal exponent.
-/

namespace Columnar

/-- The choices of a written number format. -/
structure Layout where
  /-- The positions of the decimal point, counted from the first digit, between
  which digits are written positionally; `none` for every position. -/
  positional : Option (Int × Int)
  /-- What follows the digits of a whole number. -/
  wholeMark : String

namespace Layout

/-- Literals always show a point or an exponent; exponents start below `1e-4` and
at `1e16`. -/
def literal : Layout := ⟨some (-3, 16), ".0"⟩

/-- Stored values never show an exponent, and whole numbers no point. -/
def stored : Layout := ⟨none, ""⟩

/-- Whether a point at `position` is written positionally. -/
def isPositional (l : Layout) (position : Int) : Bool :=
  match l.positional with
  | none => true
  | some (least, greatest) => least ≤ position && position ≤ greatest

/-- `n` zeros. -/
def zeros (n : Nat) : List Char := List.replicate n '0'

/-- Digits with the decimal point at `position`, counted from the first digit. -/
def writePositional (l : Layout) (digits : List Char) (position : Int) : String :=
  if position ≤ 0 then
    "0." ++ String.ofList (zeros (-position).toNat ++ digits)
  else
    let whole := digits.take position.toNat
    let fraction := digits.drop position.toNat
    if fraction.isEmpty then
      String.ofList (whole ++ zeros (position.toNat - digits.length)) ++ l.wholeMark
    else
      String.ofList (whole ++ '.' :: fraction)

/-- One digit before the point, and the decimal exponent. -/
def writeScientific (digits : List Char) (position : Int) : String :=
  let fraction := digits.drop 1
  let mantissa := digits.take 1 ++ (if fraction.isEmpty then [] else '.' :: fraction)
  String.ofList mantissa ++ "e" ++ toString (position - 1)

/-- A positive decimal; zeros at its end are not significant. -/
def writeDecimal (l : Layout) (d : Decimal) : String :=
  let all := Nat.toDigits 10 d.coefficient
  let position : Int := (all.length : Int) + d.exponent
  let digits := (all.reverse.dropWhile (· == '0')).reverse
  if l.isPositional position then l.writePositional digits position
  else writeScientific digits position

/-- The text of a floating-point value. -/
def write (l : Layout) {f : Format} (x : Binary f) : String :=
  if x.isNaN then
    "NaN"
  else
    let sign := if x.isNegative then "-" else ""
    if x.isInfinite then sign ++ "inf"
    else if x.magnitude = 0 then sign ++ "0" ++ l.wholeMark
    else sign ++ l.writeDecimal (Decimal.shortest f x.magnitude)

end Layout

end Columnar
