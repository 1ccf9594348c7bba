import NixSyntax.Decimal.Shortest

/-!
# Writing doubles

The shortest decimal of a double as text. Texts differ in where they use an exponent and in
whether a whole number keeps a fraction; a `NumberLayout` says both, and is given by whoever
writes.

## Main definitions

* `NumberLayout`: how numbers are laid out
* `NumberLayout.write`: the text of a double
-/

namespace NixSyntax

/-- How a number is laid out. -/
structure NumberLayout where
  /-- What a whole number has behind it. -/
  wholeMark : String
  /-- Whether a number whose first digit counts this power of ten is written with an exponent. -/
  usesExponent : Int → Bool

namespace NumberLayout

/-- The decimal digits of a natural number. -/
def digitsOf (n : Nat) : List Char := Nat.toDigits 10 n

/-- A decimal without an exponent. Zeros fill up the places between its digits and the point. -/
def positional (l : NumberLayout) (d : Decimal) : String :=
  let digits := digitsOf d.digits
  if 0 ≤ d.scale then
    String.ofList (digits ++ List.replicate d.scale.toNat '0') ++ l.wholeMark
  else
    let places := (-d.scale).toNat
    let padded := List.replicate (places + 1 - digits.length) '0' ++ digits
    let whole := padded.length - places
    String.ofList (padded.take whole ++ '.' :: padded.drop whole)

/-- A decimal with one digit in front of the point and an exponent. -/
def scientific (d : Decimal) (power : Int) : String :=
  let mantissa := match digitsOf d.digits with
    | first :: second :: more => first :: '.' :: second :: more
    | digits => digits
  String.ofList mantissa ++ "e" ++ toString power

/-- The text of a decimal that is not zero. -/
def writeDecimal (l : NumberLayout) (d : Decimal) : String :=
  let power := (digitsOf d.digits).length - 1 + d.scale
  if l.usesExponent power then scientific d power else l.positional d

/-- The text of a double. -/
def write (l : NumberLayout) (x : Float) : String :=
  let bits := x.toBits.toNat
  let sign := if Binary64.isNegative bits then "-" else ""
  if Binary64.isSpecial bits then
    if Binary64.fraction bits = 0 then sign ++ "inf" else "NaN"
  else if Binary64.fraction bits = 0 && Binary64.exponentField bits = 0 then
    sign ++ "0" ++ l.wholeMark
  else sign ++ l.writeDecimal (Binary64.reals bits).shortest

end NumberLayout

end NixSyntax
