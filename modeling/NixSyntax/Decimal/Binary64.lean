/-!
# Reading decimals as doubles

The double nearest to a quotient of natural numbers, in exact arithmetic. A decimal with a
fraction is such a quotient, so this is how a numeric literal gets its value.

## The rounding rule

A positive double is `n * 2 ^ e` with a significand `n` of at most fifty-three bits and an
exponent `e` no less than `-1074`. The exponent is chosen so that the significand has fifty-three
bits where it can, the quotient is divided down to a whole significand, and what is left over
decides between it and the next one: the nearer wins, and of two equally near ones the even one.

Rounding up may carry into a new bit. In the encoding below that needs no case of its own: the
significand is *added* to the exponent field, so a carry ends up in the exponent, where it
belongs, and a number without its leading bit is a subnormal one.

## Main definitions

* `roundHalfEven`: the whole number nearest to a quotient, the even one of two
* `Binary64.ofRatio`: the encoding of the double nearest to a quotient
* `decimalValue`: the natural number that decimal digits write
* `floatOfDigits`: the double nearest to a decimal with a fraction
-/

namespace NixSyntax

/-- The whole number nearest to `num / den`. A quotient half way between two goes to the even
one. -/
def roundHalfEven (num den : Nat) : Nat :=
  let q := num / den
  let r := num % den
  if 2 * r < den then q
  else if den < 2 * r then q + 1
  else if q % 2 = 0 then q
  else q + 1

namespace Binary64

/-- The encoding of infinity. Encodings of finite doubles without a sign are below it. -/
def infinity : Nat := 2047 * Nat.pow 2 52

/-- The greatest `k` with `2 ^ k ≤ num / den`, for a positive quotient. -/
def log2Ratio (num den : Nat) : Int :=
  let k : Int := (num.log2 : Int) - den.log2
  if den * Nat.pow 2 k.toNat ≤ num * Nat.pow 2 (-k).toNat then k else k - 1

/-- The encoding of the double nearest to `num / den`, or of infinity when the quotient is too
large. -/
def ofRatio (num den : Nat) : Nat :=
  if num = 0 then 0
  else
    let e : Int := max (log2Ratio num den - 52) (-1074)
    let n := roundHalfEven (num * Nat.pow 2 (-e).toNat) (den * Nat.pow 2 e.toNat)
    min ((e + 1074).toNat * Nat.pow 2 52 + n) infinity

end Binary64

/-- The natural number that a list of decimal digits writes. -/
def decimalValue (digits : List Char) : Nat :=
  digits.foldl (fun n d => 10 * n + (d.toNat - '0'.toNat)) 0

/-- The double nearest to the number written with `whole` in front of the point and `fraction`
behind it. A number that is too large becomes infinity. -/
def floatOfDigits (whole fraction : List Char) : Float :=
  let bits := Binary64.ofRatio (decimalValue (whole ++ fraction)) (Nat.pow 10 fraction.length)
  Float.ofBits bits.toUInt64

end NixSyntax
