/-!
# The shortest decimal of a double

The decimal with the fewest digits that still reads back as a given double.

## The rule

A positive double stands for all reals that are nearer to it than to any other double; the reals
half way to a neighbour are its own when its significand is even. A grid of decimals, the
multiples of one power of ten, is fine enough for a double when it has a point among those reals.
The coarsest such grid has the shortest decimals. If both points of the grid next to the double
are among its reals, the nearer one is taken, and of two equally near ones the greater.

All of this is done in natural numbers. The reals of a double and the points of a grid are
compared after both were multiplied by what makes them whole.

## Main definitions

* `Reals`, `Binary64.reals`: the reals that a double stands for, and how they follow from its
  encoding
* `Reals.onGrid?`: the point that a grid has for a double
* `Decimal`, `Reals.shortest`: a decimal, and the shortest one of a double

## Implementation notes

The grids are tried from the coarsest on. The greatest finite double is below `10 ^ 309`, and the
gaps between doubles are at least `2 ^ (-1074)`, wider than `10 ^ (-324)`, so no grid outside of
`grids` is ever the answer.
-/

namespace NixSyntax

/-- The number `digits * 10 ^ scale`. -/
structure Decimal where
  /-- The digits, read as one whole number. -/
  digits : Nat
  /-- The power of ten that the last digit counts. -/
  scale : Int
deriving Repr, DecidableEq

/-- A positive number with the reals around it that are rounded to it. All three are counted in
units of `1 / unit`. -/
structure Reals where
  /-- The least of the reals. -/
  low : Nat
  /-- The number itself. -/
  value : Nat
  /-- The greatest of the reals. -/
  high : Nat
  /-- How many units make one. -/
  unit : Nat
  /-- Whether `low` and `high` are rounded to the number themselves. -/
  closed : Bool

namespace Reals

/-- The reals around `significand * 2 ^ exponent`. The gap to the number below is half as wide as
the one to the number above when `narrow` says so. -/
def around (significand : Nat) (exponent : Int) (narrow : Bool) : Reals :=
  let scale := Nat.pow 2 (exponent - 2).toNat
  { low := (4 * significand - (if narrow then 1 else 2)) * scale
    value := 4 * significand * scale
    high := (4 * significand + 2) * scale
    unit := Nat.pow 2 (2 - exponent).toNat
    closed := significand % 2 = 0 }

/-- Whether `num / den` is one of the reals. -/
def contains (r : Reals) (num den : Nat) : Bool :=
  let low := r.low * den
  let high := r.high * den
  let x := num * r.unit
  if r.closed then low ≤ x && x ≤ high else low < x && x < high

/-- The multiple of `10 ^ scale` that the grid of these multiples has for the number: the nearer
of the two next to it, as far as they are among its reals. -/
def onGrid? (r : Reals) (scale : Int) : Option Nat :=
  let step := Nat.pow 10 scale.toNat
  let parts := Nat.pow 10 (-scale).toNat
  let num := r.value * parts
  let den := r.unit * step
  let below := num / den
  let above := below + 1
  let takeBelow := r.contains (below * step) parts
  let takeAbove := r.contains (above * step) parts
  if takeBelow && (!takeAbove || 2 * (num % den) < den) then some below
  else if takeAbove then some above
  else none

/-- The powers of ten whose multiples are tried, the greatest first. -/
def grids : List Int :=
  (List.range 634).map fun (i : Nat) => 309 - (i : Int)

/-- The decimal with the fewest digits among the reals, and the nearest of those to the number. -/
def shortest (r : Reals) : Decimal :=
  (grids.findSome? fun scale => (r.onGrid? scale).map (Decimal.mk · scale)).getD ⟨0, 0⟩

end Reals

namespace Binary64

/-- The significand field of an encoding. -/
def fraction (bits : Nat) : Nat := bits % Nat.pow 2 52

/-- The exponent field of an encoding. -/
def exponentField (bits : Nat) : Nat := bits / Nat.pow 2 52 % Nat.pow 2 11

/-- Whether an encoding has a minus sign. -/
def isNegative (bits : Nat) : Bool := bits / Nat.pow 2 63 % 2 = 1

/-- Whether an encoding is that of infinity or of no number. -/
def isSpecial (bits : Nat) : Bool := exponentField bits = 2047

/-- The reals that a double other than zero stands for, its sign aside. -/
def reals (bits : Nat) : Reals :=
  let f := fraction bits
  let e := exponentField bits
  if e = 0 then .around f (-1074) false
  else .around (Nat.pow 2 52 + f) (e - 1075) (f = 0 && 1 < e)

end Binary64

end NixSyntax
