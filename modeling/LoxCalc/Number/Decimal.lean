import LoxCalc.Number.Double

/-!
# LoxCalc.Number.Decimal

The decimal text of numbers. A magnitude is written with the fewest significant
digits that read back as that very magnitude, of those with the digits nearest to
it, and of two equally near with the greater.

The value of a magnitude is a whole number of units of `10 ^ -1074`, so each grid
of decimals is the set of multiples of some `10 ^ n` of these units. Candidates
are sought on the coarsest grid first: `Decimal.onGrid?` looks at the value's two
neighbours on one grid, `Decimal.descend` walks from a grid too coarse for the
value to the finest one, where the value itself lies.
-/

namespace LoxCalc

/-- The number `digits * 10 ^ exponent`. -/
structure Decimal where
  /-- The significant digits, as a whole number. -/
  digits : Nat
  /-- The power of ten that they are scaled by. -/
  exponent : Int
deriving DecidableEq

namespace Decimal

/-! ### The fewest digits that read back -/

/-- How many units of `10 ^ -1074` a unit of magnitudes, `2 ^ -1074`, has. -/
def scale : Nat := Nat.pow 5 1074

/-- Does `d` on the grid of multiples of `10 ^ n` units read back as `m`? -/
def readsBack (m : Magnitude) (n d : Nat) : Bool :=
  Magnitude.ofUnits (d * Nat.pow 10 n) scale == m

/-- The neighbour of `scaled` on the grid of multiples of `10 ^ n` that reads back
as `m`: the nearer one if both do, the upper one if they are equally near. -/
def onGrid? (m : Magnitude) (scaled n : Nat) : Option Nat :=
  let step := Nat.pow 10 n
  let low := scaled / step
  if readsBack m n low && (!readsBack m n (low + 1) || 2 * (scaled % step) < step) then
    some low
  else if readsBack m n (low + 1) then
    some (low + 1)
  else
    none

/-- The first hit on the grids from `10 ^ n` down, with its grid. On the finest one
the value itself is a hit. -/
def descend (hit? : Nat → Option Nat) (value : Nat) : Nat → Nat × Nat
  | 0 => (value, 0)
  | n + 1 =>
    match hit? (n + 1) with
    | some d => (d, n + 1)
    | none => descend hit? value n

/-- A grid on which every multiple but zero is at least `scaled`: two to the 93 is
less than ten to the 28. -/
def coarsest (scaled : Nat) : Nat := (scaled.log2 + 1) * 28 / 93 + 1

/-- The fewest digits that read back as the magnitude, with their grid. -/
def shortest (m : Magnitude) : Nat × Nat :=
  let scaled := scale * m.units
  descend (onGrid? m scaled) scaled (coarsest scaled)

/-- The decimal with some digits on the grid of multiples of `10 ^ n` units. -/
def ofGrid (digits n : Nat) : Decimal := ⟨digits, n - 1074⟩

/-- The shortest decimal that reads back as the magnitude, which is finite. -/
def ofMagnitude (m : Magnitude) : Decimal :=
  if m.code = 0 then ⟨0, 0⟩ else ofGrid (shortest m).1 (shortest m).2

/-! ### Layout -/

/-- Positional text with at least `places` digits after the point; no point when
there are none. -/
def positional (places : Nat) (d : Decimal) : List Char :=
  let written := Nat.toDigits 10 d.digits ++ List.replicate d.exponent.toNat '0'
  let afterPoint := (-d.exponent).toNat
  let padded := List.replicate (afterPoint + 1 - written.length) '0' ++ written
  let fraction := padded.drop (padded.length - afterPoint)
  let fraction := fraction ++ List.replicate (places - fraction.length) '0'
  padded.take (padded.length - afterPoint) ++ if fraction.isEmpty then [] else '.' :: fraction

/-- Text with one digit before the point and a power of ten; no point when there
is only one digit. -/
def scientific (d : Decimal) : List Char :=
  let written := Nat.toDigits 10 d.digits
  let fraction := written.drop 1
  let power := d.exponent + fraction.length
  written.take 1 ++ (if fraction.isEmpty then [] else '.' :: fraction) ++
    'e' :: (if power < 0 then ['-'] else []) ++ Nat.toDigits 10 power.natAbs

end Decimal

namespace Double

/-- A number's text, given the text of a finite magnitude. -/
def render (finite : Magnitude → List Char) : Double → List Char
  | nan => "NaN".toList
  | signed negative m =>
    (if negative then ['-'] else []) ++ if m.isInfinite then "inf".toList else finite m

/-- The text of a number as a value: positional, and with a point only before
digits. -/
def text (x : Double) : String :=
  .ofList (x.render fun m => (Decimal.ofMagnitude m).positional 0)

/-- The text of a number in a log record: positional and with a point for zero and
from `0.0001` up to `10 ^ 16`, with a power of ten outside of that. -/
def logText (x : Double) : String :=
  .ofList <| x.render fun m =>
    let d := Decimal.ofMagnitude m
    let least : Magnitude := .ofRatio 1 (Nat.pow 10 4)
    let bound : Magnitude := .ofRatio (Nat.pow 10 16) 1
    if m.code = 0 || least.code ≤ m.code && m.code < bound.code then
      d.positional 1
    else
      d.scientific

end Double

end LoxCalc
