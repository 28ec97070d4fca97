import TaggedWire.Binary.Basic

/-!
# Decimals and their nearest binary numbers

A decimal is a significand times a power of ten.  `Decimal.nearest` reads one into a binary format,
rounding the exact value once; `Binary.shortest` goes the other way and picks, of the decimals that
read back to a number, one with the fewest digits, and of those the nearest.

The grid of decimals with `n` digits has two points around the number, below and above.  If any
point of the grid reads back, one of these two does, so only they are tested, for `n = 1, 2, …` in
turn.
-/

namespace TaggedWire

-- powers are those of the core library, whatever is imported next to it
attribute [local instance (high)] instPowNat

/-- The decimal `significand * 10 ^ exponent`. -/
structure Decimal where
  significand : Nat
  exponent : Int
  deriving DecidableEq, Repr

/-- Decimal digits of a number; zero has one. -/
def digitCount (n : Nat) : Nat := (Nat.toDigits 10 n).length

namespace Decimal

/-- Numerator of the value, over `den`. -/
def num (d : Decimal) : Nat := d.significand * 10 ^ d.exponent.toNat

/-- Denominator of the value. -/
def den (d : Decimal) : Nat := 10 ^ (-d.exponent).toNat

/-- The number nearest to a decimal.  A decimal of `10 ^ 400` or more is infinite in every format
here and one below `10 ^ (-400)` vanishes, so the power of ten is never computed for these. -/
def nearest {f : Binary.Format} (negative : Bool) (d : Decimal) : Binary f :=
  let top := d.exponent + digitCount d.significand
  if d.significand = 0 ∨ top < -400 then .ofMagnitude negative 0
  else if 400 < top then .ofMagnitude negative f.infinity
  else .nearest negative d.num d.den

/-- The same value without trailing zeros in the significand, of which at most `fuel` are dropped.
-/
def dropZeros : Nat → Decimal → Decimal
  | 0, d => d
  | fuel + 1, d =>
    if d.significand ≠ 0 ∧ d.significand % 10 = 0 then
      dropZeros fuel ⟨d.significand / 10, d.exponent + 1⟩
    else d

end Decimal

namespace Binary

/-- The exponent of the leading decimal digit of `num / den`, both being positive. -/
def decimalExponent (num den : Nat) : Int :=
  let e : Int := digitCount num - digitCount den
  if den * 10 ^ e.toNat ≤ num * 10 ^ (-e).toNat then e else e - 1

/-- The open or closed interval of quotients that round to a magnitude, over the denominator
`4 * 2 ^ scale`. -/
structure Interval where
  low : Nat
  middle : Nat
  high : Nat
  closed : Bool

/-- The numbers that round to a magnitude lie half a step to either side, but only a quarter below
the least significand, where the steps become half as long.  The ends are included when the
significand is even. -/
def Format.interval (f : Format) (magnitude : Nat) : Interval :=
  let m := f.significand magnitude
  let step := 2 ^ f.shift magnitude
  let below := if m = f.hidden ∧ 0 < f.shift magnitude then step else 2 * step
  ⟨4 * m * step - below, 4 * m * step, 4 * m * step + 2 * step, m % 2 == 0⟩

/-- Whether `num / den` lies in the interval, whose own denominator is `unit`. -/
def Interval.holds (i : Interval) (unit num den : Nat) : Bool :=
  if i.closed then decide (i.low * den ≤ num * unit ∧ num * unit ≤ i.high * den)
  else decide (i.low * den < num * unit ∧ num * unit < i.high * den)

/-- Of the two neighbours with the last digit at `10 ^ exponent`, the one that reads back; of two,
the nearer, and of two equally near the even one. -/
def Format.neighbour (f : Format) (magnitude : Nat) (exponent : Int) : Option Decimal :=
  let i := f.interval magnitude
  let unit := 4 * 2 ^ f.scale
  let up := 10 ^ exponent.toNat
  let down := 10 ^ (-exponent).toNat
  let num := i.middle * down
  let den := unit * up
  let q := num / den
  let below := i.holds unit (q * up) down
  let above := i.holds unit ((q + 1) * up) down
  if below && above then some ⟨roundDiv num den, exponent⟩
  else if below then some ⟨q, exponent⟩
  else if above then some ⟨q + 1, exponent⟩
  else none

/-- Digits that always suffice to read a number of these formats back. -/
def enoughDigits : Nat := 17

/-- The fewest digits that read back to a positive finite magnitude. -/
def Format.shortest (f : Format) (magnitude : Nat) : Decimal :=
  let i := f.interval magnitude
  let top := decimalExponent i.middle (4 * 2 ^ f.scale)
  -- the grid with `n + 1` digits has its last digit `n` places below the leading one
  let found := (List.range enoughDigits).findSome? fun (n : Nat) => f.neighbour magnitude (top - n)
  (found.getD ⟨f.units magnitude, 0⟩).dropZeros enoughDigits

end Binary
end TaggedWire
