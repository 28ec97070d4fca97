/-!
# Binary interchange formats

A format is the pair of widths that IEEE 754 gives for its binary floating point numbers.  A
*magnitude* is a bit pattern without its sign bit, read as a natural number; larger magnitudes stand
for larger numbers.  Every finite magnitude is a whole number of *units*, the unit being the least
positive number of the format, so the arithmetic here is exact and stays in `Nat`.

* `units_lt`: a magnitude below `hidden` counts itself in units.
* `round`: the magnitude nearest to a quotient, ties going to the even one.
-/

namespace TaggedWire.Binary

-- powers are those of the core library, whatever is imported next to it
attribute [local instance (high)] instPowNat

/-- Widths of a binary floating point format. -/
structure Format where
  /-- Binary digits of a full significand, the leading one included. -/
  precision : Nat
  /-- Bits of the exponent field. -/
  exponentBits : Nat
  deriving DecidableEq, Repr

namespace Format

/-- The 32-bit format. -/
def binary32 : Format := ⟨24, 8⟩

/-- The 64-bit format. -/
def binary64 : Format := ⟨53, 11⟩

/-- Bits of a whole pattern: sign, exponent field and the stored part of the significand. -/
def width (f : Format) : Nat := f.exponentBits + f.precision

/-- Least significand of full length; its leading digit is not stored. -/
def hidden (f : Format) : Nat := 2 ^ (f.precision - 1)

/-- The unit of the format is `2 ^ (-scale)`. -/
def scale (f : Format) : Nat := 2 ^ (f.exponentBits - 1) - 2 + (f.precision - 1)

/-- The magnitude of infinity, above every finite one. -/
def infinity (f : Format) : Nat := (2 ^ f.exponentBits - 1) * f.hidden

/-- The significand of a magnitude, with the leading digit that is not stored. -/
def significand (f : Format) (magnitude : Nat) : Nat :=
  if magnitude < f.hidden then magnitude else f.hidden + magnitude % f.hidden

/-- Binary places by which the significand of a magnitude is shifted up. -/
def shift (f : Format) (magnitude : Nat) : Nat := magnitude / f.hidden - 1

/-- The number of units that a finite magnitude stands for. -/
def units (f : Format) (magnitude : Nat) : Nat := f.significand magnitude * 2 ^ f.shift magnitude

theorem hidden_pos (f : Format) : 0 < f.hidden := Nat.two_pow_pos _

theorem units_lt {f : Format} {magnitude : Nat} (h : magnitude < f.hidden) :
    f.units magnitude = magnitude := by
  simp [units, significand, shift, h, Nat.div_eq_of_lt h]

end Format

/-! ### Rounding -/

/-- The whole number nearest to `num / den`, an exact half going to the even neighbour. -/
def roundDiv (num den : Nat) : Nat :=
  let q := num / den
  let r := num % den
  if 2 * r < den then q else if den < 2 * r then q + 1 else q + q % 2

/-- Binary digits of a number; none for zero. -/
def bitLength (n : Nat) : Nat := if n = 0 then 0 else n.log2 + 1

/-- The magnitude nearest to `num / den`, which may be that of infinity or above.  Dropping the
places that exceed the precision leaves a significand; adding it to the shifted exponent also
carries correctly when it rounds up to the next power of two. -/
def Format.round (f : Format) (num den : Nat) : Nat :=
  let scaled := num * 2 ^ f.scale
  let shift := bitLength (scaled / den) - f.precision
  shift * f.hidden + roundDiv scaled (den * 2 ^ shift)

end TaggedWire.Binary
