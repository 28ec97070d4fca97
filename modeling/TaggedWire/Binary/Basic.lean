import TaggedWire.Binary.Format

/-!
# Floating point numbers as bit patterns

`Binary f` is a bit pattern of the format `f`.  Nothing here is computed on machine floats: signs,
magnitudes and the IEEE comparison are read off the bits, and a conversion, a product or a quotient
rounds an exact value once.

* `equal_self_iff`: a number equals itself unless it is not a number.
-/

namespace TaggedWire

-- powers are those of the core library, whatever is imported next to it
attribute [local instance (high)] instPowNat

/-- A floating point number of format `f`, given by its bits. -/
structure Binary (f : Binary.Format) where
  bits : BitVec f.width
  deriving DecidableEq, Repr

/-- A 32-bit floating point number. -/
abbrev Binary32 := Binary .binary32

/-- A 64-bit floating point number. -/
abbrev Binary64 := Binary .binary64

namespace Binary

variable {f g : Format}

/-- The pattern without its sign bit. -/
def magnitude (x : Binary f) : Nat := x.bits.toNat % 2 ^ (f.width - 1)

/-- Whether the sign bit is set. -/
def negative (x : Binary f) : Bool := decide (2 ^ (f.width - 1) ≤ x.bits.toNat)

/-- The number with the given sign and magnitude. -/
def ofMagnitude (negative : Bool) (magnitude : Nat) : Binary f :=
  ⟨BitVec.ofNat _ ((if negative then 2 ^ (f.width - 1) else 0) + magnitude)⟩

/-- Neither infinite nor a non-number. -/
def isFinite (x : Binary f) : Bool := decide (x.magnitude < f.infinity)

/-- A pattern that stands for no number. -/
def isNaN (x : Binary f) : Bool := decide (f.infinity < x.magnitude)

/-- Comparison as IEEE 754 has it: a non-number equals nothing, and the two zeros are equal. -/
def equal (x y : Binary f) : Bool :=
  !x.isNaN && !y.isNaN && (decide (x = y) || (x.magnitude == 0 && y.magnitude == 0))

theorem equal_self_iff (x : Binary f) : x.equal x = true ↔ x.isNaN = false := by
  simp [equal]

theorem equal_comm (x y : Binary f) : x.equal y = y.equal x := by
  simp only [equal, eq_comm (a := x) (b := y)]
  cases x.isNaN <;> cases y.isNaN <;> simp [Bool.and_comm]

/-- The finite number or infinity nearest to `num / den` in absolute value, with the given sign. -/
def nearest (negative : Bool) (num den : Nat) : Binary f :=
  ofMagnitude negative (min (f.round num den) f.infinity)

/-- The number nearest to an integer. -/
def ofInt (n : Int) : Binary f := nearest (decide (n < 0)) n.natAbs 1

/-- The number of format `g` nearest to a finite number of format `f`. -/
def convert (x : Binary f) : Binary g :=
  nearest x.negative (f.units x.magnitude) (2 ^ f.scale)

/-- The product of two finite numbers. -/
def mul (x y : Binary f) : Binary f :=
  nearest (x.negative != y.negative) (f.units x.magnitude * f.units y.magnitude)
    (2 ^ f.scale * 2 ^ f.scale)

/-- The quotient of two finite numbers, of which the second is not zero. -/
def div (x y : Binary f) : Binary f :=
  nearest (x.negative != y.negative) (f.units x.magnitude) (f.units y.magnitude)

end Binary
end TaggedWire
