import TaggedWire.Binary.Scaled

/-!
# JSON numbers

A number literal is kept exactly, as a `Numeral`, until its value is asked for.  A literal without
point and exponent is an integer when 64 bits hold it, signed or unsigned.  Every other literal is a
64-bit floating point number, and denotes nothing when that is infinite.  Which number it is depends
on the `Reader`.  There are two here: one reads the nearest number, the other takes the digits, as
far as 64 bits hold them, for a significand that it scales by a power of ten.

* `nearestReader`, `scalingReader`: the two readers.
* `number?_whole`: a whole literal within 64 bits denotes its integer.
* `kept_eq_decimal`: digits that 64 bits hold are all kept.
-/

namespace TaggedWire.Json

-- powers are those of the core library, whatever is imported next to it
attribute [local instance (high)] instPowNat

/-- The value of a number literal. -/
inductive Number where
  | integer (n : Int)
  | real (x : Binary64)
  deriving DecidableEq, Repr

namespace Number

/-- The integer of 64 signed bits, if the number is one. -/
def int64? : Number → Option Int
  | .integer n => if n < 2 ^ (63 : Nat) then some n else none
  | .real _ => none

/-- The floating point number, an integer being rounded to the nearest. -/
def toBinary64 : Number → Binary64
  | .integer n => .ofInt n
  | .real x => x

end Number

/-- A number literal: `±significand * 10 ^ (±exponent - places)`. -/
structure Numeral where
  negative : Bool := false
  /-- The digits before and after the point, read as one number. -/
  significand : Nat := 0
  /-- How many of the digits follow the point. -/
  places : Nat := 0
  exponentNegative : Bool := false
  exponent : Nat := 0
  /-- Neither a point nor an exponent is written. -/
  whole : Bool := true
  deriving DecidableEq, Repr

namespace Numeral

/-- The literal's absolute value. -/
def decimal (n : Numeral) : Decimal :=
  ⟨n.significand, (if n.exponentNegative then -n.exponent else n.exponent : Int) - n.places⟩

/-- How many digits at the end of a number have to go for 64 bits to hold the others. -/
def excess (n : Nat) : Nat :=
  let count := digitCount n
  if count < 20 then 0
  else if n / 10 ^ (count - 20) < 2 ^ (64 : Nat) then count - 20
  else count - 19

/-- The decimal that is left when 64 bits gather the digits from left to right.  Before the point a
digit that they cannot take only counts for the exponent, and so do those between it and the point;
after the point the first that they cannot take ends the significand. -/
def kept (n : Numeral) : Decimal :=
  let before := n.significand / 10 ^ n.places
  let beyond := excess before
  let digits := before / 10 ^ beyond * 10 ^ n.places + n.significand % 10 ^ n.places
  ⟨digits / 10 ^ excess digits, n.decimal.exponent + beyond + excess digits⟩

/-- The signed value of the digits. -/
def int (n : Numeral) : Int := if n.negative then -n.significand else n.significand

/-- The literal is an integer: it is written as one, 64 bits hold it, and it is not a negative
zero. -/
def isInteger (n : Numeral) : Bool :=
  n.whole && decide (-2 ^ (63 : Nat) ≤ n.int ∧ n.int < 2 ^ (64 : Nat)) &&
    !(n.negative && n.significand == 0)

/-- How literals that are no integers are read as floating point numbers. -/
class Reader where
  read : Numeral → Binary64

/-- Reads the number nearest to a literal. -/
abbrev nearestReader : Reader where
  read n := n.decimal.nearest n.negative

/-- Scales the digits that 64 bits hold.  This is the reader wherever none is named. -/
instance scalingReader : Reader where
  read n := n.kept.scaled n.negative

/-- The number that a literal denotes. -/
def number? [Reader] (n : Numeral) : Option Number :=
  if n.isInteger then some (.integer n.int)
  else
    let x := Reader.read n
    if x.isFinite then some (.real x) else none

theorem excess_eq_zero {n : Nat} (h : n < 2 ^ (64 : Nat)) : excess n = 0 := by
  have hcount : digitCount n ≤ 20 :=
    (Nat.length_toDigits_le_iff (by decide) (by decide)).2 (Nat.lt_trans h (by decide))
  unfold excess
  simp only
  split
  · rfl
  · rw [Nat.sub_eq_zero_of_le hcount, Nat.pow_zero, Nat.div_one, if_pos h]

/-- What 64 bits hold is kept as it is. -/
theorem kept_eq_decimal {n : Numeral} (h : n.significand < 2 ^ (64 : Nat)) :
    n.kept = n.decimal := by
  have hbefore := excess_eq_zero (Nat.lt_of_le_of_lt (Nat.div_le_self _ (10 ^ n.places)) h)
  have hdigits : n.significand / 10 ^ n.places * 10 ^ n.places + n.significand % 10 ^ n.places =
      n.significand := Nat.div_add_mod' _ _
  unfold kept
  simp only [hbefore, Nat.pow_zero, Nat.div_one, hdigits, excess_eq_zero h]
  simp [decimal]

theorem number?_whole [Reader] {n : Numeral} (h : n.isInteger = true) :
    n.number? = some (.integer n.int) := by
  simp [number?, h]

end Numeral
end TaggedWire.Json
