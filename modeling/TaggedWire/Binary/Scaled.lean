import TaggedWire.Binary.Decimal

/-!
# Decimals read by scaling

The nearest number to a decimal takes long integers to find.  Scaling does with floating point
numbers alone: the significand is rounded, and the result is multiplied or divided by a power of
ten that has been rounded, too.  Up to `10 ^ 22` powers of ten are exact, so a decimal with such an
exponent, whose significand is exact, is still rounded only once.  Beyond that the number may lie
next to the nearest one.
-/

namespace TaggedWire

-- powers are those of the core library, whatever is imported next to it
attribute [local instance (high)] instPowNat

/-- The exponent of the last power of ten that is finite. -/
def lastTenPower : Nat := 308

namespace Binary64

/-- The number nearest to a power of ten. -/
def tenPower (k : Nat) : Binary64 := .nearest false (10 ^ k) 1

/-- The number divided by the last power of ten, as often as told or until it vanishes, and then by
a power of ten that is finite. -/
def downBy (x : Binary64) (k : Nat) : Nat → Binary64
  | 0 => x.div (tenPower k)
  | rounds + 1 => if x.magnitude = 0 then x else downBy (x.div (tenPower lastTenPower)) k rounds

end Binary64

/-- The number that a decimal is read as, with the given sign: its significand times its power of
ten, each of the three rounded. -/
def Decimal.scaled (negative : Bool) (d : Decimal) : Binary64 :=
  let x : Binary64 := .nearest false d.significand 1
  let up := d.exponent.toNat
  let down := (-d.exponent).toNat
  let rounds := (down - 1) / lastTenPower
  let y : Binary64 :=
    if d.exponent < 0 then x.downBy (down - rounds * lastTenPower) rounds
    else if up ≤ lastTenPower then x.mul (Binary64.tenPower up)
    else if x.magnitude = 0 then x
    else .ofMagnitude false Binary.Format.binary64.infinity
  .ofMagnitude negative y.magnitude

end TaggedWire
