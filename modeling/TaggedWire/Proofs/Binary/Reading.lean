import TaggedWire.Binary.Scaled
import TaggedWire.Proofs.Binary.Shortest

/-!
# Ways to read a decimal

There is more than one way to read a decimal as a number of 64 bits.  One takes the nearest number;
others calculate with numbers that were rounded themselves.  What follows does not depend on which
is taken, as long as a decimal of moderate size is read as the number nearest to a quotient that is
off by at most one part in `2 ^ 53`, and that is the decimal itself if its power of ten is exact.

* `Decimal.Near`: how near such a quotient is to its decimal.
* `Decimal.Near.units_le`, `Decimal.Near.le_units`, `Decimal.Near.units_eq`: numbers that are not
  passed, and numbers that are found.
* `Decimal.Rounds`: a way of reading that takes such quotients.
* `Decimal.rounds_nearest`: taking the nearest number is one.
-/

namespace TaggedWire

open Binary Binary.Format

namespace Decimal

/-- The quotient is off the decimal by at most one part in `2 ^ 53`, and is the decimal itself if
its power of ten is exact. -/
structure Near (d : Decimal) (num den : Nat) : Prop where
  den_pos : 0 < den
  low : (2 ^ 53 - 1) * (d.num * den) ≤ 2 ^ 53 * (num * d.den)
  high : (2 ^ 53 - 1) * (num * d.den) ≤ 2 ^ 53 * (d.num * den)
  exact : d.exponent.natAbs < 23 → num * d.den = d.num * den

theorem Near.self (d : Decimal) : d.Near d.num d.den where
  den_pos := d.den_pos
  low := Nat.mul_le_mul_right _ (by decide)
  high := Nat.mul_le_mul_right _ (by decide)
  exact _ := rfl

/-! ### Numbers that are not passed

A number of full precision has neighbours at one part in `2 ^ 53`.  So a quotient that is off by
less than that does not get past the neighbour of a number that its decimal does not reach. -/

section Passed

variable {d : Decimal} {num den c k : Nat}

/-- A number of full precision is not passed if the decimal lies below it by a unit of its last
place, -/
theorem Near.units_le (hnear : d.Near num den) (hc : c < 2 ^ 53) (hk : k ≤ binary64.maxShift)
    (h : d.num * 2 ^ binary64.scale + 2 ^ k * d.den ≤ c * (2 ^ k * d.den)) (negative : Bool) :
    binary64.units (Binary.nearest negative num den : Binary64).magnitude ≤ c * 2 ^ k := by
  obtain ⟨g, -, hunits⟩ := exists_units interchange_binary64 hc hk
  -- one part in `2 ^ 53` of the number is less than that unit
  have hroom : 2 ^ 53 * (d.num * 2 ^ binary64.scale) ≤ (2 ^ 53 - 1) * (c * (2 ^ k * d.den)) := by
    have hc : c * (2 ^ k * d.den) ≤ 2 ^ 53 * (2 ^ k * d.den) :=
      Nat.mul_le_mul_right _ (Nat.le_of_lt hc)
    generalize c * (2 ^ k * d.den) = above at h hc ⊢
    generalize 2 ^ k * d.den = unit at h hc
    generalize d.num * 2 ^ binary64.scale = x at h ⊢
    omega
  have hle : num * 2 ^ binary64.scale ≤ binary64.units g * den := by
    have hfactor : 0 < (2 ^ 53 - 1) * d.den := Nat.mul_pos (by decide) d.den_pos
    rw [hunits]
    apply Nat.le_of_mul_le_mul_left _ hfactor
    calc (2 ^ 53 - 1) * d.den * (num * 2 ^ binary64.scale)
        = (2 ^ 53 - 1) * (num * d.den) * 2 ^ binary64.scale := by ring
      _ ≤ 2 ^ 53 * (d.num * den) * 2 ^ binary64.scale := Nat.mul_le_mul_right _ hnear.high
      _ = 2 ^ 53 * (d.num * 2 ^ binary64.scale) * den := by ring
      _ ≤ (2 ^ 53 - 1) * (c * (2 ^ k * d.den)) * den := Nat.mul_le_mul_right _ hroom
      _ = (2 ^ 53 - 1) * d.den * (c * 2 ^ k * den) := by ring
  rw [magnitude_nearest interchange_binary64, ← hunits]
  exact binary64.units_strictMono.monotone (Nat.le_trans (Nat.min_le_left _ _)
    (round_le interchange_binary64 hnear.den_pos hle))

/-- nor if it lies above it by one, -/
theorem Near.le_units (hnear : d.Near num den) (hc : c < 2 ^ 53) (hk : k ≤ binary64.maxShift)
    (h : c * (2 ^ k * d.den) + 2 ^ k * d.den ≤ d.num * 2 ^ binary64.scale) (negative : Bool) :
    c * 2 ^ k ≤ binary64.units (Binary.nearest negative num den : Binary64).magnitude := by
  obtain ⟨g, hfinite, hunits⟩ := exists_units interchange_binary64 hc hk
  -- one step is more than the error of one part in `2 ^ 53`
  have hroom : 2 ^ 53 * (c * (2 ^ k * d.den)) ≤ (2 ^ 53 - 1) * (d.num * 2 ^ binary64.scale) := by
    have hc : c * (2 ^ k * d.den) ≤ (2 ^ 53 - 1) * (2 ^ k * d.den) :=
      Nat.mul_le_mul_right _ (Nat.le_sub_one_of_lt hc)
    generalize c * (2 ^ k * d.den) = below at h hc ⊢
    generalize 2 ^ k * d.den = unit at h hc
    generalize d.num * 2 ^ binary64.scale = x at h ⊢
    omega
  have hle : binary64.units g * den ≤ num * 2 ^ binary64.scale := by
    have hfactor : 0 < 2 ^ 53 * d.den := Nat.mul_pos (by decide) d.den_pos
    rw [hunits]
    apply Nat.le_of_mul_le_mul_left _ hfactor
    calc 2 ^ 53 * d.den * (c * 2 ^ k * den)
        = 2 ^ 53 * (c * (2 ^ k * d.den)) * den := by ring
      _ ≤ (2 ^ 53 - 1) * (d.num * 2 ^ binary64.scale) * den := Nat.mul_le_mul_right _ hroom
      _ = (2 ^ 53 - 1) * (d.num * den) * 2 ^ binary64.scale := by ring
      _ ≤ 2 ^ 53 * (num * d.den) * 2 ^ binary64.scale := Nat.mul_le_mul_right _ hnear.low
      _ = 2 ^ 53 * d.den * (num * 2 ^ binary64.scale) := by ring
  rw [magnitude_nearest interchange_binary64, ← hunits]
  exact binary64.units_strictMono.monotone (Nat.le_min.2
    ⟨le_round interchange_binary64 hnear.den_pos hle, Nat.le_of_lt hfinite⟩)

/-- and with an exact power of ten it is found if it is the decimal itself. -/
theorem Near.units_eq (hnear : d.Near num den) (hexponent : d.exponent.natAbs < 23)
    (hc : c < 2 ^ 53) (hk : k ≤ binary64.maxShift)
    (h : d.num * 2 ^ binary64.scale = c * (2 ^ k * d.den)) (negative : Bool) :
    binary64.units (Binary.nearest negative num den : Binary64).magnitude = c * 2 ^ k := by
  obtain ⟨g, hfinite, hunits⟩ := exists_units interchange_binary64 hc hk
  have heq : num * 2 ^ binary64.scale = binary64.units g * den := by
    rw [hunits]
    apply Nat.eq_of_mul_eq_mul_left d.den_pos
    calc d.den * (num * 2 ^ binary64.scale)
        = num * d.den * 2 ^ binary64.scale := by ring
      _ = d.num * den * 2 ^ binary64.scale := by rw [hnear.exact hexponent]
      _ = d.num * 2 ^ binary64.scale * den := by ring
      _ = c * (2 ^ k * d.den) * den := by rw [h]
      _ = d.den * (c * 2 ^ k * den) := by ring
  rw [magnitude_nearest interchange_binary64,
    round_units interchange_binary64 hnear.den_pos heq, Nat.min_eq_left (Nat.le_of_lt hfinite),
    hunits]

/-- Decimals of 32-bit numbers are far below the bound of overflow. -/
theorem Near.isFinite (hnear : d.Near num den) (h : binary32.Below d.num d.den)
    (negative : Bool) : (Binary.nearest negative num den : Binary64).isFinite = true := by
  obtain ⟨places, hscale, hoverflow⟩ : ∃ places, binary64.scale = binary32.scale + places ∧
      binary32.overflow * 2 ^ places ≤ 2 * 2 ^ binary64.maxShift :=
    ⟨binary64.scale - binary32.scale, by decide, by decide +kernel⟩
  obtain ⟨g, hfinite, hunits⟩ :=
    exists_units interchange_binary64 (c := 2) (by decide) (Nat.le_refl binary64.maxShift)
  -- the bound of 32 bits is far below that of 64, so a factor of two is to spare
  have hhalf : 2 * (d.num * 2 ^ binary64.scale) ≤ 2 * (2 ^ binary64.maxShift * d.den) := by
    rw [hscale, Nat.pow_add]
    calc 2 * (d.num * (2 ^ binary32.scale * 2 ^ places))
        = 2 * (d.num * 2 ^ binary32.scale) * 2 ^ places := by ring
      _ ≤ binary32.overflow * d.den * 2 ^ places := Nat.mul_le_mul_right _ (Nat.le_of_lt h)
      _ = binary32.overflow * 2 ^ places * d.den := Nat.mul_right_comm _ _ _
      _ ≤ 2 * 2 ^ binary64.maxShift * d.den := Nat.mul_le_mul_right _ hoverflow
      _ = 2 * (2 ^ binary64.maxShift * d.den) := Nat.mul_assoc _ _ _
  have hroom : d.num * 2 ^ binary64.scale + 2 ^ binary64.maxShift * d.den ≤
      2 * (2 ^ binary64.maxShift * d.den) := by
    generalize 2 ^ binary64.maxShift * d.den = step at hhalf ⊢
    omega
  have hle := hnear.units_le (by decide) (Nat.le_refl _) hroom negative
  rw [← hunits] at hle
  exact decide_eq_true (Nat.lt_of_le_of_lt (binary64.units_strictMono.le_iff_le.1 hle) hfinite)

end Passed

/-! ### Ways to read

Taking the nearest number is the simplest of them, with the decimal itself for a quotient. -/

/-- Decimals are read as zero, or as the numbers nearest to quotients near them. -/
structure Rounds (read : Bool → Decimal → Binary64) : Prop where
  zero : ∀ negative, read negative ⟨0, -1⟩ = .ofMagnitude negative 0
  quotient : ∀ {d : Decimal}, 0 < d.significand → d.significand < 2 ^ 53 →
    d.exponent.natAbs ≤ lastTenPower →
      ∃ num den, d.Near num den ∧ ∀ negative, read negative d = .nearest negative num den

/-- The nearest number is nearest to the decimal itself. -/
theorem rounds_nearest : Rounds Decimal.nearest where
  zero negative := by cases negative <;> rfl
  quotient {d} hpos hdigits hexponent := by
    -- neither bound to the power of ten that is computed plays a part
    have hcount : digitCount d.significand ≤ 16 :=
      (Nat.length_toDigits_le_iff (by decide) (by decide)).2 (Nat.lt_trans hdigits (by decide))
    have hexponent : d.exponent.natAbs ≤ 308 := hexponent
    refine ⟨d.num, d.den, .self d, fun negative => ?_⟩
    unfold nearest
    simp only
    rw [if_neg (by omega), if_neg (by omega)]

end Decimal
end TaggedWire
