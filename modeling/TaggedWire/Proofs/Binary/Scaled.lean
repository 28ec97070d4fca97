import TaggedWire.Proofs.Binary.Reading

/-!
# Reading by scaling

A significand below `2 ^ 53` is rounded to itself, and a power of ten is off by at most one part in
`2 ^ 53`.  So scaling reads a decimal as the number nearest to a quotient that is off by no more,
and that is the decimal itself if the power of ten is exact.  Longer significands are rounded, too,
but the result only overflows next to the bound of overflow.

* `Decimal.rounds_scaled`: scaling is one of the ways to read a decimal.
* `Decimal.isFinite_scaled`: a decimal two steps below the bound of overflow is read as a finite
  number.
* `Decimal.isFinite_scaled_shortest`: so is the shortest decimal of every finite number.
-/

namespace TaggedWire

open Binary Binary.Format

/-! ### Powers of ten

Those up to the twenty-second are numbers of 64 bits, the others are rounded. -/

/-- A whole number is off by at most one part in `2 ^ 53` when it is rounded. -/
theorem units_nearest_near {n : Nat} (hpos : 0 < n) (hbelow : binary64.Below n 1) :
    (2 ^ 53 - 1) * (n * 2 ^ binary64.scale) ≤
        2 ^ 53 * binary64.units (Binary.nearest false n 1 : Binary64).magnitude ∧
      (2 ^ 53 - 1) * binary64.units (Binary.nearest false n 1 : Binary64).magnitude ≤
        2 ^ 53 * (n * 2 ^ binary64.scale) := by
  have hfinite := round_lt_infinity interchange_binary64 Nat.one_pos hbelow
  have hnormal : binary64.hidden * 1 ≤ n * 2 ^ binary64.scale :=
    Nat.le_trans (by decide +kernel) (Nat.mul_le_mul_right _ hpos)
  have h := round_near interchange_binary64 Nat.one_pos hnormal
  rw [Nat.mul_one] at h
  rw [magnitude_nearest interchange_binary64, Nat.min_eq_left (Nat.le_of_lt hfinite)]
  exact h

theorem below_tenPower {k : Nat} (hk : k ≤ lastTenPower) : binary64.Below (10 ^ k) 1 := by
  have hle : 10 ^ k ≤ 10 ^ lastTenPower := Nat.pow_le_pow_right (by decide) hk
  exact Nat.lt_of_le_of_lt (Nat.mul_le_mul_left _ (Nat.mul_le_mul_right _ hle)) (by decide +kernel)

/-- Powers of ten are exact up to `10 ^ 22`. -/
theorem tenPower_exact : ∀ k < 23,
    binary64.units (Binary64.tenPower k).magnitude = 10 ^ k * 2 ^ binary64.scale := by
  decide +kernel

namespace Decimal

/-- A significand of full precision is rounded to itself. -/
theorem units_significand {c : Nat} (hc : c < 2 ^ 53) :
    binary64.units (Binary.nearest false c 1 : Binary64).magnitude = c * 2 ^ binary64.scale := by
  obtain ⟨g, hfinite, hunits⟩ :=
    exists_units interchange_binary64 (c := c) (k := binary64.scale) hc (by decide)
  have hround : binary64.round c 1 = g :=
    round_units interchange_binary64 Nat.one_pos (by rw [hunits, Nat.mul_one])
  rw [magnitude_nearest interchange_binary64, hround, Nat.min_eq_left (Nat.le_of_lt hfinite),
    hunits]

/-- The product with a power of ten, -/
theorem near_of_nonneg {m k : Nat} (hk : k ≤ lastTenPower) :
    Near ⟨m, k⟩ (m * 2 ^ binary64.scale * binary64.units (Binary64.tenPower k).magnitude)
      (2 ^ binary64.scale * 2 ^ binary64.scale) := by
  obtain ⟨hlow, hhigh⟩ := units_nearest_near (Nat.pow_pos (by decide)) (below_tenPower hk)
  rw [← Binary64.tenPower] at hlow hhigh
  -- the power of ten is the nearest number, and up to `10 ^ 22` it is exact
  have hexact := tenPower_exact k
  have hunit : 0 < 2 ^ binary64.scale := Nat.two_pow_pos _
  have hnum : num ⟨m, k⟩ = m * 10 ^ k := rfl
  have hden : den ⟨m, k⟩ = 1 := by simp [den]
  generalize binary64.units (Binary64.tenPower k).magnitude = u at *
  generalize 2 ^ binary64.scale = unit at *
  constructor
  · exact Nat.mul_pos hunit hunit
  · rw [hnum, hden]
    calc (2 ^ 53 - 1) * (m * 10 ^ k * (unit * unit))
        = m * unit * ((2 ^ 53 - 1) * (10 ^ k * unit)) := by ring
      _ ≤ m * unit * (2 ^ 53 * u) := Nat.mul_le_mul_left _ hlow
      _ = 2 ^ 53 * (m * unit * u * 1) := by ring
  · rw [hnum, hden]
    calc (2 ^ 53 - 1) * (m * unit * u * 1) = m * unit * ((2 ^ 53 - 1) * u) := by ring
      _ ≤ m * unit * (2 ^ 53 * (10 ^ k * unit)) := Nat.mul_le_mul_left _ hhigh
      _ = 2 ^ 53 * (m * 10 ^ k * (unit * unit)) := by ring
  · intro hsmall
    rw [hnum, hden, hexact hsmall]
    ring

/-- and the quotient by one. -/
theorem near_of_neg {m k : Nat} (hk : k ≤ lastTenPower) :
    Near ⟨m, -k⟩ (m * 2 ^ binary64.scale)
      (binary64.units (Binary64.tenPower k).magnitude) := by
  obtain ⟨hlow, hhigh⟩ := units_nearest_near (Nat.pow_pos (by decide)) (below_tenPower hk)
  rw [← Binary64.tenPower] at hlow hhigh
  -- the same power, now in the denominator
  have hexact := tenPower_exact k
  have hunit : 0 < 2 ^ binary64.scale := Nat.two_pow_pos _
  have hnum : num ⟨m, -k⟩ = m := by simp [num]
  have hden : den ⟨m, -k⟩ = 10 ^ k := by simp [den]
  generalize binary64.units (Binary64.tenPower k).magnitude = u at *
  generalize 2 ^ binary64.scale = unit at *
  constructor
  · have hpower : 0 < (2 ^ 53 - 1) * (10 ^ k * unit) :=
      Nat.mul_pos (by decide) (Nat.mul_pos (Nat.pow_pos (by decide)) hunit)
    exact Nat.pos_of_mul_pos_left (Nat.lt_of_lt_of_le hpower hlow)
  · rw [hnum, hden]
    calc (2 ^ 53 - 1) * (m * u) = m * ((2 ^ 53 - 1) * u) := by ring
      _ ≤ m * (2 ^ 53 * (10 ^ k * unit)) := Nat.mul_le_mul_left _ hhigh
      _ = 2 ^ 53 * (m * unit * 10 ^ k) := by ring
  · rw [hnum, hden]
    calc (2 ^ 53 - 1) * (m * unit * 10 ^ k) = m * ((2 ^ 53 - 1) * (10 ^ k * unit)) := by ring
      _ ≤ m * (2 ^ 53 * u) := Nat.mul_le_mul_left _ hlow
      _ = 2 ^ 53 * (m * u) := by ring
  · intro hsmall
    have hsmall : k < 23 := by simpa using hsmall
    rw [hnum, hden, hexact hsmall]
    ring

/-- A decimal of moderate size is read as the number nearest to a quotient near it. -/
theorem rounds_scaled : Rounds Decimal.scaled where
  zero negative := by cases negative <;> decide +kernel
  quotient {d} _ hdigits hexponent := by
    have hsignificand := units_significand hdigits
    obtain ⟨m, e⟩ := d
    simp only at hdigits hexponent hsignificand
    rcases Int.lt_or_le e 0 with hneg | hnonneg
    · obtain ⟨k, rfl⟩ := Int.exists_eq_neg_ofNat (Int.le_of_lt hneg)
      have hk : k ≤ lastTenPower := by omega
      -- no more than one power of ten is needed, so that only one operation rounds
      have hrounds : (k - 1) / lastTenPower = 0 :=
        Nat.div_eq_of_lt (by unfold lastTenPower at *; omega)
      refine ⟨_, _, near_of_neg hk, fun negative => ?_⟩
      unfold scaled
      simp only [Int.neg_neg, Int.toNat_natCast, hrounds, if_pos hneg, Nat.zero_mul, Nat.sub_zero,
        Binary64.downBy]
      rw [Binary.div, magnitude_nearest interchange_binary64, hsignificand, Binary.nearest]
    · obtain ⟨k, rfl⟩ := Int.eq_ofNat_of_zero_le hnonneg
      have hk : k ≤ lastTenPower := by omega
      refine ⟨_, _, near_of_nonneg hk, fun negative => ?_⟩
      unfold scaled
      simp only [Int.toNat_natCast, if_neg (Int.not_lt.2 hnonneg)]
      rw [if_pos hk, Binary.mul, magnitude_nearest interchange_binary64,
        hsignificand, Binary.nearest]

/-! ### Overflow

A product of two numbers that were rounded is off by two parts in `2 ^ 53` at most.  Two steps below
the bound of overflow that does not reach it, and a quotient by a power of ten is nowhere near. -/

/-- Every power of ten is at least one. -/
theorem le_units_tenPower (k : Nat) :
    2 ^ binary64.scale ≤ binary64.units (Binary64.tenPower k).magnitude := by
  obtain ⟨g, hfinite, hunits⟩ :=
    exists_units interchange_binary64 (c := 1) (k := binary64.scale) (by decide) (by decide)
  rw [Nat.one_mul] at hunits
  have hle : binary64.units g * 1 ≤ 10 ^ k * 2 ^ binary64.scale := by
    rw [hunits, Nat.mul_comm]
    exact Nat.mul_le_mul_right _ (Nat.pow_pos (by decide))
  rw [Binary64.tenPower, magnitude_nearest interchange_binary64, ← hunits]
  exact binary64.units_strictMono.monotone (Nat.le_min.2
    ⟨le_round interchange_binary64 Nat.one_pos hle, Nat.le_of_lt hfinite⟩)

/-- Division by a power of ten leads to no larger number, -/
theorem magnitude_div_tenPower_le (x : Binary64) (k : Nat) :
    (x.div (Binary64.tenPower k)).magnitude ≤ x.magnitude := by
  have hone := le_units_tenPower k
  have hpos := Nat.lt_of_lt_of_le (Nat.two_pow_pos binary64.scale) hone
  rw [magnitude_div interchange_binary64]
  exact Nat.le_trans (Nat.min_le_left _ _)
    (round_le interchange_binary64 hpos (Nat.mul_le_mul_left _ hone))

/-- however often. -/
theorem magnitude_downBy_le (x : Binary64) (k rounds : Nat) :
    (x.downBy k rounds).magnitude ≤ x.magnitude := by
  induction rounds generalizing x with
  | zero => exact magnitude_div_tenPower_le x k
  | succ rounds ih =>
    rw [Binary64.downBy]
    split
    · exact Nat.le_refl _
    · exact Nat.le_trans (ih _) (magnitude_div_tenPower_le x lastTenPower)

variable {d : Decimal}

/-- A decimal with a significand of 64 bits and a negative exponent is read as a finite number. -/
theorem isFinite_scaled_of_neg (hdigits : d.significand < 2 ^ 64) (hneg : d.exponent < 0)
    (negative : Bool) : (d.scaled negative).isFinite = true := by
  unfold scaled
  simp only [if_pos hneg]
  exact isFinite_ofMagnitude interchange_binary64 _
    (Nat.lt_of_le_of_lt (magnitude_downBy_le _ _ _) (magnitude_nearest_lt hdigits _))

/-- What lies two steps below the bound of overflow stays below it when two factors are off by one
part in `2 ^ 53` each. -/
theorem below_mul {m k ux uk : Nat} (hx : (2 ^ 53 - 1) * ux ≤ 2 ^ 53 * (m * 2 ^ binary64.scale))
    (hk : (2 ^ 53 - 1) * uk ≤ 2 ^ 53 * (k * 2 ^ binary64.scale))
    (h : 2 * (m * k * 2 ^ binary64.scale) ≤ (2 ^ 54 - 5) * 2 ^ binary64.maxShift) :
    binary64.Below (ux * uk) (2 ^ binary64.scale * 2 ^ binary64.scale) := by
  have hunit : 0 < 2 ^ binary64.scale := Nat.two_pow_pos _
  have hstep : 0 < 2 ^ binary64.maxShift := Nat.two_pow_pos _
  have hoverflow : binary64.overflow = (2 ^ 54 - 1) * 2 ^ binary64.maxShift := by
    decide +kernel
  unfold Below
  rw [hoverflow]
  generalize 2 ^ binary64.scale = unit at *
  generalize 2 ^ binary64.maxShift = step at *
  -- two factors of `2 ^ 53 / (2 ^ 53 - 1)` are less than what two steps leave
  apply Nat.lt_of_mul_lt_mul_left (a := (2 ^ 53 - 1) * (2 ^ 53 - 1))
  calc (2 ^ 53 - 1) * (2 ^ 53 - 1) * (2 * (ux * uk * unit))
      = (2 ^ 53 - 1) * ux * ((2 ^ 53 - 1) * uk) * (2 * unit) := by ring
    _ ≤ 2 ^ 53 * (m * unit) * (2 ^ 53 * (k * unit)) * (2 * unit) :=
        Nat.mul_le_mul_right _ (Nat.mul_le_mul hx hk)
    _ = 2 ^ 106 * (2 * (m * k * unit)) * (unit * unit) := by ring
    _ ≤ 2 ^ 106 * ((2 ^ 54 - 5) * step) * (unit * unit) :=
        Nat.mul_le_mul_right _ (Nat.mul_le_mul_left _ h)
    _ = 2 ^ 106 * (2 ^ 54 - 5) * (step * (unit * unit)) := by ring
    _ < (2 ^ 53 - 1) * (2 ^ 53 - 1) * (2 ^ 54 - 1) * (step * (unit * unit)) :=
        Nat.mul_lt_mul_of_pos_right (by decide) (Nat.mul_pos hstep (Nat.mul_pos hunit hunit))
    _ = (2 ^ 53 - 1) * (2 ^ 53 - 1) * ((2 ^ 54 - 1) * step * (unit * unit)) := by ring

/-- A decimal two steps below the bound of overflow is read as a finite number. -/
theorem isFinite_scaled (hpos : 0 < d.significand) (hdigits : d.significand < 2 ^ 64)
    (h : 2 * (d.num * 2 ^ binary64.scale) ≤ (2 ^ 54 - 5) * 2 ^ binary64.maxShift * d.den)
    (negative : Bool) : (d.scaled negative).isFinite = true := by
  -- a quotient by a power of ten does not overflow, a product might
  rcases Int.lt_or_le d.exponent 0 with hneg | hnonneg
  · exact isFinite_scaled_of_neg hdigits hneg negative
  have hden : d.den = 1 := by
    rw [den, Int.toNat_of_nonpos (by omega), Nat.pow_zero]
  rw [hden, Nat.mul_one, num] at h
  -- beyond the last power of ten even the digit one is above the bound
  have hup : d.exponent.toNat ≤ lastTenPower := by
    refine Nat.not_lt.1 fun hlt => ?_
    have hpower : 1 * 10 ^ (lastTenPower + 1) ≤ d.significand * 10 ^ d.exponent.toNat :=
      Nat.mul_le_mul hpos (Nat.pow_le_pow_right (by decide) hlt)
    have hlarge : (2 ^ 54 - 5) * 2 ^ binary64.maxShift <
        2 * (1 * 10 ^ (lastTenPower + 1) * 2 ^ binary64.scale) := by
      decide +kernel
    exact absurd h (Nat.not_le.2 (Nat.lt_of_lt_of_le hlarge
      (Nat.mul_le_mul_left _ (Nat.mul_le_mul_right _ hpower))))
  have hunits : 0 < 2 ^ binary64.scale * 2 ^ binary64.scale :=
    Nat.mul_pos (Nat.two_pow_pos _) (Nat.two_pow_pos _)
  have hbelow := below_mul (units_nearest_near hpos (below_of_lt hdigits)).2
    (units_nearest_near (Nat.pow_pos (by decide)) (below_tenPower hup)).2 h
  unfold scaled
  simp only [if_neg (Int.not_lt.2 hnonneg), if_pos hup]
  apply isFinite_ofMagnitude interchange_binary64
  rw [magnitude_mul interchange_binary64]
  exact Nat.lt_of_le_of_lt (Nat.min_le_left _ _)
    (round_lt_infinity interchange_binary64 hunits hbelow)

/-- Of the shortest decimals only those of the two largest numbers lie nearer to that bound.  They
are read as finite numbers. -/
theorem isFinite_scaled_largest : ∀ i < 2, ∀ negative,
    ((binary64.shortest (binary64.infinity - 1 - i)).scaled negative).isFinite = true := by
  decide +kernel

/-- The shortest decimal of a finite number does not overflow when it is scaled. -/
theorem isFinite_scaled_shortest {g : Nat} (hpos : 0 < g) (hfinite : g < binary64.infinity)
    (negative : Bool) : ((binary64.shortest g).scaled negative).isFinite = true := by
  rcases Nat.lt_or_ge (binary64.infinity - 3) g with hlast | hle
  · have h := isFinite_scaled_largest (binary64.infinity - 1 - g) (by omega) negative
    rw [Nat.sub_sub_self (by omega)] at h
    exact h
  -- the interval of any other number ends two steps below the bound
  · have hdigits := shortest_le interchange_binary64 hpos (k := 16) (by decide) (by decide)
    have hhigh := (Interval.le_of_holds (shortest_holds interchange_binary64 hpos)).2.1
    have hnum : ∀ n, n * (4 * 2 ^ binary64.scale) = 2 * (2 * (n * 2 ^ binary64.scale)) :=
      fun n => by ring
    rw [interval_high, Nat.mul_assoc, hnum] at hhigh
    have hmiddle := Nat.mul_le_mul_right (binary64.shortest g).den
      ((midpoint_strictMono binary64).monotone hle)
    have hbound : binary64.midpoint (binary64.infinity - 3) =
        (2 ^ 54 - 5) * 2 ^ binary64.maxShift := by
      decide +kernel
    rw [hbound] at hmiddle
    exact isFinite_scaled (shortest_pos interchange_binary64 hpos)
      (Nat.lt_of_le_of_lt hdigits (by decide))
      (Nat.le_trans (Nat.le_of_mul_le_mul_left hhigh (by decide)) hmiddle) negative

end Decimal

end TaggedWire
