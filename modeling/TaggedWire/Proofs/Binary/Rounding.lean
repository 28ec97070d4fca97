import TaggedWire.Binary.Decimal
import Mathlib.Order.Monotone.Basic
import Mathlib.Tactic.Ring

/-!
# Rounding finds the nearest magnitude

In the order of their magnitudes the numbers of a format grow, each by a step that is a power of
two.  A quotient lies at a number or between two neighbours, and rounding takes the nearer of these;
halfway between them it takes the even one.  Half a step beyond the largest finite number lies the
bound at which rounding overflows.

* `Format.le_round`, `Format.round_le`: rounding keeps the order of quotients and numbers.
* `Format.round_near`: it is off by at most half a step.
* `Format.round_lt_infinity`: below the bound of overflow the nearest magnitude is finite.
* `isFinite_ofInt`: the number nearest to an integer of 64 bits is finite.
-/

namespace TaggedWire.Binary

/-! ### Interchange formats

What is used of a format: it has significands of two bits at least and room for exponents, and
sixteen digits are enough to tell its significands. -/

/-- A format whose numbers have normal significands and normal exponents, and are told apart by 17
decimal digits. -/
structure Format.Interchange (f : Format) : Prop where
  precision : 1 < f.precision
  exponentBits : 2 ≤ f.exponentBits
  digits : 2 ^ f.precision ≤ 10 ^ 16

theorem Format.interchange_binary32 : Format.binary32.Interchange :=
  ⟨by decide, by decide, by decide⟩

theorem Format.interchange_binary64 : Format.binary64.Interchange :=
  ⟨by decide, by decide, by decide⟩

/-- Binary places by which the significand of the largest finite numbers is shifted up. -/
def Format.maxShift (f : Format) : Nat := 2 ^ f.exponentBits - 3

/-- Half a step beyond the largest finite number, counted in halves of the unit. -/
def Format.overflow (f : Format) : Nat := (4 * f.hidden - 1) * 2 ^ f.maxShift

namespace Format

variable {f : Format} {magnitude : Nat}

theorem Interchange.two_pow_precision (hf : f.Interchange) : 2 ^ f.precision = 2 * f.hidden := by
  rw [hidden, ← Nat.pow_succ', Nat.succ_eq_add_one, Nat.sub_add_cancel (Nat.le_of_lt hf.precision)]

theorem Interchange.infinity_eq (hf : f.Interchange) :
    f.infinity = (f.maxShift + 2) * f.hidden := by
  have hbits : 2 ^ 2 ≤ 2 ^ f.exponentBits := Nat.pow_le_pow_right (by decide) hf.exponentBits
  rw [infinity, maxShift]
  congr 1
  omega

/-! ### Magnitudes and their units

The magnitude of a number is its place in the order of numbers.  In units of the least positive one
it stands for its significand, shifted by its exponent. -/

theorem significand_pos (hpos : 0 < magnitude) : 0 < f.significand magnitude := by
  unfold significand
  split
  · exact hpos
  · exact Nat.add_pos_left f.hidden_pos _

theorem significand_lt (f : Format) (magnitude : Nat) :
    f.significand magnitude < 2 * f.hidden := by
  unfold significand
  have := Nat.mod_lt magnitude f.hidden_pos
  split <;> omega

theorem Interchange.shift_le (hf : f.Interchange) (h : magnitude < f.infinity) :
    f.shift magnitude ≤ f.maxShift := by
  rw [hf.infinity_eq] at h
  have := Nat.div_lt_of_lt_mul (Nat.mul_comm _ _ ▸ h)
  unfold shift
  omega

/-- A magnitude with a significand of full length. -/
theorem significand_add (f : Format) (k : Nat) {r : Nat} (hr : r < f.hidden) :
    f.significand ((k + 1) * f.hidden + r) = f.hidden + r ∧
      f.shift ((k + 1) * f.hidden + r) = k := by
  have hlarge : ¬(k + 1) * f.hidden + r < f.hidden := by
    rw [Nat.add_mul, Nat.one_mul]
    omega
  have hmod : ((k + 1) * f.hidden + r) % f.hidden = r := by
    rw [Nat.mul_add_mod_self_right, Nat.mod_eq_of_lt hr]
  have hdiv : ((k + 1) * f.hidden + r) / f.hidden = k + 1 := by
    rw [Nat.mul_comm, Nat.mul_add_div f.hidden_pos, Nat.div_eq_of_lt hr, Nat.add_zero]
  rw [significand, if_neg hlarge, hmod, shift, hdiv]
  exact ⟨rfl, rfl⟩

/-- A shift and a significand make a magnitude.  The significand may also be that of the next power
of two, which carries. -/
theorem units_shift_add (f : Format) {k c : Nat} (hc : c ≤ 2 * f.hidden)
    (hk : k = 0 ∨ f.hidden ≤ c) : f.units (k * f.hidden + c) = c * 2 ^ k := by
  rcases Nat.lt_or_ge c f.hidden with hlt | hge
  · obtain rfl : k = 0 := by omega
    rw [Nat.zero_mul, Nat.zero_add, units_lt hlt, Nat.pow_zero, Nat.mul_one]
  · obtain ⟨r, rfl⟩ := Nat.exists_eq_add_of_le hge
    have hsplit : k * f.hidden + (f.hidden + r) = (k + 1) * f.hidden + r := by ring
    rw [hsplit]
    rcases Nat.lt_or_ge r f.hidden with hr | hr
    · obtain ⟨hsignificand, hshift⟩ := f.significand_add k hr
      rw [units, hsignificand, hshift]
    · obtain rfl : r = f.hidden := by omega
      obtain ⟨hsignificand, hshift⟩ := f.significand_add (k + 1) f.hidden_pos
      have hcarry : (k + 1) * f.hidden + f.hidden = (k + 1 + 1) * f.hidden + 0 := by ring
      rw [hcarry, units, hsignificand, hshift]
      ring

/-- Every magnitude is made so. -/
theorem shift_add_significand (f : Format) (g : Nat) :
    f.shift g * f.hidden + f.significand g = g := by
  have hsplit := Nat.div_add_mod' g f.hidden
  unfold significand shift
  split
  · next hlt =>
    rw [Nat.div_eq_of_lt hlt]
    omega
  · next hge =>
    obtain ⟨k, hk⟩ := Nat.exists_eq_add_of_le' (Nat.div_pos (Nat.not_lt.1 hge) f.hidden_pos)
    rw [hk, Nat.add_mul, Nat.one_mul] at hsplit
    rw [hk, Nat.add_sub_cancel]
    omega

theorem normal_or_shift (f : Format) (g : Nat) : f.shift g = 0 ∨ f.hidden ≤ f.significand g := by
  unfold significand shift
  split
  · next hlt => exact .inl (by rw [Nat.div_eq_of_lt hlt])
  · exact .inr (Nat.le_add_right _ _)

/-- The next magnitude is one step larger. -/
theorem units_succ (f : Format) (g : Nat) :
    f.units (g + 1) = (f.significand g + 1) * 2 ^ f.shift g := by
  have hlt := significand_lt f g
  have hnormal := f.normal_or_shift g
  have h := f.units_shift_add (k := f.shift g) (c := f.significand g + 1) hlt
    (hnormal.imp_right Nat.le_succ_of_le)
  rw [← Nat.add_assoc, shift_add_significand] at h
  exact h

theorem units_lt_succ (f : Format) (g : Nat) : f.units g < f.units (g + 1) := by
  rw [units_succ, units]
  exact Nat.mul_lt_mul_of_pos_right (Nat.lt_succ_self _) (Nat.two_pow_pos _)

theorem units_strictMono (f : Format) : StrictMono f.units :=
  strictMono_nat_of_lt_succ f.units_lt_succ

theorem units_zero (f : Format) : f.units 0 = 0 := units_lt f.hidden_pos

/-- Every whole number of units lies at a magnitude or between two neighbours. -/
theorem exists_units_le (f : Format) (n : Nat) : ∃ g, f.units g ≤ n ∧ n < f.units (g + 1) := by
  induction n with
  | zero =>
    have hlt := f.units_lt_succ 0
    rw [units_zero] at hlt
    exact ⟨0, Nat.le_of_eq f.units_zero, hlt⟩
  | succ n ih =>
    obtain ⟨g, hle, hlt⟩ := ih
    rcases Nat.lt_or_eq_of_le (Nat.succ_le_of_lt hlt) with h | h
    · exact ⟨g, Nat.le_succ_of_le hle, h⟩
    · exact ⟨g + 1, Nat.le_of_eq h.symm, h.trans_lt (f.units_lt_succ (g + 1))⟩

/-- Twice the number of units halfway between a magnitude and the next. -/
def midpoint (f : Format) (g : Nat) : Nat := (2 * f.significand g + 1) * 2 ^ f.shift g

theorem midpoint_eq (f : Format) (g : Nat) : f.midpoint g = f.units g + f.units (g + 1) := by
  rw [units_succ, units, midpoint]
  ring

theorem midpoint_strictMono (f : Format) : StrictMono f.midpoint := by
  intro g h hlt
  rw [midpoint_eq, midpoint_eq]
  exact Nat.add_lt_add (f.units_strictMono hlt) (f.units_strictMono (Nat.succ_lt_succ hlt))

/-- The shift grows where the significand starts again, but not at the least one of full length. -/
theorem shift_succ (f : Format) (g : Nat) :
    f.shift (g + 1) =
      if f.significand (g + 1) = f.hidden ∧ 0 < f.shift (g + 1) then f.shift g + 1
      else f.shift g := by
  have hhidden := f.hidden_pos
  have hdiv := Nat.succ_div (a := g) (b := f.hidden)
  -- the exponent changes where the significand starts anew
  have hstarts : f.hidden ∣ g + 1 ↔ f.significand (g + 1) = f.hidden := by
    unfold significand
    split
    · next hlt =>
      refine ⟨fun h => ?_, fun h => absurd h (Nat.ne_of_lt hlt)⟩
      exact absurd (Nat.le_of_dvd (Nat.succ_pos g) h) (Nat.not_le.2 hlt)
    · rw [Nat.dvd_iff_mod_eq_zero]
      omega
  unfold shift
  by_cases h : f.hidden ∣ g + 1
  · rw [if_pos h] at hdiv
    simp only [hstarts.1 h, true_and]
    split <;> omega
  · rw [if_neg h] at hdiv
    rw [if_neg fun hboth => h (hstarts.2 hboth.1)]
    omega

/-- A magnitude is even when its significand is. -/
theorem significand_mod_two (hf : f.Interchange) (g : Nat) : f.significand g % 2 = g % 2 := by
  have heven : f.hidden % 2 = 0 := by
    rw [hidden, Nat.pow_mod, Nat.mod_self, Nat.zero_pow (Nat.sub_pos_of_lt hf.precision)]
  have hsplit := f.shift_add_significand g
  have hmul : f.shift g * f.hidden % 2 = 0 := by rw [Nat.mul_mod, heven, Nat.mul_zero]
  omega

/-- Whole numbers that fit the precision, shifted as far as the largest finite number, are numbers
of the format.  By induction on the shift: a significand that is not full takes a place of it. -/
theorem exists_units (hf : f.Interchange) {c k : Nat} (hc : c < 2 ^ f.precision)
    (hk : k ≤ f.maxShift) : ∃ g, g < f.infinity ∧ f.units g = c * 2 ^ k := by
  rw [hf.two_pow_precision] at hc
  rw [hf.infinity_eq]
  have hlt : ∀ j, j ≤ k → j * f.hidden + 2 * f.hidden ≤ (f.maxShift + 2) * f.hidden := by
    intro j hj
    rw [← Nat.add_mul]
    exact Nat.mul_le_mul_right _ (by omega)
  -- by induction on the shift: a significand that is not full can be doubled instead
  induction k generalizing c with
  | zero =>
    have h := f.units_shift_add (k := 0) (Nat.le_of_lt hc) (.inl rfl)
    have := hlt 0 (Nat.le_refl 0)
    exact ⟨0 * f.hidden + c, by omega, h⟩
  | succ k ih =>
    rcases Nat.lt_or_ge c f.hidden with hsmall | hfull
    · obtain ⟨g, hg, hunits⟩ := ih (c := 2 * c) (by omega) (by omega)
        fun j hj => hlt j (Nat.le_succ_of_le hj)
      exact ⟨g, hg, by rw [hunits, Nat.pow_succ]; ring⟩
    · have := hlt (k + 1) (Nat.le_refl _)
      exact ⟨(k + 1) * f.hidden + c, by omega, f.units_shift_add (Nat.le_of_lt hc) (.inr hfull)⟩

end Format

/-! ### Rounding

A quotient lies between the units of two magnitudes that follow each other.  The bits that rounding
drops are those below the lower one's significand. -/

theorem roundDiv_of_lt {num den c : Nat} (hlow : c * den ≤ num) (h : 2 * num < (2 * c + 1) * den) :
    roundDiv num den = c := by
  have hnext : (2 * c + 1) * den = 2 * (c * den) + den := by ring
  have hquotient : num / den = c := by
    apply Nat.div_eq_of_lt_le hlow
    rw [Nat.succ_mul]
    omega
  have hsplit := Nat.div_add_mod' num den
  rw [hquotient] at hsplit
  unfold roundDiv
  simp only [hquotient]
  rw [if_pos (by omega)]

theorem roundDiv_of_gt {num den c : Nat} (h : (2 * c + 1) * den < 2 * num)
    (hhigh : num < (c + 1) * den) : roundDiv num den = c + 1 := by
  have hnext : (2 * c + 1) * den = 2 * (c * den) + den := by ring
  have hquotient : num / den = c := Nat.div_eq_of_lt_le (by omega) hhigh
  have hsplit := Nat.div_add_mod' num den
  rw [hquotient] at hsplit
  unfold roundDiv
  simp only [hquotient]
  rw [if_neg (by omega), if_pos (by omega)]

theorem roundDiv_of_eq {num den c : Nat} (hden : 0 < den) (h : 2 * num = (2 * c + 1) * den) :
    roundDiv num den = c + c % 2 := by
  have hnext : (2 * c + 1) * den = 2 * (c * den) + den := by ring
  have hquotient : num / den = c := by
    apply Nat.div_eq_of_lt_le (by omega)
    rw [Nat.succ_mul]
    omega
  have hsplit := Nat.div_add_mod' num den
  rw [hquotient] at hsplit
  unfold roundDiv
  simp only [hquotient]
  rw [if_neg (by omega), if_neg (by omega)]

theorem bitLength_le {n k : Nat} (h : n < 2 ^ k) : bitLength n ≤ k := by
  unfold bitLength
  split
  · omega
  · next hne => exact (Nat.log2_lt hne).2 h

theorem bitLength_eq {n k : Nat} (hlow : 2 ^ k ≤ n) (hhigh : n < 2 ^ (k + 1)) :
    bitLength n = k + 1 := by
  have hne : n ≠ 0 := Nat.ne_of_gt (Nat.lt_of_lt_of_le (Nat.two_pow_pos k) hlow)
  rw [bitLength, if_neg hne, (Nat.log2_eq_iff hne).2 ⟨hlow, hhigh⟩]

namespace Format

variable {f : Format} {g num den : Nat}

/-- Between two neighbours as many places are dropped as the lower one is shifted. -/
theorem dropped_eq (hf : f.Interchange) {n : Nat} (hlow : f.units g ≤ n)
    (hhigh : n < f.units (g + 1)) : bitLength n - f.precision = f.shift g := by
  have hprecision := hf.two_pow_precision
  have hlt := significand_lt f g
  rw [units_succ] at hhigh
  have hbound : n < 2 ^ (f.precision + f.shift g) := by
    rw [Nat.pow_add, hprecision]
    exact Nat.lt_of_lt_of_le hhigh (Nat.mul_le_mul_right _ hlt)
  -- without a shift nothing is dropped, else the number of bits is known exactly
  rcases f.normal_or_shift g with hzero | hnormal
  · rw [hzero] at hbound ⊢
    exact Nat.sub_eq_zero_of_le (bitLength_le hbound)
  · obtain ⟨p, hp⟩ : ∃ p, f.precision = p + 1 :=
      ⟨_, (Nat.sub_add_cancel (Nat.le_of_lt hf.precision)).symm⟩
    have hleast : 2 ^ (p + f.shift g) ≤ n := by
      rw [Nat.pow_add]
      refine Nat.le_trans (Nat.mul_le_mul_right _ ?_) hlow
      rw [hidden, hp, Nat.add_sub_cancel] at hnormal
      exact hnormal
    have hexact := bitLength_eq hleast (by rw [hp, Nat.add_right_comm] at hbound; exact hbound)
    omega

/-- A quotient between two neighbours is rounded on the grid of the lower one. -/
theorem round_between (hf : f.Interchange) (hden : 0 < den)
    (hlow : f.units g * den ≤ num * 2 ^ f.scale)
    (hhigh : num * 2 ^ f.scale < f.units (g + 1) * den) :
    f.round num den =
      f.shift g * f.hidden + roundDiv (num * 2 ^ f.scale) (den * 2 ^ f.shift g) := by
  have hdropped := dropped_eq hf ((Nat.le_div_iff_mul_le hden).2 hlow)
    ((Nat.div_lt_iff_lt_mul hden).2 hhigh)
  unfold round
  simp only [hdropped]

/-- Below the midpoint a quotient is rounded down, -/
theorem round_of_lt_midpoint (hf : f.Interchange) (hden : 0 < den)
    (hlow : f.units g * den ≤ num * 2 ^ f.scale)
    (h : 2 * (num * 2 ^ f.scale) < f.midpoint g * den) : f.round num den = g := by
  have hnext := Nat.mul_lt_mul_of_pos_right (f.units_lt_succ g) hden
  rw [midpoint_eq, Nat.add_mul] at h
  rw [round_between hf hden hlow (by omega), roundDiv_of_lt (c := f.significand g),
    shift_add_significand]
  · calc f.significand g * (den * 2 ^ f.shift g) = f.units g * den := by rw [units]; ring
      _ ≤ num * 2 ^ f.scale := hlow
  · calc 2 * (num * 2 ^ f.scale) < f.units g * den + f.units (g + 1) * den := h
      _ = (2 * f.significand g + 1) * (den * 2 ^ f.shift g) := by rw [units_succ, units]; ring

/-- above it up, -/
theorem round_of_midpoint_lt (hf : f.Interchange) (hden : 0 < den)
    (h : f.midpoint g * den < 2 * (num * 2 ^ f.scale))
    (hhigh : num * 2 ^ f.scale < f.units (g + 1) * den) : f.round num den = g + 1 := by
  have hnext := Nat.mul_lt_mul_of_pos_right (f.units_lt_succ g) hden
  rw [midpoint_eq, Nat.add_mul] at h
  rw [round_between hf hden (by omega) hhigh, roundDiv_of_gt (c := f.significand g),
    ← Nat.add_assoc, shift_add_significand]
  · calc (2 * f.significand g + 1) * (den * 2 ^ f.shift g)
        = f.units g * den + f.units (g + 1) * den := by rw [units_succ, units]; ring
      _ < 2 * (num * 2 ^ f.scale) := h
  · calc num * 2 ^ f.scale < f.units (g + 1) * den := hhigh
      _ = (f.significand g + 1) * (den * 2 ^ f.shift g) := by rw [units_succ]; ring

/-- and at it to the even of the two. -/
theorem round_of_eq_midpoint (hf : f.Interchange) (hden : 0 < den)
    (h : 2 * (num * 2 ^ f.scale) = f.midpoint g * den) :
    f.round num den = g + f.significand g % 2 := by
  have hnext := Nat.mul_lt_mul_of_pos_right (f.units_lt_succ g) hden
  have hsplit : f.midpoint g * den = f.units g * den + f.units (g + 1) * den := by
    rw [midpoint_eq, Nat.add_mul]
  rw [round_between (g := g) hf hden (by omega) (by omega), roundDiv_of_eq (c := f.significand g),
    ← Nat.add_assoc, shift_add_significand]
  · exact Nat.mul_pos hden (Nat.two_pow_pos _)
  · rw [h, midpoint]
    ring

/-- Every quotient lies at a magnitude or between two neighbours, and is rounded to the nearer of
these. -/
theorem exists_round (hf : f.Interchange) (num : Nat) (hden : 0 < den) :
    ∃ g, f.units g * den ≤ num * 2 ^ f.scale ∧ num * 2 ^ f.scale < f.units (g + 1) * den ∧
      ((f.round num den = g ∧ 2 * (num * 2 ^ f.scale) ≤ f.midpoint g * den) ∨
        (f.round num den = g + 1 ∧ f.midpoint g * den ≤ 2 * (num * 2 ^ f.scale))) := by
  obtain ⟨g, hlow, hhigh⟩ := f.exists_units_le (num * 2 ^ f.scale / den)
  rw [Nat.le_div_iff_mul_le hden] at hlow
  rw [Nat.div_lt_iff_lt_mul hden] at hhigh
  refine ⟨g, hlow, hhigh, ?_⟩
  rcases Nat.lt_trichotomy (2 * (num * 2 ^ f.scale)) (f.midpoint g * den) with h | h | h
  · exact .inl ⟨round_of_lt_midpoint hf hden hlow h, Nat.le_of_lt h⟩
  · have hround := round_of_eq_midpoint hf hden h
    rcases Nat.mod_two_eq_zero_or_one (f.significand g) with heven | hodd
    · exact .inl ⟨by rw [hround, heven, Nat.add_zero], Nat.le_of_eq h⟩
    · exact .inr ⟨by rw [hround, hodd], Nat.le_of_eq h.symm⟩
  · exact .inr ⟨round_of_midpoint_lt hf hden h hhigh, Nat.le_of_lt h⟩

/-- What is not below a number is not rounded below it. -/
theorem le_round (hf : f.Interchange) (hden : 0 < den)
    (h : f.units g * den ≤ num * 2 ^ f.scale) : g ≤ f.round num den := by
  obtain ⟨p, -, hhigh, hround⟩ := exists_round hf num hden
  have hunits := Nat.lt_of_mul_lt_mul_right (Nat.lt_of_le_of_lt h hhigh)
  have hlt := f.units_strictMono.lt_iff_lt.1 hunits
  omega

/-- What is not above a number is not rounded above it. -/
theorem round_le (hf : f.Interchange) (hden : 0 < den)
    (h : num * 2 ^ f.scale ≤ f.units g * den) : f.round num den ≤ g := by
  obtain ⟨p, hlow, -, hround⟩ := exists_round hf num hden
  rcases Nat.lt_or_ge p g with hlt | hge
  · omega
  · -- then the quotient is the number itself
    have hunits := Nat.le_of_mul_le_mul_right (Nat.le_trans hlow h) hden
    obtain rfl := Nat.le_antisymm (f.units_strictMono.le_iff_le.1 hunits) hge
    have hnext := Nat.mul_lt_mul_of_pos_right (f.units_lt_succ p) hden
    have hbelow : 2 * (num * 2 ^ f.scale) < f.midpoint p * den := by
      rw [midpoint_eq, Nat.add_mul]
      omega
    exact Nat.le_of_eq (round_of_lt_midpoint hf hden hlow hbelow)

theorem round_units (hf : f.Interchange) (hden : 0 < den)
    (h : num * 2 ^ f.scale = f.units g * den) : f.round num den = g :=
  Nat.le_antisymm (round_le hf hden (Nat.le_of_eq h)) (le_round hf hden (Nat.le_of_eq h.symm))

/-- Rounding is off by at most half a step, and a step is one part in `hidden` of the number unless
that is too small to have a significand of full length. -/
theorem round_near (hf : f.Interchange) (hden : 0 < den)
    (hnormal : f.hidden * den ≤ num * 2 ^ f.scale) :
    (2 ^ f.precision - 1) * (num * 2 ^ f.scale) ≤
        2 ^ f.precision * (f.units (f.round num den) * den) ∧
      (2 ^ f.precision - 1) * (f.units (f.round num den) * den) ≤
        2 ^ f.precision * (num * 2 ^ f.scale) := by
  obtain ⟨g, hlow, hhigh, hround⟩ := exists_round hf num hden
  generalize num * 2 ^ f.scale = x at *
  have hlarge : f.hidden ≤ f.significand g := by
    rcases f.normal_or_shift g with hzero | hfull
    · -- without a shift the significand is the whole number of units
      have hlt := Nat.lt_of_mul_lt_mul_right (Nat.lt_of_le_of_lt hnormal hhigh)
      rw [units_succ, hzero, Nat.pow_zero, Nat.mul_one] at hlt
      exact Nat.lt_succ_iff.1 hlt
    · exact hfull
  have hmiddle : f.midpoint g * den =
      2 * (f.units g * den) + 2 ^ f.shift g * den := by
    rw [midpoint, units]
    ring
  have hnext : f.units (g + 1) * den = f.units g * den + 2 ^ f.shift g * den := by
    rw [units_succ, units]
    ring
  have hstep : f.hidden * (2 ^ f.shift g * den) ≤ f.units g * den := by
    rw [units, Nat.mul_assoc]
    exact Nat.mul_le_mul_right _ hlarge
  rw [hf.two_pow_precision, Nat.sub_one_mul, Nat.sub_one_mul, Nat.mul_assoc, Nat.mul_assoc]
  rw [hnext] at hhigh
  rw [hmiddle] at hround
  -- half a step is at most one part in twice the significand, whichever neighbour is taken
  rcases hround with ⟨hround, hle⟩ | ⟨hround, hle⟩ <;> rw [hround]
  · generalize f.units g * den = y at *
    generalize 2 ^ f.shift g * den = step at *
    have hx := Nat.mul_le_mul_left f.hidden hlow
    have hhalf := Nat.mul_le_mul_left f.hidden hle
    rw [Nat.mul_add, Nat.mul_left_comm, Nat.mul_left_comm f.hidden 2 y] at hhalf
    omega
  · rw [hnext]
    generalize f.units g * den = y at *
    generalize 2 ^ f.shift g * den = step at *
    have hx := Nat.mul_le_mul_left f.hidden (Nat.le_of_lt hhigh)
    have hhalf := Nat.mul_le_mul_left f.hidden hle
    rw [Nat.mul_add, Nat.mul_left_comm f.hidden 2 y, Nat.mul_left_comm f.hidden 2 x] at hhalf
    rw [Nat.mul_add] at hx ⊢
    omega

/-! ### Overflow

The bound is the midpoint between the largest finite number and the one that would follow it. -/

/-- A quotient is below the bound of overflow. -/
def Below (f : Format) (num den : Nat) : Prop := 2 * (num * 2 ^ f.scale) < f.overflow * den

/-- The largest finite magnitude has a significand without a zero. -/
theorem significand_last (hf : f.Interchange) :
    f.significand (f.infinity - 1) = 2 * f.hidden - 1 ∧ f.shift (f.infinity - 1) = f.maxShift := by
  have hhidden := f.hidden_pos
  have hlast : f.infinity - 1 = (f.maxShift + 1) * f.hidden + (f.hidden - 1) := by
    rw [hf.infinity_eq, Nat.add_mul, Nat.add_mul]
    omega
  obtain ⟨hsignificand, hshift⟩ := f.significand_add f.maxShift (r := f.hidden - 1) (by omega)
  rw [hlast]
  exact ⟨by omega, hshift⟩

/-- The bound lies halfway between the largest finite magnitude and that of infinity. -/
theorem overflow_eq (hf : f.Interchange) : f.overflow = f.midpoint (f.infinity - 1) := by
  have hhidden := f.hidden_pos
  obtain ⟨hsignificand, hshift⟩ := significand_last hf
  rw [overflow, midpoint, hsignificand, hshift]
  congr 1
  omega

theorem Interchange.infinity_pos (hf : f.Interchange) : 0 < f.infinity := by
  rw [hf.infinity_eq]
  exact Nat.mul_pos (Nat.succ_pos _) f.hidden_pos

theorem round_lt_infinity (hf : f.Interchange) (hden : 0 < den) (h : f.Below num den) :
    f.round num den < f.infinity := by
  have hinfinity := hf.infinity_pos
  obtain ⟨g, hlow, -, hround⟩ := exists_round hf num hden
  unfold Below at h
  rw [overflow_eq hf] at h
  rcases hround with ⟨hround, -⟩ | ⟨hround, hle⟩ <;> rw [hround]
  · -- the number below the quotient is below the midpoint under infinity
    have hmiddle : 2 * f.units g < f.units (f.infinity - 1) + f.units (f.infinity - 1 + 1) := by
      rw [← midpoint_eq]
      apply Nat.lt_of_mul_lt_mul_right (a := den)
      rw [Nat.mul_assoc]
      omega
    have hnext := f.units_lt_succ (f.infinity - 1)
    rw [Nat.sub_add_cancel hinfinity] at hmiddle hnext
    exact f.units_strictMono.lt_iff_lt.1 (by omega)
  -- rounded up, it has passed a midpoint, which is below the one under infinity
  · have hlt := Nat.lt_of_mul_lt_mul_right (Nat.lt_of_le_of_lt hle h)
    have := f.midpoint_strictMono.lt_iff_lt.1 hlt
    omega

end Format

/-! ### Patterns

A pattern of bits is a sign and a magnitude. -/

section Pattern

variable {f : Format}

theorem Format.Interchange.infinity_lt (hf : f.Interchange) : f.infinity < 2 ^ (f.width - 1) := by
  have hprecision := hf.precision
  have hwidth : f.width - 1 = f.exponentBits + (f.precision - 1) := by
    rw [Format.width]
    omega
  rw [Format.infinity, hwidth, Nat.pow_add]
  exact Nat.mul_lt_mul_of_pos_right (Nat.sub_lt (Nat.two_pow_pos _) (by decide)) f.hidden_pos

theorem Format.Interchange.two_pow_width (hf : f.Interchange) :
    2 ^ f.width = 2 * 2 ^ (f.width - 1) := by
  have hprecision := hf.precision
  rw [← Nat.pow_succ']
  congr 1
  rw [Format.width]
  omega

theorem magnitude_ofMagnitude (hf : f.Interchange) (negative : Bool) {m : Nat}
    (h : m < 2 ^ (f.width - 1)) : (ofMagnitude negative m : Binary f).magnitude = m := by
  show ((if negative then 2 ^ (f.width - 1) else 0) + m) % 2 ^ f.width % 2 ^ (f.width - 1) = m
  rw [Nat.mod_mod_of_dvd _ ⟨2, by rw [hf.two_pow_width, Nat.mul_comm]⟩]
  split
  · rw [Nat.add_mod_left, Nat.mod_eq_of_lt h]
  · rw [Nat.zero_add, Nat.mod_eq_of_lt h]

theorem negative_ofMagnitude (hf : f.Interchange) (negative : Bool) {m : Nat}
    (h : m < 2 ^ (f.width - 1)) : (ofMagnitude negative m : Binary f).negative = negative := by
  have hwidth := hf.two_pow_width
  show decide (2 ^ (f.width - 1) ≤
    ((if negative then 2 ^ (f.width - 1) else 0) + m) % 2 ^ f.width) = negative
  cases negative
  · simp only [Bool.false_eq_true, if_false, Nat.zero_add]
    rw [Nat.mod_eq_of_lt (by omega)]
    exact decide_eq_false (Nat.not_le.2 h)
  · simp only [if_true]
    rw [Nat.mod_eq_of_lt (by omega)]
    exact decide_eq_true (Nat.le_add_right _ _)

/-- A pattern is its sign and its magnitude. -/
theorem ofMagnitude_magnitude (hf : f.Interchange) (x : Binary f) :
    ofMagnitude x.negative x.magnitude = x := by
  have hwidth := hf.two_pow_width
  have hlt := x.bits.isLt
  obtain ⟨bits⟩ := x
  unfold ofMagnitude negative magnitude
  congr 1
  apply BitVec.eq_of_toNat_eq
  rw [BitVec.toNat_ofNat]
  simp only at hlt
  have hsplit := Nat.div_add_mod' bits.toNat (2 ^ (f.width - 1))
  have hquotient : bits.toNat / 2 ^ (f.width - 1) < 2 := by
    rw [Nat.div_lt_iff_lt_mul (Nat.two_pow_pos _)]
    omega
  -- the first bit is the sign
  by_cases h : 2 ^ (f.width - 1) ≤ bits.toNat
  · have hone : bits.toNat / 2 ^ (f.width - 1) = 1 := by
      have := Nat.div_pos h (Nat.two_pow_pos _)
      omega
    rw [hone, Nat.one_mul] at hsplit
    simp only [h, decide_true, if_true]
    rw [hsplit, Nat.mod_eq_of_lt hlt]
  · simp only [h, decide_false, Bool.false_eq_true, if_false, Nat.zero_add]
    rw [Nat.mod_eq_of_lt (Nat.lt_of_not_le h), Nat.mod_eq_of_lt hlt]

theorem magnitude_nearest (hf : f.Interchange) (negative : Bool) (num den : Nat) :
    (nearest negative num den : Binary f).magnitude = min (f.round num den) f.infinity :=
  magnitude_ofMagnitude hf negative (Nat.lt_of_le_of_lt (Nat.min_le_right _ _) hf.infinity_lt)

theorem magnitude_mul (hf : f.Interchange) (x y : Binary f) :
    (x.mul y).magnitude = min (f.round (f.units x.magnitude * f.units y.magnitude)
      (2 ^ f.scale * 2 ^ f.scale)) f.infinity :=
  magnitude_nearest hf _ _ _

theorem magnitude_div (hf : f.Interchange) (x y : Binary f) :
    (x.div y).magnitude = min (f.round (f.units x.magnitude) (f.units y.magnitude)) f.infinity :=
  magnitude_nearest hf _ _ _

theorem isFinite_ofMagnitude (hf : f.Interchange) (negative : Bool) {m : Nat}
    (h : m < f.infinity) : (ofMagnitude negative m : Binary f).isFinite = true := by
  rw [isFinite, magnitude_ofMagnitude hf negative (Nat.lt_trans h hf.infinity_lt)]
  exact decide_eq_true h

end Pattern

/-! ### Numbers of 64 bits

Integers that fit are far below the bound of overflow. -/

/-- Whole numbers that 64 bits hold are far below the bound of overflow. -/
theorem below_of_lt {n : Nat} (h : n < 2 ^ 64) : Format.binary64.Below n 1 := by
  have hbound : 2 * (2 ^ 64 * 2 ^ Format.binary64.scale) < Format.binary64.overflow * 1 := by
    decide +kernel
  have hle : n * 2 ^ Format.binary64.scale ≤ 2 ^ 64 * 2 ^ Format.binary64.scale :=
    Nat.mul_le_mul_right _ (Nat.le_of_lt h)
  exact Nat.lt_of_le_of_lt (Nat.mul_le_mul_left 2 hle) hbound

theorem magnitude_nearest_lt {n : Nat} (h : n < 2 ^ 64) (negative : Bool) :
    (nearest negative n 1 : Binary64).magnitude < Format.binary64.infinity := by
  have hf := Format.interchange_binary64
  rw [magnitude_nearest hf]
  exact Nat.lt_of_le_of_lt (Nat.min_le_left _ _)
    (Format.round_lt_infinity hf Nat.one_pos (below_of_lt h))

/-- The number nearest to an integer of 64 bits, signed or not, is finite. -/
theorem isFinite_ofInt {n : Int} (hlow : -2 ^ 63 ≤ n) (hhigh : n < 2 ^ 64) :
    (ofInt n : Binary64).isFinite = true :=
  decide_eq_true (magnitude_nearest_lt (by omega) _)

end TaggedWire.Binary
