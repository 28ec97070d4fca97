import TaggedWire.Proofs.Binary.Interval
import Mathlib.Data.Nat.Dist

/-!
# The shortest decimal reads back

A number is written as a decimal that lies between the ends of what rounds to it.  The grids of
decimals are tested from the coarsest on, and the search succeeds at the latest on the one that has
a digit more than all significands: its points lie closer to each other than these ends, so one of
the two around the number is between them.

* `Format.shortest_holds`: the shortest decimal lies where numbers round to the magnitude.
* `Format.shortest_close`: it is no further from the number than its last digit reaches.
* `Format.shortest_le`: it has few digits.
* `Format.shortest_below`: it is below the bound of overflow.
-/

namespace TaggedWire

/-! ### Decimals of the same value

Zeros at the end of a significand can be dropped without changing what the decimal stands for. -/

namespace Decimal

/-- The two decimals have the same value. -/
def Same (d e : Decimal) : Prop := d.num * e.den = e.num * d.den

theorem den_pos (d : Decimal) : 0 < d.den := Nat.pow_pos (by decide)

theorem Same.refl (d : Decimal) : d.Same d := rfl

theorem Same.trans {a b c : Decimal} (hab : a.Same b) (hbc : b.Same c) : a.Same c := by
  apply Nat.eq_of_mul_eq_mul_right b.den_pos
  calc a.num * c.den * b.den = a.num * b.den * c.den := Nat.mul_right_comm _ _ _
    _ = b.num * a.den * c.den := by rw [hab]
    _ = b.num * c.den * a.den := Nat.mul_right_comm _ _ _
    _ = c.num * b.den * a.den := by rw [hbc]
    _ = c.num * a.den * b.den := Nat.mul_right_comm _ _ _

/-- Zeros at the end of the significand belong to the exponent. -/
theorem same_mul_pow (n k : Nat) (e : Int) : Same ⟨n * 10 ^ k, e⟩ ⟨n, e + k⟩ := by
  show n * 10 ^ k * 10 ^ e.toNat * 10 ^ (-(e + k)).toNat =
    n * 10 ^ (e + k).toNat * 10 ^ (-e).toNat
  simp only [Nat.mul_assoc, ← Nat.pow_add]
  congr 2
  omega

theorem same_dropZeros (fuel : Nat) (d : Decimal) : (d.dropZeros fuel).Same d := by
  induction fuel generalizing d with
  | zero => exact .refl d
  | succ fuel ih =>
    rw [dropZeros]
    split
    · next h =>
      obtain ⟨n, e⟩ := d
      have hn : n / 10 * 10 ^ 1 = n := Nat.div_mul_cancel (Nat.dvd_of_mod_eq_zero h.2)
      have hone := same_mul_pow (n / 10) 1 e
      rw [hn] at hone
      exact (ih _).trans hone.symm
    · exact .refl d

theorem exponent_le_dropZeros (fuel : Nat) (d : Decimal) :
    d.exponent ≤ (d.dropZeros fuel).exponent := by
  induction fuel generalizing d with
  | zero => exact Int.le_refl _
  | succ fuel ih =>
    rw [dropZeros]
    split
    · exact Int.le_trans (Int.le_add_one (Int.le_refl _)) (ih _)
    · exact Int.le_refl _

theorem significand_dropZeros_le (fuel : Nat) (d : Decimal) :
    (d.dropZeros fuel).significand ≤ d.significand := by
  induction fuel generalizing d with
  | zero => exact Nat.le_refl _
  | succ fuel ih =>
    rw [dropZeros]
    split
    · exact Nat.le_trans (ih _) (Nat.div_le_self _ _)
    · exact Nat.le_refl _

end Decimal

/-! ### The leading digit

The place of the leading digit of a quotient is known up to one from the digits of its numerator and
denominator, and one comparison decides. -/

theorem lt_pow_digitCount (n : Nat) : n < 10 ^ digitCount n :=
  (Nat.length_toDigits_le_iff (by decide) Nat.length_toDigits_pos).1 (Nat.le_refl _)

theorem pow_digitCount_le {n : Nat} (h : 0 < n) : 10 ^ (digitCount n - 1) ≤ n := by
  rcases Nat.eq_zero_or_pos (digitCount n - 1) with hzero | hpos
  · rw [hzero]
    exact h
  · refine Nat.le_of_not_lt fun hlt => ?_
    have hle : digitCount n ≤ digitCount n - 1 :=
      (Nat.length_toDigits_le_iff (by decide) hpos).2 hlt
    omega

namespace Binary

/-- The power of ten of the leading digit does not exceed the quotient. -/
theorem pow_decimalExponent_le {num : Nat} (hnum : 0 < num) (den : Nat) :
    den * 10 ^ (decimalExponent num den).toNat ≤ num * 10 ^ (-decimalExponent num den).toNat := by
  unfold decimalExponent
  simp only
  split
  · next h => exact h
  · -- one place lower the digits alone tell the quotient from the power
    have hlen : 0 < digitCount num := Nat.length_toDigits_pos
    generalize he : ((digitCount num : Int) - digitCount den - 1) = e
    calc den * 10 ^ e.toNat
        ≤ 10 ^ digitCount den * 10 ^ e.toNat :=
          Nat.mul_le_mul_right _ (Nat.le_of_lt (lt_pow_digitCount den))
      _ = 10 ^ (digitCount num - 1) * 10 ^ (-e).toNat := by
          rw [← Nat.pow_add, ← Nat.pow_add]
          congr 1
          omega
      _ ≤ num * 10 ^ (-e).toNat := Nat.mul_le_mul_right _ (pow_digitCount_le hnum)

/-- The next power of ten does. -/
theorem lt_pow_decimalExponent (num : Nat) {den : Nat} (hden : 0 < den) :
    num * 10 ^ (-(decimalExponent num den + 1)).toNat <
      den * 10 ^ (decimalExponent num den + 1).toNat := by
  unfold decimalExponent
  simp only
  split
  · -- here the digits alone tell the quotient from the power
    have hlen : 0 < digitCount den := Nat.length_toDigits_pos
    generalize he : ((digitCount num : Int) - digitCount den + 1) = e
    calc num * 10 ^ (-e).toNat
        < 10 ^ digitCount num * 10 ^ (-e).toNat :=
          Nat.mul_lt_mul_of_pos_right (lt_pow_digitCount num) (Nat.pow_pos (by decide))
      _ = 10 ^ (digitCount den - 1) * 10 ^ e.toNat := by
          rw [← Nat.pow_add, ← Nat.pow_add]
          congr 1
          omega
      _ ≤ den * 10 ^ e.toNat := Nat.mul_le_mul_right _ (pow_digitCount_le hden)
  · next h =>
    rw [Int.sub_add_cancel]
    exact Nat.lt_of_not_le h

/-- Steps of a grid with its last digit further down are shorter by as many powers of ten. -/
theorem pow_mul_step_le {num den : Nat} {e : Int}
    (h : den * 10 ^ e.toNat ≤ num * 10 ^ (-e).toNat) (k : Nat) :
    10 ^ k * (den * 10 ^ (e - k).toNat) ≤ num * 10 ^ (-(e - k)).toNat := by
  apply Nat.le_of_mul_le_mul_right (c := 10 ^ (-e).toNat) ?_ (Nat.pow_pos (by decide))
  have hpow : 10 ^ k * 10 ^ (e - k).toNat * 10 ^ (-e).toNat =
      10 ^ e.toNat * 10 ^ (-(e - k)).toNat := by
    simp only [← Nat.pow_add]
    congr 1
    omega
  calc 10 ^ k * (den * 10 ^ (e - k).toNat) * 10 ^ (-e).toNat
      = den * (10 ^ k * 10 ^ (e - k).toNat * 10 ^ (-e).toNat) := by ring
    _ = den * 10 ^ e.toNat * 10 ^ (-(e - k)).toNat := by rw [hpow, Nat.mul_assoc]
    _ ≤ num * 10 ^ (-e).toNat * 10 ^ (-(e - k)).toNat := Nat.mul_le_mul_right _ h
    _ = num * 10 ^ (-(e - k)).toNat * 10 ^ (-e).toNat := Nat.mul_right_comm _ _ _

namespace Format

variable {f : Format} {magnitude : Nat}

/-! ### Neighbours

Of the decimals on a grid only the two beside the number are looked at, and of these the nearer is
preferred. -/

theorem roundDiv_eq (num den : Nat) :
    roundDiv num den = num / den ∨ roundDiv num den = num / den + 1 := by
  unfold roundDiv
  simp only
  split
  · exact .inl rfl
  · split
    · exact .inr rfl
    · omega

/-- A neighbour is one of the two grid points around the number. -/
theorem eq_of_neighbour {e : Int} {d : Decimal} (h : f.neighbour magnitude e = some d) :
    d = ⟨(f.interval magnitude).middle * 10 ^ (-e).toNat / (4 * 2 ^ f.scale * 10 ^ e.toNat), e⟩ ∨
      d = ⟨(f.interval magnitude).middle * 10 ^ (-e).toNat / (4 * 2 ^ f.scale * 10 ^ e.toNat) + 1,
        e⟩ := by
  unfold neighbour at h
  simp only at h
  split at h
  · cases h
    exact (roundDiv_eq _ _).imp (congrArg (Decimal.mk · e)) (congrArg (Decimal.mk · e))
  · split at h
    · exact .inl (Option.some.inj h).symm
    · split at h
      · exact .inr (Option.some.inj h).symm
      · cases h

/-- A neighbour is only taken if the interval holds it. -/
theorem holds_of_neighbour {e : Int} {d : Decimal} (h : f.neighbour magnitude e = some d) :
    (f.interval magnitude).holds (4 * 2 ^ f.scale) d.num d.den = true := by
  -- whichever of the two is taken has been tested, the nearer one together with the other
  unfold neighbour at h
  simp only at h
  split at h
  · next hboth =>
    rw [Bool.and_eq_true] at hboth
    cases h
    rcases roundDiv_eq ((f.interval magnitude).middle * 10 ^ (-e).toNat)
      (4 * 2 ^ f.scale * 10 ^ e.toNat) with hq | hq
    · rw [Decimal.num, hq]
      exact hboth.1
    · rw [Decimal.num, hq]
      exact hboth.2
  · split at h
    · next hbelow =>
      cases h
      exact hbelow
    · split at h
      · next habove =>
        cases h
        exact habove
      · cases h

/-- On a grid whose step is shorter than the interval there is a neighbour to take. -/
theorem exists_neighbour (hpos : 0 < magnitude) {e : Int}
    (hstep : 4 * 2 ^ f.scale * 10 ^ e.toNat + (f.interval magnitude).low * 10 ^ (-e).toNat <
      (f.interval magnitude).high * 10 ^ (-e).toNat) :
    ∃ d, f.neighbour magnitude e = some d := by
  have hdown : 0 < 10 ^ (-e).toNat := Nat.pow_pos (by decide)
  have hlow := Nat.mul_lt_mul_of_pos_right (interval_low_lt (f := f) hpos) hdown
  have hhigh := Nat.mul_lt_mul_of_pos_right (interval_lt_high f magnitude) hdown
  have hunit : 0 < 4 * 2 ^ f.scale * 10 ^ e.toNat :=
    Nat.mul_pos (Nat.mul_pos (by decide) (Nat.two_pow_pos _)) (Nat.pow_pos (by decide))
  -- of the two neighbours one lies between the ends, for the ends are further apart than they
  have hone : ∀ q, q = (f.interval magnitude).middle * 10 ^ (-e).toNat /
      (4 * 2 ^ f.scale * 10 ^ e.toNat) →
      (f.interval magnitude).holds (4 * 2 ^ f.scale) (q * 10 ^ e.toNat) (10 ^ (-e).toNat) = true ∨
      (f.interval magnitude).holds (4 * 2 ^ f.scale) ((q + 1) * 10 ^ e.toNat)
        (10 ^ (-e).toNat) = true := by
    rintro q rfl
    have hbelow := Nat.div_mul_le_self ((f.interval magnitude).middle * 10 ^ (-e).toNat)
      (4 * 2 ^ f.scale * 10 ^ e.toNat)
    have habove := Nat.lt_div_mul_add
      (a := (f.interval magnitude).middle * 10 ^ (-e).toNat) hunit
    generalize (f.interval magnitude).middle * 10 ^ (-e).toNat /
      (4 * 2 ^ f.scale * 10 ^ e.toNat) = q at hbelow habove
    have hscaled : ∀ n : Nat, n * 10 ^ e.toNat * (4 * 2 ^ f.scale) =
        n * (4 * 2 ^ f.scale * 10 ^ e.toNat) := fun n => by ring
    by_cases h : (f.interval magnitude).low * 10 ^ (-e).toNat <
        q * (4 * 2 ^ f.scale * 10 ^ e.toNat)
    · refine .inl (Interval.holds_of_lt ?_ ?_) <;> rw [hscaled]
      · exact h
      · exact Nat.lt_of_le_of_lt hbelow hhigh
    · refine .inr (Interval.holds_of_lt ?_ ?_) <;> rw [hscaled, Nat.succ_mul] <;> omega
  unfold neighbour
  simp only
  rcases hone _ rfl with h | h <;> simp only [h]
  · split
    · exact ⟨_, rfl⟩
    · exact ⟨_, rfl⟩
  · split
    · exact ⟨_, rfl⟩
    · split <;> exact ⟨_, rfl⟩

/-! ### The shortest decimal

The search tests the grids in order, so it ends at the coarsest that has a decimal in the interval.
-/

/-- The grid that has a digit more than all significands has a neighbour to take. -/
theorem exists_neighbour_of_digits (hf : f.Interchange) (hpos : 0 < magnitude) {k : Nat}
    (hdigits : 2 ^ f.precision ≤ 10 ^ k) :
    ∃ d, f.neighbour magnitude
      (decimalExponent (f.interval magnitude).middle (4 * 2 ^ f.scale) - k) = some d := by
  have hmiddle : 0 < (f.interval magnitude).middle :=
    Nat.lt_of_le_of_lt (Nat.zero_le _) (interval_low_lt hpos)
  apply exists_neighbour hpos
  have hstep := pow_mul_step_le (pow_decimalExponent_le hmiddle (4 * 2 ^ f.scale)) k
  generalize decimalExponent (f.interval magnitude).middle (4 * 2 ^ f.scale) - k = e at hstep
  have hdown : 0 < 10 ^ (-e).toNat := Nat.pow_pos (by decide)
  have hwide := Nat.mul_lt_mul_of_pos_right (interval_wide hf hpos hdigits) hdown
  rw [Nat.add_mul, Nat.mul_assoc, Nat.mul_assoc] at hwide
  apply Nat.lt_of_mul_lt_mul_left (a := 10 ^ k)
  rw [Nat.mul_add]
  exact Nat.lt_of_le_of_lt (Nat.add_le_add_right hstep _) hwide

/-- The search ends there at the latest. -/
theorem exists_shortest (hf : f.Interchange) (hpos : 0 < magnitude) {k : Nat}
    (hdigits : 2 ^ f.precision ≤ 10 ^ k) (hk : k < enoughDigits) :
    ∃ (n : Nat) (d : Decimal), n ≤ k ∧
      f.neighbour magnitude
        (decimalExponent (f.interval magnitude).middle (4 * 2 ^ f.scale) - n) = some d ∧
      f.shortest magnitude = d.dropZeros enoughDigits := by
  obtain ⟨last, hlast⟩ := exists_neighbour_of_digits (f := f) hf hpos hdigits
  unfold shortest
  simp only
  cases hfound : (List.range enoughDigits).findSome? fun (n : Nat) =>
    f.neighbour magnitude (decimalExponent (f.interval magnitude).middle (4 * 2 ^ f.scale) - n) with
  | none =>
    have hnone := List.findSome?_eq_none_iff.1 hfound k (List.mem_range.2 hk)
    rw [hlast] at hnone
    cases hnone
  | some d =>
    obtain ⟨before, n, after, hrange, hd, hnone⟩ := List.findSome?_eq_some_iff.1 hfound
    refine ⟨n, d, Nat.not_lt.1 fun hlt => ?_, hd, rfl⟩
    -- the grids are tested in order, so this one was tested without success
    have hsorted := List.pairwise_lt_range (n := enoughDigits)
    have hmem := List.mem_range.2 hk
    rw [hrange] at hsorted hmem
    rcases List.mem_append.1 hmem with hbefore | hafter
    · have hfail := hnone k hbefore
      rw [hlast] at hfail
      cases hfail
    · rcases List.mem_cons.1 hafter with rfl | hafter
      · exact Nat.lt_irrefl _ hlt
      · have hgt := List.rel_of_pairwise_cons (List.pairwise_append.1 hsorted).2.1 hafter
        exact Nat.lt_asymm hlt hgt

/-- The shortest decimal lies where numbers round to the magnitude. -/
theorem shortest_holds (hf : f.Interchange) (hpos : 0 < magnitude) :
    (f.interval magnitude).holds (4 * 2 ^ f.scale) (f.shortest magnitude).num
      (f.shortest magnitude).den = true := by
  obtain ⟨n, d, -, hd, hshortest⟩ := exists_shortest hf hpos hf.digits (by decide)
  rw [hshortest]
  exact Interval.holds_of_eq (Decimal.den_pos _) d.den_pos (Decimal.same_dropZeros _ _)
    (holds_of_neighbour hd)

theorem shortest_pos (hf : f.Interchange) (hpos : 0 < magnitude) :
    0 < (f.shortest magnitude).significand := by
  obtain ⟨hlow, -, -⟩ := Interval.le_of_holds (shortest_holds hf hpos)
  have hnum := Nat.lt_of_lt_of_le
    (Nat.mul_pos (interval_low_pos hpos) (Decimal.den_pos _)) hlow
  exact Nat.pos_of_mul_pos_right (Nat.pos_of_mul_pos_right hnum)

/-- The shortest decimal of a finite number is below the bound of overflow.  The largest significand
is odd, so the bound itself is excluded. -/
theorem shortest_below (hf : f.Interchange) (hpos : 0 < magnitude) (h : magnitude < f.infinity) :
    f.Below (f.shortest magnitude).num (f.shortest magnitude).den := by
  obtain ⟨-, hhigh, hopen⟩ := Interval.le_of_holds (shortest_holds hf hpos)
  have hden := (f.shortest magnitude).den_pos
  have hnum : ∀ n, n * (4 * 2 ^ f.scale) = 2 * (2 * (n * 2 ^ f.scale)) := fun n => by ring
  rw [interval_high, hnum, Nat.mul_assoc] at hhigh hopen
  unfold Below
  rw [overflow_eq hf]
  rcases Nat.lt_or_eq_of_le (Nat.le_sub_one_of_lt h) with hlt | rfl
  · refine Nat.lt_of_le_of_lt (Nat.le_of_mul_le_mul_left hhigh (by decide)) ?_
    exact Nat.mul_lt_mul_of_pos_right (f.midpoint_strictMono hlt) hden
  -- the last number is odd, so its interval is open and ends short of the bound
  · have hodd : f.significand (f.infinity - 1) % 2 = 1 := by
      have hhidden := f.hidden_pos
      rw [(significand_last hf).1]
      omega
    have hclosed : (f.interval (f.infinity - 1)).closed = false := by
      show (f.significand (f.infinity - 1) % 2 == 0) = false
      rw [hodd]
      rfl
    exact Nat.lt_of_mul_lt_mul_left (hopen hclosed)

/-! ### Digits and distance of the shortest decimal

What the search has found is one of two neighbours on its grid.  This bounds its significand and how
far it is from the number. -/

/-- The decimal is no further from the number than its last digit reaches. -/
def Close (f : Format) (magnitude : Nat) (d : Decimal) : Prop :=
  Nat.dist (d.num * 2 ^ f.scale) (f.units magnitude * d.den) ≤ 10 ^ d.exponent.toNat * 2 ^ f.scale

theorem close_of_neighbour {e : Int} {d : Decimal} (h : f.neighbour magnitude e = some d) :
    f.Close magnitude d := by
  have hstep : 0 < 4 * 2 ^ f.scale * 10 ^ e.toNat :=
    Nat.mul_pos (Nat.mul_pos (by decide) (Nat.two_pow_pos _)) (Nat.pow_pos (by decide))
  -- both sides are put in units of the format, where the middle of the interval is the number
  -- itself
  have hmiddle : (f.interval magnitude).middle * 10 ^ (-e).toNat =
      4 * (f.units magnitude * 10 ^ (-e).toNat) := by
    show 4 * f.significand magnitude * 2 ^ f.shift magnitude * 10 ^ (-e).toNat = _
    rw [units]
    ring
  have hbelow := Nat.div_mul_le_self ((f.interval magnitude).middle * 10 ^ (-e).toNat)
    (4 * 2 ^ f.scale * 10 ^ e.toNat)
  have habove := Nat.lt_div_mul_add (a := (f.interval magnitude).middle * 10 ^ (-e).toNat) hstep
  have hscaled : ∀ q, q * (4 * 2 ^ f.scale * 10 ^ e.toNat) =
      4 * (q * 10 ^ e.toNat * 2 ^ f.scale) := fun q => by ring
  have hunit : 4 * 2 ^ f.scale * 10 ^ e.toNat = 4 * (10 ^ e.toNat * 2 ^ f.scale) := by ring
  have heither := eq_of_neighbour h
  generalize (f.interval magnitude).middle * 10 ^ (-e).toNat / (4 * 2 ^ f.scale * 10 ^ e.toNat) = q
    at hbelow habove heither
  rw [hscaled, hmiddle] at hbelow
  rw [hscaled, hmiddle, hunit] at habove
  unfold Close Decimal.num Decimal.den Nat.dist
  rcases heither with rfl | rfl
  · simp only
    omega
  · simp only
    rw [Nat.add_mul, Nat.add_mul, Nat.one_mul]
    omega

/-- A neighbour has no more digits than its grid. -/
theorem significand_of_neighbour {n : Nat} {d : Decimal} (h : f.neighbour magnitude
      (decimalExponent (f.interval magnitude).middle (4 * 2 ^ f.scale) - n) = some d) :
    d.significand ≤ 10 ^ (n + 1) := by
  have hunit : 0 < 4 * 2 ^ f.scale := Nat.mul_pos (by decide) (Nat.two_pow_pos _)
  have hlt := lt_pow_decimalExponent (f.interval magnitude).middle hunit
  have heither := eq_of_neighbour h
  generalize decimalExponent (f.interval magnitude).middle (4 * 2 ^ f.scale) = top at hlt heither
  -- `n` places below the leading digit there are `n + 1` digits
  have hquotient : (f.interval magnitude).middle * 10 ^ (-(top - n)).toNat /
      (4 * 2 ^ f.scale * 10 ^ (top - n).toNat) < 10 ^ (n + 1) := by
    rw [Nat.div_lt_iff_lt_mul (Nat.mul_pos hunit (Nat.pow_pos (by decide)))]
    apply Nat.lt_of_mul_lt_mul_right (a := 10 ^ (-(top + 1)).toNat)
    have hpow : 10 ^ (top + 1).toNat * 10 ^ (-(top - n)).toNat =
        10 ^ (n + 1) * 10 ^ (top - n).toNat * 10 ^ (-(top + 1)).toNat := by
      simp only [← Nat.pow_add]
      congr 1
      omega
    calc (f.interval magnitude).middle * 10 ^ (-(top - n)).toNat * 10 ^ (-(top + 1)).toNat
        = (f.interval magnitude).middle * 10 ^ (-(top + 1)).toNat * 10 ^ (-(top - n)).toNat :=
          Nat.mul_right_comm _ _ _
      _ < 4 * 2 ^ f.scale * 10 ^ (top + 1).toNat * 10 ^ (-(top - n)).toNat :=
          Nat.mul_lt_mul_of_pos_right hlt (Nat.pow_pos (by decide))
      _ = 4 * 2 ^ f.scale * (10 ^ (top + 1).toNat * 10 ^ (-(top - n)).toNat) :=
          Nat.mul_assoc _ _ _
      _ = 10 ^ (n + 1) * (4 * 2 ^ f.scale * 10 ^ (top - n).toNat) * 10 ^ (-(top + 1)).toNat := by
          rw [hpow]
          ring
  rcases heither with rfl | rfl
  · exact Nat.le_of_lt hquotient
  · exact hquotient

/-- A decimal of the same value whose last digit reaches further is no less close. -/
theorem Close.of_same {d d' : Decimal} (h : f.Close magnitude d) (hsame : d'.Same d)
    (hle : d.exponent ≤ d'.exponent) : f.Close magnitude d' := by
  unfold Close at h ⊢
  apply Nat.le_of_mul_le_mul_right _ d.den_pos
  have hnum : d'.num * 2 ^ f.scale * d.den = d.num * 2 ^ f.scale * d'.den := by
    rw [Nat.mul_right_comm, hsame, Nat.mul_right_comm]
  have hpow : 10 ^ d.exponent.toNat * d'.den ≤ 10 ^ d'.exponent.toNat * d.den := by
    rw [Decimal.den, Decimal.den, ← Nat.pow_add, ← Nat.pow_add]
    exact Nat.pow_le_pow_right (by decide) (by omega)
  calc Nat.dist (d'.num * 2 ^ f.scale) (f.units magnitude * d'.den) * d.den
      = Nat.dist (d.num * 2 ^ f.scale) (f.units magnitude * d.den) * d'.den := by
        rw [← Nat.dist_mul_right, ← Nat.dist_mul_right, hnum,
          Nat.mul_right_comm (f.units magnitude)]
    _ ≤ 10 ^ d.exponent.toNat * 2 ^ f.scale * d'.den := Nat.mul_le_mul_right _ h
    _ = 10 ^ d.exponent.toNat * d'.den * 2 ^ f.scale := Nat.mul_right_comm _ _ _
    _ ≤ 10 ^ d'.exponent.toNat * d.den * 2 ^ f.scale := Nat.mul_le_mul_right _ hpow
    _ = 10 ^ d'.exponent.toNat * 2 ^ f.scale * d.den := Nat.mul_right_comm _ _ _

theorem shortest_close (hf : f.Interchange) (hpos : 0 < magnitude) :
    f.Close magnitude (f.shortest magnitude) := by
  obtain ⟨n, d, -, hd, hshortest⟩ := exists_shortest hf hpos hf.digits (by decide)
  rw [hshortest]
  exact (close_of_neighbour hd).of_same (Decimal.same_dropZeros _ _)
    (Decimal.exponent_le_dropZeros _ _)

/-- The shortest decimal has at most two digits more than it takes to count all significands. -/
theorem shortest_le (hf : f.Interchange) (hpos : 0 < magnitude) {k : Nat}
    (hdigits : 2 ^ f.precision ≤ 10 ^ k) (hk : k < enoughDigits) :
    (f.shortest magnitude).significand ≤ 10 ^ (k + 1) := by
  obtain ⟨n, d, hn, hd, hshortest⟩ := exists_shortest hf hpos hdigits hk
  rw [hshortest]
  calc (d.dropZeros enoughDigits).significand ≤ d.significand :=
        Decimal.significand_dropZeros_le _ _
    _ ≤ 10 ^ (n + 1) := significand_of_neighbour hd
    _ ≤ 10 ^ (k + 1) := Nat.pow_le_pow_right (by decide) (Nat.succ_le_succ hn)

end Format

end Binary
end TaggedWire
