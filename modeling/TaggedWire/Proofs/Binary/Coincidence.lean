import TaggedWire.Proofs.Binary.Scaled

/-!
# Short decimals beside midpoints

A decimal may lie so close to a midpoint between two 32-bit numbers that reading it as a 64-bit
number leads across.  If its digits go no further than the steps of the numbers, this comes down to
a power of ten being nearly a fraction of powers of two, with a small numerator and denominator.
Such coincidences are rare: for each power of ten and each step there is at most one fraction, which
a search along the convergents finds, and its multiples are few enough to be tried.

## What is searched, and for whom

Whether a coincidence leads across depends on the way of reading.  The search therefore takes the
way of reading for a parameter, together with the decimals that it gives up.  Scaling gives up none.
For the nearest number they are `7038531e-32` and its double, which lie so near to midpoints that
these are the nearest 64-bit numbers.

* `eq_mul_of_near`: the fraction of which every coincidence is a multiple.
* `cleared_scaled`, `cleared_nearest`: which coincidences lead across a midpoint.
* `side_read`: reading any other short decimal leaves it on its side of every midpoint.
-/

namespace TaggedWire

open Binary Binary.Format

/-! ### Near fractions

Two fractions of small terms that are near to the same quotient are equal, and so the smaller terms
divide the larger. -/

/-- Along the convergents of `num / den` the first that passes a test, as its denominator and its
numerator.  The last two convergents are carried along, and the search ends after some steps. -/
def convergent? (test : Nat → Nat → Bool) (num den a b a' b' : Nat) : Nat → Option (Nat × Nat)
  | 0 => none
  | steps + 1 =>
    let q := num / den
    let c := q * a + a'
    let d := q * b + b'
    if test c d then some (c, d) else convergent? test den (num % den) c d a b steps

theorem test_of_convergent? {test : Nat → Nat → Bool} {c : Nat × Nat} {steps : Nat} :
    ∀ {num den a b a' b' : Nat}, convergent? test num den a b a' b' steps = some c →
      test c.1 c.2 = true := by
  induction steps with
  | zero =>
    intro _ _ _ _ _ _ h
    cases h
  | succ steps ih =>
    intro _ _ _ _ _ _ h
    unfold convergent? at h
    simp only at h
    split at h
    · next hpasses =>
      cases h
      exact hpasses
    · exact ih h

/-- The fraction `b / a` is so near to `up / down`, and `a` so small, that no other fraction with a
denominator up to `most` is as near to it as one part in `2 ^ 27`. -/
def Excludes (up down most a b : Nat) : Prop :=
  a * down + most * (2 ^ 27 * Nat.dist (a * up) (b * down)) < 2 ^ 27 * down

instance (up down most a b : Nat) : Decidable (Excludes up down most a b) := Nat.decLt _ _

theorem mul_eq_mul_of_near {up down most a b m n : Nat} (h : Excludes up down most a b)
    (hm : m ≤ most) (hnear : 2 ^ 27 * Nat.dist (m * up) (n * down) ≤ down) : a * n = m * b := by
  -- over the common denominator the two fractions differ by less than one
  have htriangle := Nat.dist.triangle_inequality (a * n * down) (a * (m * up)) (m * b * down)
  have hleft : Nat.dist (a * n * down) (a * (m * up)) = a * Nat.dist (m * up) (n * down) := by
    rw [Nat.mul_assoc, Nat.dist_mul_left, Nat.dist_comm]
  have hright : Nat.dist (a * (m * up)) (m * b * down) = m * Nat.dist (a * up) (b * down) := by
    rw [Nat.mul_left_comm, Nat.mul_assoc m, Nat.dist_mul_left]
  rw [Nat.dist_mul_right, hleft, hright] at htriangle
  have hlt : Nat.dist (a * n) (m * b) * (2 ^ 27 * down) < 1 * (2 ^ 27 * down) := by
    calc Nat.dist (a * n) (m * b) * (2 ^ 27 * down)
        = 2 ^ 27 * (Nat.dist (a * n) (m * b) * down) := by ring
      _ ≤ 2 ^ 27 * (a * Nat.dist (m * up) (n * down) + m * Nat.dist (a * up) (b * down)) :=
          Nat.mul_le_mul_left _ htriangle
      _ = a * (2 ^ 27 * Nat.dist (m * up) (n * down)) +
            m * (2 ^ 27 * Nat.dist (a * up) (b * down)) := by ring
      _ ≤ a * down + most * (2 ^ 27 * Nat.dist (a * up) (b * down)) :=
          Nat.add_le_add (Nat.mul_le_mul_left _ hnear) (Nat.mul_le_mul_right _ hm)
      _ < 1 * (2 ^ 27 * down) := by rw [Nat.one_mul]; exact h
  exact Nat.eq_of_dist_eq_zero (Nat.lt_one_iff.1 (Nat.lt_of_mul_lt_mul_right hlt))

/-- In lowest terms it is the fraction of which all near ones are multiples. -/
theorem eq_mul_of_near {up down most a b m n : Nat} (h : Excludes up down most a b)
    (hlowest : Nat.gcd a b = 1) (hpos : 0 < m) (hm : m ≤ most)
    (hnear : 2 ^ 27 * Nat.dist (m * up) (n * down) ≤ down) : ∃ j, m = j * a ∧ n = j * b := by
  have heq := mul_eq_mul_of_near h hm hnear
  obtain ⟨j, rfl⟩ : a ∣ m := Nat.Coprime.dvd_of_dvd_mul_right hlowest ⟨n, heq.symm⟩
  have ha : 0 < a := Nat.pos_of_mul_pos_right hpos
  refine ⟨j, Nat.mul_comm _ _, ?_⟩
  apply Nat.eq_of_mul_eq_mul_left ha
  rw [heq, Nat.mul_assoc]

/-! ### The search

For a power of ten and a step, the convergents of their quotient are gone through up to the first
that excludes all other fractions; its multiples are tried one by one. -/

/-- Half units of 32-bit numbers in a power of ten, over a denominator of `10 ^ (-e)`. -/
def tens (e : Int) : Nat := 2 * (10 ^ e.toNat * 2 ^ binary32.scale)

/-- Half units in half a step of numbers that are shifted so, over the same denominator. -/
def halfSteps (shift : Nat) (e : Int) : Nat := 2 ^ shift * 10 ^ (-e).toNat

/-- Read as a 64-bit number, the decimal lies on the side of `n` half steps where it lies itself. -/
def KeepsSide (read : Bool → Decimal → Binary64) (m : Nat) (e : Int) (shift n : Nat) : Prop :=
  compare (2 * (binary64.units (read false ⟨m, e⟩).magnitude * 2 ^ binary32.scale))
      (n * 2 ^ shift * 2 ^ binary64.scale) =
    compare (m * tens e) (n * halfSteps shift e)

instance (read : Bool → Decimal → Binary64) (m : Nat) (e : Int) (shift n : Nat) :
    Decidable (KeepsSide read m e shift n) :=
  inferInstanceAs (Decidable (_ = _))

/-- All multiples of a fraction that are midpoints, and near to their decimals, are harmless or
among those that are given up.  Those of an even number of half steps are no midpoints; an exact
coincidence is read exactly. -/
def harmless (read : Bool → Decimal → Binary64) (lost : List Decimal) (shift : Nat) (e : Int)
    (a b : Nat) : Bool :=
  decide (Nat.gcd a b = 1) &&
    (decide (b % 2 = 0) ||
      if a * tens e = b * halfSteps shift e then decide (e.natAbs < 23)
      else
        let last := halfSteps shift e / (2 ^ 27 * Nat.dist (a * tens e) (b * halfSteps shift e))
        (List.range (last + 1)).all fun j =>
          decide (j * b % 2 = 0 ∨ 2 ^ 25 ≤ j * b ∨ KeepsSide read (j * a) e shift (j * b) ∨
            ⟨j * a, e⟩ ∈ lost))

/-- Either a power of ten is so much shorter than half a step that a decimal close to a number is no
coincidence, or there is one fraction to look at, and it is harmless. -/
def clear (read : Bool → Decimal → Binary64) (lost : List Decimal) (shift : Nat) (e : Int) :
    Bool :=
  let most := 2 ^ 25 * halfSteps shift e / tens e
  let test a b := decide (Excludes (tens e) (halfSteps shift e) most a b)
  decide (2 ^ 27 * tens e < (2 ^ 27 - 1) * halfSteps shift e) ||
    (convergent? test (tens e) (halfSteps shift e) 0 1 1 0 64).any fun c =>
      harmless read lost shift e c.1 c.2

/-- The largest shift at which half a step may be as short as a power of ten. -/
def lastShift (e : Int) : Nat := (tens e / 10 ^ (-e).toNat).log2 + 1

/-- Nowhere does a coincidence lead across a midpoint, but for the decimals that are given up. -/
def Cleared (read : Bool → Decimal → Binary64) (lost : List Decimal) : Prop := ∀ i < 84, ∀ j < 26,
  clear read lost (lastShift ((i : Nat) - (45 : Nat)) - j) ((i : Nat) - (45 : Nat)) = true

/-- Scaling leads across no midpoint, -/
theorem cleared_scaled : Cleared Decimal.scaled [] := by
  unfold Cleared
  decide +kernel

/-- and reading the nearest number leads across two. -/
theorem cleared_nearest : Cleared Decimal.nearest [⟨7038531, -32⟩, ⟨14077062, -32⟩] := by
  unfold Cleared
  decide +kernel

/-! ### Coincidences are harmless

The steps and powers for which there can be a coincidence at all are bounded, and the search has
covered them. -/

section Searched

variable {read : Bool → Decimal → Binary64} {lost : List Decimal} {shift : Nat} {e : Int}

/-- Half a step of 32-bit numbers is at least `2 ^ (-150)`, so a power of ten that is not much
shorter has few places. -/
theorem neg_le_of_long (hlong : halfSteps shift e < 2 * tens e) : -45 ≤ e := by
  refine Int.not_lt.1 fun hlt => ?_
  have hup : e.toNat = 0 := by omega
  have hdown : 10 ^ 46 ≤ 10 ^ (-e).toNat := Nat.pow_le_pow_right (by decide) (by omega)
  have hhalf : 1 * 10 ^ (-e).toNat ≤ halfSteps shift e :=
    Nat.mul_le_mul_right _ (Nat.two_pow_pos _)
  have hbound : 2 * (2 * (10 ^ 0 * 2 ^ binary32.scale)) ≤ 10 ^ 46 := by decide
  rw [tens, hup] at hlong
  omega

/-- The largest step is `2 ^ 104`. -/
theorem le_of_short (hshort : tens e < 2 ^ 25 * halfSteps shift e) (hshift : shift ≤ 253) :
    e ≤ 38 := by
  refine Int.not_lt.1 fun hlt => ?_
  have hdown : (-e).toNat = 0 := by omega
  have hup : 10 ^ 39 ≤ 10 ^ e.toNat := Nat.pow_le_pow_right (by decide) (by omega)
  have hpower : 2 ^ shift ≤ 2 ^ 253 := Nat.pow_le_pow_right (by decide) hshift
  have htens : 10 ^ 39 * 2 ^ binary32.scale ≤ 10 ^ e.toNat * 2 ^ binary32.scale :=
    Nat.mul_le_mul_right _ hup
  have hbound : 2 ^ 25 * 2 ^ 253 ≤ 2 * (10 ^ 39 * 2 ^ binary32.scale) := by decide +kernel
  rw [tens, halfSteps, hdown, Nat.pow_zero, Nat.mul_one] at hshort
  omega

theorem shift_le_lastShift (hlong : halfSteps shift e < 2 * tens e) : shift ≤ lastShift e := by
  have hdown : 0 < 10 ^ (-e).toNat := Nat.pow_pos (by decide)
  have hquotient := Nat.lt_div_mul_add (a := tens e) hdown
  have hlog := Nat.lt_log2_self (n := tens e / 10 ^ (-e).toNat)
  have hlt : 2 ^ shift * 10 ^ (-e).toNat < 2 ^ (lastShift e + 1) * 10 ^ (-e).toNat := by
    calc 2 ^ shift * 10 ^ (-e).toNat < 2 * tens e := hlong
      _ ≤ 2 * ((tens e / 10 ^ (-e).toNat + 1) * 10 ^ (-e).toNat) := by
          rw [Nat.add_mul, Nat.one_mul]
          exact Nat.mul_le_mul_left _ (Nat.le_of_lt hquotient)
      _ ≤ 2 * (2 ^ lastShift e * 10 ^ (-e).toNat) :=
          Nat.mul_le_mul_left _ (Nat.mul_le_mul_right _ hlog)
      _ = 2 ^ (lastShift e + 1) * 10 ^ (-e).toNat := by rw [Nat.pow_succ]; ring
  have := (Nat.pow_lt_pow_iff_right (by decide)).1 (Nat.lt_of_mul_lt_mul_right hlt)
  omega

theorem lastShift_lt (hshort : tens e < 2 ^ 25 * halfSteps shift e) :
    lastShift e < shift + 26 := by
  have hdown : 0 < 10 ^ (-e).toNat := Nat.pow_pos (by decide)
  have hlt : tens e / 10 ^ (-e).toNat < 2 ^ (25 + shift) := by
    rw [Nat.div_lt_iff_lt_mul hdown, Nat.pow_add, Nat.mul_assoc]
    exact hshort
  unfold lastShift
  rcases Nat.eq_zero_or_pos (tens e / 10 ^ (-e).toNat) with hzero | hne
  · rw [hzero, Nat.log2_zero]
    omega
  · have := (Nat.log2_lt (Nat.ne_of_gt hne)).2 hlt
    omega

/-- A power of ten that is neither much shorter nor much longer than half a step was searched. -/
theorem clear_of_long (hcleared : Cleared read lost) (hlong : halfSteps shift e < 2 * tens e)
    (hshort : tens e < 2 ^ 25 * halfSteps shift e) (hshift : shift ≤ 253) :
    clear read lost shift e = true := by
  have hlow := neg_le_of_long hlong
  have hhigh := le_of_short hshort hshift
  have hle := shift_le_lastShift hlong
  have hlt := lastShift_lt hshort
  have h := hcleared (e + 45).toNat (by omega) (lastShift e - shift) (by omega)
  have he : (((e + 45).toNat : Nat) : Int) - (45 : Nat) = e := by omega
  rw [he, Nat.sub_sub_self hle] at h
  exact h

/-- No near midpoint is crossed by a decimal with digits no finer than half the steps. -/
theorem keepsSide_of_near (hcleared : Cleared read lost) {m n : Nat} (hkept : ⟨m, e⟩ ∉ lost)
    (hpos : 0 < m) (hn : n < 2 ^ 25) (hodd : n % 2 = 1)
    (hshift : shift ≤ 253)
    (hnear : 2 ^ 27 * Nat.dist (m * tens e) (n * halfSteps shift e) ≤ halfSteps shift e)
    (hcoarse : (2 ^ 27 - 1) * halfSteps shift e ≤ 2 ^ 27 * tens e) :
    (m * tens e = n * halfSteps shift e ∧ e.natAbs < 23) ∨ KeepsSide read m e shift n := by
  have hhalf : 0 < halfSteps shift e := Nat.mul_pos (Nat.two_pow_pos _) (Nat.pow_pos (by decide))
  have hmany : m * tens e < 2 ^ 25 * halfSteps shift e := by
    have hle : n * halfSteps shift e ≤ (2 ^ 25 - 1) * halfSteps shift e :=
      Nat.mul_le_mul_right _ (by omega)
    unfold Nat.dist at hnear
    omega
  -- there are digits, and not too many, so half a step is neither long nor short against the last
  -- one
  have hone : 1 * tens e ≤ m * tens e := Nat.mul_le_mul_right _ hpos
  have hlong : halfSteps shift e < 2 * tens e := by omega
  have hshort : tens e < 2 ^ 25 * halfSteps shift e := by omega
  have hclear := clear_of_long hcleared hlong hshort hshift
  have htens : 0 < tens e := by omega
  have hmost : m ≤ 2 ^ 25 * halfSteps shift e / tens e :=
    (Nat.le_div_iff_mul_le htens).2 (Nat.le_of_lt hmany)
  unfold clear at hclear
  simp only [Bool.or_eq_true, decide_eq_true_eq] at hclear
  rcases hclear with hdense | hsearch
  · exact absurd hcoarse (Nat.not_le.2 hdense)
  -- the search by convergents leaves one pair that comes near, and all others are its multiples
  obtain ⟨⟨a, b⟩, hfound, hharmless⟩ := (Option.any_eq_true _ _).1 hsearch
  have hexcludes : Excludes _ _ _ a b := of_decide_eq_true (test_of_convergent? hfound)
  unfold harmless at hharmless
  simp only [Bool.and_eq_true, Bool.or_eq_true, decide_eq_true_eq] at hharmless
  obtain ⟨hlowest, hmultiples⟩ := hharmless
  obtain ⟨j, rfl, rfl⟩ := eq_mul_of_near hexcludes hlowest hpos hmost hnear
  -- a midpoint is odd, and so is the pair
  have hb : b % 2 ≠ 0 := fun heven => by
    rw [Nat.mul_mod, heven, Nat.mul_zero] at hodd
    cases hodd
  have hmultiples := hmultiples.resolve_left hb
  split at hmultiples
  -- either the decimal is the midpoint, or each multiple that is still near has been looked at
  · next hexact =>
    refine .inl ⟨?_, of_decide_eq_true hmultiples⟩
    rw [Nat.mul_assoc, hexact, Nat.mul_assoc]
  · next hne =>
    rw [Nat.mul_assoc, Nat.mul_assoc, Nat.dist_mul_left, Nat.mul_left_comm] at hnear
    have hdist : 0 < 2 ^ 27 * Nat.dist (a * tens e) (b * halfSteps shift e) :=
      Nat.mul_pos (by decide) (Nat.dist_pos_of_ne hne)
    have hlast := (Nat.le_div_iff_mul_le hdist).2 hnear
    have hall := List.all_eq_true.1 hmultiples j (List.mem_range.2 (Nat.lt_succ_of_le hlast))
    rcases of_decide_eq_true hall with heven | hlarge | hkeeps | hlost
    · omega
    · omega
    · exact .inr hkeeps
    · exact absurd hlost hkept

end Searched

/-! ### Sides are kept

A decimal that is far from a midpoint keeps its side because of the distance, and one that is near
is a coincidence. -/

section Kept

variable {read : Bool → Decimal → Binary64} {m n shift : Nat} {e : Int}

/-- Binary places by which the units of 64-bit numbers are finer than those of 32-bit numbers, apart
from the 28 places that are looked at below a midpoint and the one of the midpoint. -/
def spare : Nat := binary64.scale - binary32.scale - 29

theorem two_pow_scale : 2 ^ binary64.scale = 2 ^ spare * (2 ^ 28 * (2 * 2 ^ binary32.scale)) := by
  decide +kernel

/-- A decimal in units of the longer format, -/
theorem num_spare (m : Nat) (e : Int) :
    Decimal.num ⟨m, e⟩ * 2 ^ binary64.scale = 2 ^ spare * (2 ^ 28 * (m * tens e)) := by
  rw [two_pow_scale, Decimal.num, tens]
  ring

/-- and half a step of the shorter one in units of the longer. -/
theorem step_spare (m shift : Nat) (e : Int) :
    2 ^ (spare + shift) * Decimal.den ⟨m, e⟩ = 2 ^ spare * halfSteps shift e := by
  rw [Nat.pow_add, Nat.mul_assoc]
  rfl

/-- A distance that is not small leaves room for a 64-bit number. -/
theorem keepsSide_of_far (hrounds : Decimal.Rounds read) (hm : 0 < m) (hdigits : m < 2 ^ 53)
    (hexponent : e.natAbs ≤ lastTenPower) (hpos : 0 < n) (hn : n < 2 ^ 25) (hshift : shift ≤ 253)
    (hfar : halfSteps shift e < 2 ^ 27 * Nat.dist (m * tens e) (n * halfSteps shift e)) :
    KeepsSide read m e shift n := by
  obtain ⟨num, den, hnear, hread⟩ := hrounds.quotient (d := ⟨m, e⟩) hm hdigits hexponent
  have hplaces : spare + shift ≤ binary64.maxShift :=
    Nat.le_trans (Nat.add_le_add_left hshift _) (by decide)
  have hmiddle : n * 2 ^ shift * 2 ^ binary64.scale =
      2 * (n * 2 ^ 28 * 2 ^ (spare + shift) * 2 ^ binary32.scale) := by
    rw [two_pow_scale, Nat.pow_add]
    ring
  unfold KeepsSide
  rw [hread, hmiddle]
  -- a number of the longer format lies between the decimal and the midpoint, on either side
  rcases Nat.lt_or_ge (m * tens e) (n * halfSteps shift e) with hlt | hge
  · have hroom : 2 ^ 28 * (m * tens e) + halfSteps shift e ≤
        (n * 2 ^ 28 - 1) * halfSteps shift e := by
      rw [Nat.dist_eq_sub_of_le (Nat.le_of_lt hlt)] at hfar
      rw [Nat.sub_one_mul, Nat.mul_right_comm]
      omega
    have hbound := hnear.units_le (c := n * 2 ^ 28 - 1) (by omega) hplaces ?_ false
    · rw [Nat.compare_eq_lt.2 hlt, Nat.compare_eq_lt]
      apply Nat.mul_lt_mul_of_pos_left _ (by decide)
      apply Nat.mul_lt_mul_of_pos_right _ (Nat.two_pow_pos _)
      exact Nat.lt_of_le_of_lt hbound
        (Nat.mul_lt_mul_of_pos_right (by omega) (Nat.two_pow_pos _))
    · rw [step_spare, num_spare, Nat.mul_left_comm _ (2 ^ spare), ← Nat.mul_add]
      exact Nat.mul_le_mul_left _ hroom
  · have hroom : (n * 2 ^ 28 + 1) * halfSteps shift e + halfSteps shift e ≤
        2 ^ 28 * (m * tens e) := by
      rw [Nat.dist_comm, Nat.dist_eq_sub_of_le hge] at hfar
      rw [Nat.add_mul, Nat.one_mul, Nat.mul_right_comm]
      omega
    have hgt : n * halfSteps shift e < m * tens e := by
      rw [Nat.dist_comm, Nat.dist_eq_sub_of_le hge] at hfar
      omega
    have hbound := hnear.le_units (c := n * 2 ^ 28 + 1) (by omega) hplaces ?_ false
    · rw [Nat.compare_eq_gt.2 hgt, Nat.compare_eq_gt]
      apply Nat.mul_lt_mul_of_pos_left _ (by decide)
      apply Nat.mul_lt_mul_of_pos_right _ (Nat.two_pow_pos _)
      exact Nat.lt_of_lt_of_le
        (Nat.mul_lt_mul_of_pos_right (Nat.lt_succ_self _) (Nat.two_pow_pos _)) hbound
    · rw [step_spare, num_spare, Nat.mul_left_comm _ (2 ^ spare), ← Nat.mul_add]
      exact Nat.mul_le_mul_left _ hroom

/-- At a midpoint the decimal is read exactly. -/
theorem keepsSide_of_eq (hrounds : Decimal.Rounds read) (hm : 0 < m) (hdigits : m < 2 ^ 53)
    (hexponent : e.natAbs < 23) (hn : n < 2 ^ 25) (hshift : shift ≤ 253)
    (heq : m * tens e = n * halfSteps shift e) : KeepsSide read m e shift n := by
  obtain ⟨num, den, hnear, hread⟩ := hrounds.quotient (d := ⟨m, e⟩) hm hdigits
    (Nat.le_trans (Nat.le_of_lt hexponent) (by decide))
  have hplaces : spare + 28 + shift ≤ binary64.maxShift :=
    Nat.le_trans (Nat.add_le_add_left hshift _) (by decide)
  have hexact : Decimal.num ⟨m, e⟩ * 2 ^ binary64.scale =
      n * (2 ^ (spare + 28 + shift) * Decimal.den ⟨m, e⟩) := by
    calc Decimal.num ⟨m, e⟩ * 2 ^ binary64.scale
        = 2 ^ spare * (2 ^ 28 * (m * tens e)) := num_spare m e
      _ = n * (2 ^ (spare + 28 + shift) * Decimal.den ⟨m, e⟩) := by
          rw [heq, halfSteps, Decimal.den]
          ring
  have hunits := hnear.units_eq hexponent (Nat.lt_trans hn (by decide)) hplaces hexact false
  unfold KeepsSide
  rw [hread, hunits, Nat.compare_eq_eq.2 heq, Nat.compare_eq_eq, two_pow_scale]
  ring

end Kept

/-- The midpoints beside a 32-bit number lie half a step from it. -/
theorem dist_midpoint {g x : Nat} (hx : x = g ∨ x = g + 1) (m : Nat) (e : Int) :
    Nat.dist (2 * (binary32.units x * Decimal.den ⟨m, e⟩))
      ((2 * binary32.significand g + 1) * halfSteps (binary32.shift g) e) =
        halfSteps (binary32.shift g) e := by
  have hsteps : ∀ c, 2 * (c * 2 ^ binary32.shift g * Decimal.den ⟨m, e⟩) =
      2 * c * halfSteps (binary32.shift g) e := fun c => by
    rw [halfSteps, Decimal.den]
    ring
  rcases hx with rfl | rfl
  · rw [units, hsteps, Nat.dist_mul_right, Nat.dist_eq_sub_of_le (Nat.le_add_right _ 1),
      Nat.add_sub_cancel_left, Nat.one_mul]
  · rw [units_succ, hsteps, Nat.dist_mul_right, Nat.mul_succ, Nat.dist_comm,
      Nat.dist_eq_sub_of_le (Nat.le_add_right _ 1), Nat.add_sub_cancel_left, Nat.one_mul]

/-- A decimal close to a 32-bit number is read as a 64-bit number on the same side of the midpoints
beside this number. -/
theorem side_read {read : Bool → Decimal → Binary64} (hrounds : Decimal.Rounds read)
    {lost : List Decimal} (hcleared : Cleared read lost) {d : Decimal} (hkept : d ∉ lost)
    (hpos : 0 < d.significand) (hdigits : d.significand < 2 ^ 53)
    (hexponent : d.exponent.natAbs ≤ lastTenPower) {g x : Nat} (hg : g < binary32.infinity)
    (hx : x = g ∨ x = g + 1) (hclose : binary32.Close x d) (negative : Bool) :
    binary32.side g (binary64.units (read negative d).magnitude) (2 ^ binary64.scale) =
      binary32.side g d.num d.den := by
  obtain ⟨num, den, -, hread⟩ := hrounds.quotient hpos hdigits hexponent
  have hmagnitude : (read negative d).magnitude = (read false d).magnitude := by
    rw [hread, hread, magnitude_nearest interchange_binary64,
      magnitude_nearest interchange_binary64]
  rw [hmagnitude]
  obtain ⟨m, e⟩ := d
  simp only at hpos hdigits hexponent
  have hshift : binary32.shift g ≤ 253 := interchange_binary32.shift_le hg
  have hn : 2 * binary32.significand g + 1 < 2 ^ 25 := by
    have hlt : binary32.significand g < 2 ^ 24 := significand_lt binary32 g
    omega
  have hvalue : 2 * (Decimal.num ⟨m, e⟩ * 2 ^ binary32.scale) = m * tens e := by
    rw [Decimal.num, tens]
    ring
  have hmiddle : binary32.midpoint g * Decimal.den ⟨m, e⟩ =
      (2 * binary32.significand g + 1) * halfSteps (binary32.shift g) e :=
    Nat.mul_assoc _ _ _
  have hkeeps : KeepsSide read m e (binary32.shift g) (2 * binary32.significand g + 1) := by
    by_cases hnear : 2 ^ 27 * Nat.dist (m * tens e)
      ((2 * binary32.significand g + 1) * halfSteps (binary32.shift g) e) ≤
        halfSteps (binary32.shift g) e
    -- half a step is at most the distances from the number to the decimal and on to the midpoint
    · have htriangle := Nat.dist.triangle_inequality
        (2 * (binary32.units x * Decimal.den ⟨m, e⟩)) (m * tens e)
        ((2 * binary32.significand g + 1) * halfSteps (binary32.shift g) e)
      rw [dist_midpoint hx, Nat.dist_comm _ (m * tens e)] at htriangle
      have hcoarse : 2 * Nat.dist _ _ ≤ tens e := Nat.mul_le_mul_left 2 hclose
      rw [← Nat.dist_mul_left, hvalue] at hcoarse
      rcases keepsSide_of_near hcleared hkept hpos hn (by omega) hshift hnear (by omega) with
        ⟨heq, hsmall⟩ | hkeeps
      · exact keepsSide_of_eq hrounds hpos hdigits hsmall hn hshift heq
      · exact hkeeps
    · exact keepsSide_of_far hrounds hpos hdigits hexponent (Nat.succ_pos _) hn hshift
        (Nat.lt_of_not_le hnear)
  unfold side
  rw [hvalue, hmiddle]
  exact hkeeps

end TaggedWire
