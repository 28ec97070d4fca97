import TaggedWire.Proofs.Binary.Coincidence

/-!
# Short decimals of 32-bit numbers are narrowed to these numbers

The shortest decimal of a 32-bit number has at most nine digits, the last of which is no finer than
its distance from the number.  So it keeps its side of the midpoints beside the number when it is
read as a 64-bit number, unless it is one of those that are given up, and narrowing that gives the
number again.

* `convert_shortest`: the shortest decimal is narrowed to its number.
* `convert_whole`: so is a whole number with a digit after the point.
* `shortest_kept`: the nearest 64-bit number leads astray for one shortest decimal only.
-/

namespace TaggedWire

open Binary Binary.Format

namespace Binary32

variable {read : Bool → Decimal → Binary64} {x : Binary32}

/-- A 64-bit number with the sign of a 32-bit number, in the interval of its magnitude, is narrowed
to it. -/
theorem convert_nearest_of_holds (hpos : 0 < x.magnitude)
    (hfinite : x.magnitude < binary32.infinity) {num den : Nat}
    (h : (binary32.interval x.magnitude).holds (4 * 2 ^ binary32.scale)
      (binary64.units (Binary.nearest x.negative num den : Binary64).magnitude)
        (2 ^ binary64.scale) = true) :
    (Binary.nearest x.negative num den : Binary64).convert = x := by
  have hmagnitude : min (binary64.round num den) binary64.infinity < 2 ^ (binary64.width - 1) :=
    Nat.lt_of_le_of_lt (Nat.min_le_right _ _) interchange_binary64.infinity_lt
  have hsign : (Binary.nearest x.negative num den : Binary64).negative = x.negative :=
    negative_ofMagnitude interchange_binary64 x.negative hmagnitude
  rw [convert_of_holds interchange_binary32 hpos hfinite h, hsign,
    ofMagnitude_magnitude interchange_binary32]

/-- The last digit of a shortest decimal stands for a power of ten below `10 ^ 60` and above its
inverse. -/
theorem natAbs_exponent_shortest {g : Nat} (hpos : 0 < g) (hfinite : g < binary32.infinity) :
    (binary32.shortest g).exponent.natAbs < 60 := by
  have hsignificand := shortest_pos interchange_binary32 hpos
  have hdigits := shortest_le interchange_binary32 hpos (k := 8) (by decide) (by decide)
  have hlow := (Interval.le_of_holds (shortest_holds interchange_binary32 hpos)).1
  have hhigh := shortest_below interchange_binary32 hpos hfinite
  have hend := interval_low_pos (f := binary32) hpos
  unfold Below at hhigh
  -- a shortest decimal has at most nine digits and lies between the least number and the largest
  generalize binary32.shortest g = d at *
  obtain ⟨n, e⟩ := d
  simp only at hsignificand hdigits ⊢
  refine Nat.not_le.1 fun hge => ?_
  rcases Int.lt_or_le e 0 with hneg | hnonneg
  · -- the least positive number has not so many places
    have hup : e.toNat = 0 := by omega
    have hdown : 10 ^ 60 ≤ 10 ^ (-e).toNat := Nat.pow_le_pow_right (by decide) (by omega)
    have hle := Nat.mul_le_mul hend hdown
    simp only [Decimal.num, Decimal.den, hup] at hlow
    have hlarge : 10 ^ (8 + 1) * 10 ^ 0 * (4 * 2 ^ binary32.scale) < 1 * 10 ^ 60 := by decide
    have hnum : n * 10 ^ 0 * (4 * 2 ^ binary32.scale) ≤
        10 ^ (8 + 1) * 10 ^ 0 * (4 * 2 ^ binary32.scale) :=
      Nat.mul_le_mul_right _ (Nat.mul_le_mul_right _ hdigits)
    omega
  · -- and the largest not so many digits
    have hdown : (-e).toNat = 0 := by omega
    have hup : 10 ^ 60 ≤ 10 ^ e.toNat := Nat.pow_le_pow_right (by decide) (by omega)
    have hle := Nat.mul_le_mul hsignificand hup
    simp only [Decimal.num, Decimal.den, hdown] at hhigh hle
    have hlarge : binary32.overflow * 10 ^ 0 ≤ 2 * (1 * 10 ^ 60 * 2 ^ binary32.scale) := by decide
    have hnum := Nat.mul_le_mul_right (2 ^ binary32.scale) hle
    omega

theorem shortest_digits_lt {g : Nat} (hpos : 0 < g) :
    (binary32.shortest g).significand < 2 ^ 53 :=
  Nat.lt_of_le_of_lt (shortest_le interchange_binary32 hpos (k := 8) (by decide) (by decide))
    (by decide)

theorem natAbs_exponent_le {g : Nat} (hpos : 0 < g) (hfinite : g < binary32.infinity) :
    (binary32.shortest g).exponent.natAbs ≤ lastTenPower :=
  Nat.le_trans (Nat.le_of_lt (natAbs_exponent_shortest hpos hfinite)) (by decide)

/-- The shortest decimal is narrowed to its number, -/
theorem convert_shortest (hrounds : Decimal.Rounds read) {lost : List Decimal}
    (hcleared : Cleared read lost) (hkept : binary32.shortest x.magnitude ∉ lost)
    (hpos : 0 < x.magnitude) (hfinite : x.magnitude < binary32.infinity) :
    (read x.negative (binary32.shortest x.magnitude)).convert = x := by
  have hsignificand := shortest_pos interchange_binary32 hpos
  have hdigits := shortest_digits_lt hpos
  have hexponent := natAbs_exponent_le hpos hfinite
  have hclose := shortest_close interchange_binary32 hpos
  have hholds := shortest_holds interchange_binary32 hpos
  obtain ⟨num, den, -, hread⟩ := hrounds.quotient hsignificand hdigits hexponent
  rw [hread]
  apply convert_nearest_of_holds hpos hfinite
  rw [← hread]
  -- the interval ends at the midpoints beside the number, and the decimal stays between them
  obtain ⟨g, hg⟩ : ∃ g, x.magnitude = g + 1 := ⟨_, (Nat.sub_add_cancel hpos).symm⟩
  rw [hg] at hfinite hkept hsignificand hdigits hexponent hclose hholds ⊢
  have hside {y : Nat} (hy : y < binary32.infinity) (hbeside : g + 1 = y ∨ g + 1 = y + 1) :=
    side_read hrounds hcleared hkept hsignificand hdigits hexponent hy hbeside hclose x.negative
  rw [holds_congr (hside (Nat.lt_of_succ_lt hfinite) (.inr rfl)) (hside hfinite (.inl rfl))]
  exact hholds

/-- and so is a whole number with a digit after the point. -/
theorem convert_whole (hrounds : Decimal.Rounds read) (hpos : 0 < x.magnitude)
    (hfinite : x.magnitude < binary32.infinity) {n k : Nat}
    (hshortest : binary32.shortest x.magnitude = ⟨n, k⟩) (hlt : n * 10 ^ (k + 1) < 2 ^ 53) :
    (read x.negative ⟨n * 10 ^ (k + 1), -1⟩).convert = x := by
  have hholds := shortest_holds interchange_binary32 hpos
  have hn := shortest_pos interchange_binary32 hpos
  rw [hshortest] at hholds hn
  have hnum : Decimal.num ⟨n, k⟩ = n * 10 ^ k := rfl
  have hden : Decimal.den ⟨n, k⟩ = 1 := by simp [Decimal.den]
  have hc : n * 10 ^ k < 2 ^ 53 :=
    Nat.lt_of_le_of_lt
      (Nat.mul_le_mul_left _ (Nat.pow_le_pow_right (by decide) (Nat.le_succ k))) hlt
  -- with one digit after the point the decimal is still exact as a number of 64 bits
  have hexact : Decimal.num ⟨n * 10 ^ (k + 1), -1⟩ * 2 ^ binary64.scale =
      n * 10 ^ k * (2 ^ binary64.scale * Decimal.den ⟨n * 10 ^ (k + 1), -1⟩) := by
    show n * 10 ^ (k + 1) * 10 ^ 0 * 2 ^ binary64.scale =
      n * 10 ^ k * (2 ^ binary64.scale * 10 ^ 1)
    ring
  have hdigits : 0 < n * 10 ^ (k + 1) := Nat.mul_pos hn (Nat.pow_pos (by decide))
  have hsmall : (-1 : Int).natAbs < 23 := by decide
  obtain ⟨num, den, hnear, hread⟩ := hrounds.quotient (d := ⟨n * 10 ^ (k + 1), -1⟩) hdigits hlt
    (Nat.le_trans (Nat.le_of_lt hsmall) (by decide))
  rw [hread]
  apply convert_nearest_of_holds hpos hfinite
  rw [hnear.units_eq hsmall hc (by decide) hexact]
  apply Interval.holds_of_eq (Nat.two_pow_pos _) (Decimal.den_pos _) _ hholds
  rw [hnum, hden, Nat.mul_one]

/-! ### Decimals that are given up

Taking the nearest number gives up two decimals.  Each of them is rounded to one 32-bit number, and
the second is not the shortest decimal of its number. -/

/-- A shortest decimal is rounded to its number. -/
theorem eq_round_of_shortest {g : Nat} (hpos : 0 < g) {d : Decimal}
    (h : binary32.shortest g = d) : g = binary32.round d.num d.den := by
  have hholds := shortest_holds interchange_binary32 hpos
  rw [h] at hholds
  exact (round_of_holds interchange_binary32 hpos d.den_pos hholds).symm

/-- Of the decimals that the nearest number gives up one is the shortest of its number, and the
other is not. -/
theorem shortest_kept {g : Nat} (hpos : 0 < g) (hg : g ≠ 0x15ae43fd) :
    binary32.shortest g ∉ [⟨7038531, -32⟩, ⟨14077062, -32⟩] := by
  have hfirst : binary32.round (Decimal.num ⟨7038531, -32⟩) (Decimal.den ⟨7038531, -32⟩) =
      0x15ae43fd := by decide +kernel
  have hsecond : binary32.round (Decimal.num ⟨14077062, -32⟩) (Decimal.den ⟨14077062, -32⟩) =
      0x162e43fd := by decide +kernel
  have hother : binary32.shortest 0x162e43fd ≠ ⟨14077062, -32⟩ := by decide +kernel
  intro hlost
  simp only [List.mem_cons, List.not_mem_nil, or_false] at hlost
  rcases hlost with h | h
  · exact hg ((eq_round_of_shortest hpos h).trans hfirst)
  · obtain rfl := (eq_round_of_shortest hpos h).trans hsecond
    exact hother h

end Binary32

end TaggedWire
