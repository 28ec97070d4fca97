import TaggedWire.Proofs.Binary.Rounding

/-!
# Intervals of numbers that round to a magnitude

The interval of a magnitude ends at the midpoints beside it.  What it holds is rounded to the
magnitude, and it sees no more of a quotient than on which sides of its ends this lies.

* `Interval.holds_of_eq`: an interval holds a quotient for its value.
* `Format.interval_wide`: an interval is wider than the step of a fine grid of decimals.
* `Format.round_of_holds`: what the interval of a magnitude holds is rounded to it.
* `convert_of_holds`: so is a number of another format.
-/

namespace TaggedWire.Binary

namespace Interval

variable {i : Interval} {unit num den : Nat}

theorem holds_of_lt (hlow : i.low * den < num * unit) (hhigh : num * unit < i.high * den) :
    i.holds unit num den = true := by
  unfold holds
  split <;> simp only [decide_eq_true_eq]
  · exact ⟨Nat.le_of_lt hlow, Nat.le_of_lt hhigh⟩
  · exact ⟨hlow, hhigh⟩

/-- What the interval holds lies between its ends, of which an open one is excluded. -/
theorem le_of_holds (h : i.holds unit num den = true) :
    i.low * den ≤ num * unit ∧ num * unit ≤ i.high * den ∧
      (i.closed = false → num * unit < i.high * den) := by
  unfold holds at h
  split at h <;> rw [decide_eq_true_eq] at h
  · next hclosed => exact ⟨h.1, h.2, fun hopen => absurd (hclosed.symm.trans hopen) nofun⟩
  · exact ⟨Nat.le_of_lt h.1, Nat.le_of_lt h.2, fun _ => h.2⟩

/-- An interval holds a quotient for its value. -/
theorem holds_of_eq {num' den' : Nat} (hden : 0 < den) (hden' : 0 < den')
    (h : num * den' = num' * den) (hholds : i.holds unit num' den' = true) :
    i.holds unit num den = true := by
  -- both comparisons are those for the other quotient, over a common denominator
  have hend : ∀ a, a * den * den' = a * den' * den := fun a => Nat.mul_right_comm _ _ _
  have hnum : num * unit * den' = num' * unit * den := by
    rw [Nat.mul_right_comm, h, Nat.mul_right_comm]
  have hlow : ∀ a, a * den ≤ num * unit ↔ a * den' ≤ num' * unit := by
    intro a
    rw [← Nat.mul_le_mul_right_iff hden', hend, hnum, Nat.mul_le_mul_right_iff hden]
  have hhigh : ∀ a, num * unit ≤ a * den ↔ num' * unit ≤ a * den' := by
    intro a
    rw [← Nat.mul_le_mul_right_iff hden', hend, hnum, Nat.mul_le_mul_right_iff hden]
  unfold holds at hholds ⊢
  simp only [← Nat.not_le] at hholds ⊢
  simp only [hlow, hhigh]
  exact hholds

end Interval

namespace Format

variable {f : Format} {magnitude : Nat}

/-! ### Ends

An interval reaches half a step to either side, but only a quarter of one below a power of two. -/

/-- The numbers that round to a positive magnitude are positive. -/
theorem interval_low_pos (hpos : 0 < magnitude) : 0 < (f.interval magnitude).low := by
  have hsignificand := significand_pos (f := f) hpos
  have hstep : 0 < 2 ^ f.shift magnitude := Nat.two_pow_pos _
  unfold interval
  simp only
  generalize 2 ^ f.shift magnitude = step at hstep
  have hle : 4 * step ≤ 4 * f.significand magnitude * step :=
    Nat.mul_le_mul_right _ (by omega)
  split <;> omega

theorem interval_low_lt (hpos : 0 < magnitude) :
    (f.interval magnitude).low < (f.interval magnitude).middle := by
  have hsignificand := significand_pos (f := f) hpos
  have hstep : 0 < 2 ^ f.shift magnitude := Nat.two_pow_pos _
  unfold interval
  simp only
  generalize 2 ^ f.shift magnitude = step at hstep
  have hle : 4 * step ≤ 4 * f.significand magnitude * step :=
    Nat.mul_le_mul_right _ (by omega)
  split <;> omega

theorem interval_lt_high (f : Format) (magnitude : Nat) :
    (f.interval magnitude).middle < (f.interval magnitude).high :=
  Nat.lt_add_of_pos_right (Nat.mul_pos (by decide) (Nat.two_pow_pos _))

/-- The interval is wider than the step of a grid that has a digit more than all significands. -/
theorem interval_wide (hf : f.Interchange) (hpos : 0 < magnitude) {k : Nat}
    (hdigits : 2 ^ f.precision ≤ 10 ^ k) :
    (f.interval magnitude).middle + 10 ^ k * (f.interval magnitude).low <
      10 ^ k * (f.interval magnitude).high := by
  have hsignificand := significand_pos (f := f) hpos
  have hlt := significand_lt f magnitude
  have hstep : 0 < 2 ^ f.shift magnitude := Nat.two_pow_pos _
  rw [hf.two_pow_precision] at hdigits
  unfold interval
  simp only
  generalize 2 ^ f.shift magnitude = step at hstep
  generalize f.significand magnitude = m at hsignificand hlt
  have hle : 4 * step ≤ 4 * m * step := Nat.mul_le_mul_right _ (by omega)
  -- what is below and above the number, taken together, has to be longer than the step of the grid
  have hends : ∀ below ≤ 4 * m * step, 4 * m * step < 10 ^ k * (below + 2 * step) →
      4 * m * step + 10 ^ k * (4 * m * step - below) < 10 ^ k * (4 * m * step + 2 * step) := by
    intro below hbelow h
    obtain ⟨low, hlow⟩ := Nat.exists_eq_add_of_le hbelow
    rw [hlow] at h ⊢
    rw [Nat.add_sub_cancel_left]
    calc below + low + 10 ^ k * low < 10 ^ k * (below + 2 * step) + 10 ^ k * low :=
          Nat.add_lt_add_right h _
      _ = 10 ^ k * (below + low + 2 * step) := by ring
  split
  · next h =>
    -- below a power of two only a quarter of a step belongs to it, but there the digits go further
    apply hends _ (by omega)
    calc 4 * m * step ≤ 2 * 10 ^ k * step := Nat.mul_le_mul_right _ (by omega)
      _ < 10 ^ k * (step + 2 * step) := by
        rw [Nat.mul_comm 2, Nat.mul_assoc]
        exact Nat.mul_lt_mul_of_pos_left (by omega) (Nat.pow_pos (by decide))
  · apply hends _ (by omega)
    calc 4 * m * step < 4 * 10 ^ k * step := Nat.mul_lt_mul_of_pos_right (by omega) hstep
      _ = 10 ^ k * (2 * step + 2 * step) := by ring

/-- An interval ends halfway to the next magnitude. -/
theorem interval_high (f : Format) (g : Nat) : (f.interval g).high = 2 * f.midpoint g := by
  show 4 * f.significand g * 2 ^ f.shift g + 2 * 2 ^ f.shift g = _
  rw [midpoint]
  ring

/-- An interval begins where that of the magnitude before ends. -/
theorem interval_low_succ (f : Format) (g : Nat) :
    (f.interval (g + 1)).low = 2 * f.midpoint g := by
  have hunits := f.units_succ g
  have hshift := f.shift_succ g
  have hstep : 2 * 2 ^ f.shift g =
      if f.significand (g + 1) = f.hidden ∧ 0 < f.shift (g + 1) then 2 ^ f.shift (g + 1)
      else 2 * 2 ^ f.shift (g + 1) := by
    split
    · next h => rw [hshift, if_pos h, Nat.pow_succ']
    · next h => rw [hshift, if_neg h]
  show 4 * f.significand (g + 1) * 2 ^ f.shift (g + 1) - _ = _
  rw [Nat.mul_assoc, ← units, hunits, ← hstep, midpoint]
  generalize 2 ^ f.shift g = step
  have hsplit : 4 * ((f.significand g + 1) * step) =
      2 * ((2 * f.significand g + 1) * step) + 2 * step := by ring
  omega

/-! ### Rounding

Half a step is what rounding decides by, and at the ends, which are midpoints, the parity of the
significand. -/

variable {g num den : Nat}

/-- What the interval of a magnitude holds is rounded to it. -/
theorem round_of_holds (hf : f.Interchange) (hpos : 0 < g) (hden : 0 < den)
    (h : (f.interval g).holds (4 * 2 ^ f.scale) num den = true) : f.round num den = g := by
  obtain ⟨p, rfl⟩ : ∃ p, g = p + 1 := ⟨_, (Nat.sub_add_cancel hpos).symm⟩
  have hnum : num * (4 * 2 ^ f.scale) = 2 * (2 * (num * 2 ^ f.scale)) := by ring
  unfold Interval.holds at h
  rw [interval_low_succ, interval_high, hnum, Nat.mul_assoc, Nat.mul_assoc] at h
  have hclosed : (f.interval (p + 1)).closed = (f.significand (p + 1) % 2 == 0) := rfl
  rw [hclosed] at h
  have hparity := significand_mod_two hf p
  have hparity' := significand_mod_two hf (p + 1)
  -- the quotient lies below the number or above it, and either way before or at the midpoint there
  rcases Nat.lt_or_ge (num * 2 ^ f.scale) (f.units (p + 1) * den) with hlt | hge
  · rcases Nat.lt_trichotomy (f.midpoint p * den) (2 * (num * 2 ^ f.scale)) with hmid | hmid | hmid
    · exact round_of_midpoint_lt hf hden hmid hlt
    · rw [round_of_eq_midpoint hf hden hmid.symm]
      split at h <;> simp only [beq_iff_eq, decide_eq_true_eq] at * <;> omega
    · split at h <;> simp only [decide_eq_true_eq] at h <;> omega
  · rcases Nat.lt_trichotomy (2 * (num * 2 ^ f.scale)) (f.midpoint (p + 1) * den)
      with hmid | hmid | hmid
    · exact round_of_lt_midpoint hf hden hge hmid
    · rw [round_of_eq_midpoint hf hden hmid]
      split at h <;> simp only [beq_iff_eq, decide_eq_true_eq] at * <;> omega
    · split at h <;> simp only [decide_eq_true_eq] at h <;> omega

/-- On which side of the midpoint above a magnitude a quotient lies. -/
def side (f : Format) (g num den : Nat) : Ordering :=
  compare (2 * (num * 2 ^ f.scale)) (f.midpoint g * den)

/-- An interval only sees on which sides of its ends a quotient lies. -/
theorem holds_congr {num' den' : Nat} (hlow : f.side g num den = f.side g num' den')
    (hhigh : f.side (g + 1) num den = f.side (g + 1) num' den') :
    (f.interval (g + 1)).holds (4 * 2 ^ f.scale) num den =
      (f.interval (g + 1)).holds (4 * 2 ^ f.scale) num' den' := by
  have hnum : ∀ n, n * (4 * 2 ^ f.scale) = 2 * (2 * (n * 2 ^ f.scale)) := fun n => by ring
  unfold side at hlow hhigh
  -- the ends may belong to the interval or not: both comparisons follow from the side
  have hle : f.midpoint g * den ≤ 2 * (num * 2 ^ f.scale) ↔
      f.midpoint g * den' ≤ 2 * (num' * 2 ^ f.scale) := by
    rw [← Nat.isGE_compare, hlow, Nat.isGE_compare]
  have hlt : f.midpoint g * den < 2 * (num * 2 ^ f.scale) ↔
      f.midpoint g * den' < 2 * (num' * 2 ^ f.scale) := by
    rw [← Nat.compare_eq_gt, hlow, Nat.compare_eq_gt]
  have hle' : 2 * (num * 2 ^ f.scale) ≤ f.midpoint (g + 1) * den ↔
      2 * (num' * 2 ^ f.scale) ≤ f.midpoint (g + 1) * den' := by
    rw [← Nat.isLE_compare, hhigh, Nat.isLE_compare]
  have hlt' : 2 * (num * 2 ^ f.scale) < f.midpoint (g + 1) * den ↔
      2 * (num' * 2 ^ f.scale) < f.midpoint (g + 1) * den' := by
    rw [← Nat.compare_eq_lt, hhigh, Nat.compare_eq_lt]
  have hpos : (0 : Nat) < 2 := by decide
  unfold Interval.holds
  rw [interval_low_succ, interval_high, hnum, hnum]
  simp only [Nat.mul_assoc 2 (f.midpoint _), Nat.mul_le_mul_left_iff hpos,
    Nat.mul_lt_mul_left hpos, hle, hlt, hle', hlt']

end Format

/-- A number that the interval of a finite magnitude holds is converted to it. -/
theorem convert_of_holds {f g : Format} (hg : g.Interchange) {x : Binary f} {m : Nat} (hpos : 0 < m)
    (hfinite : m < g.infinity)
    (h : (g.interval m).holds (4 * 2 ^ g.scale) (f.units x.magnitude) (2 ^ f.scale) = true) :
    (x.convert : Binary g) = ofMagnitude x.negative m := by
  rw [convert, nearest, Format.round_of_holds hg hpos (Nat.two_pow_pos _) h,
    Nat.min_eq_left (Nat.le_of_lt hfinite)]

end TaggedWire.Binary
