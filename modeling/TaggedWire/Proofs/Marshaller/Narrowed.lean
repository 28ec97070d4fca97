import TaggedWire.Proofs.Binary.Narrowed
import TaggedWire.Proofs.Json.Floating
import TaggedWire.Proofs.Marshaller.Scalar

/-!
# Numbers of 32 bits survive the wire

A 32-bit number is written with the fewest digits that tell it from its neighbours, but these digits
are read as a 64-bit number, which is then narrowed.  However a layout arranges the digits, the two
roundings lead back to the number that was written, with its sign.

## One number and its negative

There are numbers for which that depends on the reader.  The digits of `0x15ae43fd` stand so near to
the midpoint above it that the midpoint is the nearest 64-bit number; narrowed, this is the next
32-bit number, whose significand is even.  It is the only one, up to the sign.  A reader that scales
the digits ends one 64-bit number below the midpoint and loses none.

* `Binary32.convert_written`: the digits are narrowed to their number.
* `Scalar.read_write_f32`: with a reader that takes the nearest number, all finite numbers but two
  are read as they were written.
* `Scalar.read_write_scaled`, `Scalar.floatReadsBack_f32`: with one that scales the digits, all are.
-/

namespace TaggedWire

/-- The digits on the wire are narrowed to the number that they were written for. -/
theorem Binary32.convert_written {read : Bool → Decimal → Binary64}
    (hrounds : Decimal.Rounds read) {lost : List Decimal} (hcleared : Cleared read lost)
    {x : Binary32} (hfinite : x.isFinite = true)
    (hkept : 0 < x.magnitude → Binary.Format.binary32.shortest x.magnitude ∉ lost) :
    (read x.negative (x.written .wire32)).convert = x := by
  have hlt : x.magnitude < Binary.Format.binary32.infinity := of_decide_eq_true hfinite
  rcases Binary.written_cases Binary.Format.interchange_binary32 Layout.bounded_wire32 x with
    ⟨hmagnitude, hzero⟩ | ⟨hpos, ⟨n, k, hshortest, -, hsmall, hwhole⟩ | hshortest⟩
  · -- zero keeps its sign
    have hconvert : ∀ negative, (Binary.ofMagnitude negative 0 : Binary64).convert =
        (Binary.ofMagnitude negative 0 : Binary32) := by decide +kernel
    rw [hzero, hrounds.zero, hconvert, ← hmagnitude,
      Binary.ofMagnitude_magnitude Binary.Format.interchange_binary32]
  · rw [hwhole]
    exact convert_whole hrounds hpos hlt hshortest (Nat.lt_trans hsmall (by decide))
  · rw [hshortest]
    exact convert_shortest hrounds hcleared (hkept hpos) hpos hlt

namespace Scalar

section Reader

variable [Json.Numeral.Reader] {way : Bool → Decimal → Binary64}

/-- What is on the wire for a finite number is read as what its digits are narrowed to. -/
theorem readScalar_text32 (hreader : Json.Numeral.Reader.Reads way)
    (hrounds : Decimal.Rounds way) {x y : Binary32} (hfinite : x.isFinite = true)
    (hconvert : (way x.negative (x.written .wire32)).convert = y) (hy : y.isFinite = true) :
    ∃ j, Json.parse? (x.text .wire32) = some j ∧ readScalar .f32 j = .ok (f32 y) := by
  refine ⟨_, Binary.parse?_text32 hreader hrounds hfinite, ?_⟩
  refine bind_eq_ok_iff.2 ⟨way x.negative (x.written .wire32), rfl, ?_⟩
  simp only [hconvert, hy, if_true]
  rfl

/-- So a finite number is written, and read as that number. -/
theorem read_write (hreader : Json.Numeral.Reader.Reads way) (hrounds : Decimal.Rounds way)
    {x y : Binary32} (hfinite : x.isFinite = true)
    (hconvert : (way x.negative (x.written .wire32)).convert = y) (hy : y.isFinite = true) :
    ∃ s, write .f32 (.scalar (f32 x)) = .ok s ∧
      (Wire.parse s >>= read .f32) = .ok (.scalar (f32 y)) := by
  obtain ⟨j, hparse, hread⟩ := readScalar_text32 hreader hrounds hfinite hconvert hy
  refine ⟨x.text .wire32, if_pos hfinite, ?_⟩
  rw [Wire.parse, hparse]
  show read .f32 j = _
  rw [read, hread]
  rfl

/-- With a reader that reads every literal as the nearest number, a finite 32-bit number is written
and read as the same bits, unless it is `0x15ae43fd` or its negative. -/
theorem read_write_f32
    (hnearest : ∀ n : Json.Numeral, Json.Numeral.Reader.read n = n.decimal.nearest n.negative)
    (x : Binary32) (hfinite : x.isFinite = true) (hx : x.magnitude ≠ 0x15ae43fd) :
    ∃ s, write .f32 (.scalar (f32 x)) = .ok s ∧
      (Wire.parse s >>= read .f32) = .ok (.scalar (f32 x)) :=
  have hkept (hpos : 0 < x.magnitude) := Binary32.shortest_kept hpos hx
  read_write (fun n _ => hnearest n) Decimal.rounds_nearest hfinite
    (Binary32.convert_written Decimal.rounds_nearest cleared_nearest hfinite hkept) hfinite

end Reader

/-- The neighbour of the exception is read as itself. -/
theorem read_write_f32_nextMidpoint :
    (⟨0x15ae43fe⟩ : Binary32).isFinite = true ∧ (⟨0x15ae43fe⟩ : Binary32).magnitude ≠ 0x15ae43fd ∧
      ∃ s, write .f32 (.scalar (f32 ⟨0x15ae43fe⟩)) = .ok s ∧
        (@Wire.parse Json.Numeral.nearestReader s >>= read .f32) =
          .ok (.scalar (f32 ⟨0x15ae43fe⟩)) :=
  ⟨by decide, by decide, @read_write_f32 Json.Numeral.nearestReader (fun _ => rfl) ⟨0x15ae43fe⟩
    (by decide) (by decide)⟩

/-- The nearest 64-bit number to the shortest decimal of this number is the midpoint above it, so it
is read as the next number. -/
theorem lost_f32 :
    (∀ n, @Json.Numeral.Reader.read Json.Numeral.nearestReader n =
      n.decimal.nearest n.negative) ∧ (⟨0x15ae43fd⟩ : Binary32).isFinite = true ∧
    ∃ s, write .f32 (.scalar (f32 ⟨0x15ae43fd⟩)) = .ok s ∧
      (@Wire.parse Json.Numeral.nearestReader s >>= read .f32) =
        .ok (.scalar (f32 ⟨0x15ae43fe⟩)) := by
  have hconvert : (Decimal.nearest (⟨0x15ae43fd⟩ : Binary32).negative
      ((⟨0x15ae43fd⟩ : Binary32).written .wire32) : Binary64).convert =
        (⟨0x15ae43fe⟩ : Binary32) := by
    decide +kernel
  exact ⟨fun _ => rfl, by decide, @read_write Json.Numeral.nearestReader Decimal.nearest
    (fun _ _ => rfl) Decimal.rounds_nearest _ _ (by decide) hconvert (by decide)⟩

/-! ### The reader that scales

It gives up no decimal, so there are no exceptions. -/

/-- With the reader that scales the digits, every finite 32-bit number is read as the same bits. -/
theorem read_write_scaled (x : Binary32) (hfinite : x.isFinite = true) :
    ∃ s, write .f32 (.scalar (f32 x)) = .ok s ∧
      (Wire.parse s >>= read .f32) = .ok (.scalar (f32 x)) :=
  read_write Json.Numeral.scalingReader_reads Decimal.rounds_scaled hfinite
    (Binary32.convert_written Decimal.rounds_scaled cleared_scaled hfinite fun _ => nofun) hfinite

/-- The round trip of values may rely on it. -/
theorem floatReadsBack_f32 (x : Binary32) : (f32 x).FloatReadsBack := by
  intro _ t h
  obtain ⟨hfinite, rfl⟩ := isFinite_of_floatText h
  obtain ⟨j, hparse, hread⟩ := readScalar_text32 Json.Numeral.scalingReader_reads
    Decimal.rounds_scaled hfinite
    (Binary32.convert_written Decimal.rounds_scaled cleared_scaled hfinite fun _ => nofun) hfinite
  have hnumber : x.isNaN = false := decide_eq_false (Nat.lt_asymm (of_decide_eq_true hfinite))
  exact ⟨j, f32 x, hparse, hread, (Binary.equal_self_iff x).2 hnumber⟩

end Scalar
end TaggedWire
