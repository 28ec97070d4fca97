import TaggedWire.Marshaller.Scalar
import TaggedWire.Value.Equality
import TaggedWire.Proofs.Json.Finite
import TaggedWire.Proofs.Json.Written
import TaggedWire.Proofs.Results

/-!
# Scalars are read back

The text of a truth value, an integer or a character is read back as that scalar.  For a floating
point number this is a property of the digits that are written for it, and is asked for.

* `exists_read_of_text`: the text of a scalar denotes a document that is read as an equal scalar.
* `exists_text_of_read`: a scalar that was read has a text.
* `written_of_read`: unless it is a floating point number, that is the text of what it was read
  from.
-/

namespace TaggedWire.Scalar

/-- The text of the scalar, if it has one, is read back through its own marshaller as an equal
scalar. -/
def ReadsBack (x : Scalar) : Prop :=
  ∀ t, x.text = .ok t → ∃ j y, Json.parse? t = some j ∧ readScalar x.primitive j = .ok y ∧
    y.equal x = true

/-- Every floating point number is read back; for the other scalars nothing is said. -/
def FloatReadsBack (x : Scalar) : Prop := x.primitive.isFloat = true → x.ReadsBack

theorem isNull_of_readScalar {p : Primitive} {j : Json} {y : Scalar}
    (h : readScalar p j = .ok y) : j.isNull = false := by
  cases j with
  | null => cases p <;> cases h
  | _ => rfl

theorem readInt64_integer (p : Primitive) {n : Int} (h : n < 2 ^ 63) :
    readInt64 p (.number (.integer n)) = .ok n := by
  have hint : (Json.number (.integer n)).number?.bind Json.Number.int64? = some n := if_pos h
  rw [readInt64, hint]

theorem pow_le_of_bits {bits : Nat} (h : bits ≤ 64) : (2 : Int) ^ (bits - 1) ≤ 2 ^ 63 := by
  have hpow : 2 ^ (bits - 1) ≤ 2 ^ 63 := Nat.pow_le_pow_right (by decide) (Nat.sub_le_sub_right h 1)
  exact_mod_cast hpow

theorem readInt_integer (p : Primitive) {bits : Nat} (hbits : bits ≤ 64) {n : Int}
    (hlow : -2 ^ (bits - 1) ≤ n) (hhigh : n < 2 ^ (bits - 1)) :
    readInt p bits (.number (.integer n)) = .ok n := by
  have hsize := pow_le_of_bits hbits
  refine bind_eq_ok_iff.2 ⟨n, readInt64_integer p (by omega), ?_⟩
  rw [if_pos ⟨hlow, hhigh⟩]

/-- The digits of an integer are read back as the scalar that the integer is read as. -/
theorem exists_read_of_int {x : Scalar} {n : Int} (hlow : -2 ^ 63 ≤ n) (hhigh : n < 2 ^ 63)
    (hread : readScalar x.primitive (.number (.integer n)) = .ok x) (hself : x.equal x = true) :
    ∃ j y, Json.Written (toString n) j ∧ readScalar x.primitive j = .ok y ∧ y.equal x = true :=
  ⟨_, x, Json.written_int hlow (by omega), hread, hself⟩

/-- So are those of an integer that is checked to fit a size, and then stored in it. -/
theorem exists_read_of_sized {x : Scalar} {bits : Nat} (hbits : bits ≤ 64) {n : Int}
    {store : Int → Scalar}
    (hread : ∀ j, readScalar x.primitive j = (do return store (← readInt x.primitive bits j)))
    (hlow : -2 ^ (bits - 1) ≤ n) (hhigh : n < 2 ^ (bits - 1)) (hstore : store n = x)
    (hself : x.equal x = true) :
    ∃ j y, Json.Written (toString n) j ∧ readScalar x.primitive j = .ok y ∧ y.equal x = true := by
  have hsize := pow_le_of_bits hbits
  refine exists_read_of_int (by omega) (by omega) ?_ hself
  rw [hread]
  exact bind_eq_ok_iff.2 ⟨n, readInt_integer _ hbits hlow hhigh, congrArg _ hstore⟩

/-- The text of a scalar is read back as an equal one, provided that a floating point number is. -/
theorem exists_read_of_text {x : Scalar} (hfloat : x.FloatReadsBack) {t : String}
    (h : x.text = .ok t) :
    ∃ j y, Json.Written t j ∧ readScalar x.primitive j = .ok y ∧ y.equal x = true := by
  cases x with
  | bool b =>
    cases h
    exact ⟨_, _, Json.written_bool b, rfl, beq_self_eq_true b⟩
  -- integers of each size are written as they are, and lie in the range that is checked
  | i8 n =>
    cases h
    exact exists_read_of_sized (by decide) (fun _ => rfl) n.le_toInt n.toInt_lt
      (congrArg i8 (Int8.ofInt_toInt n)) (beq_self_eq_true n)
  | i16 n =>
    cases h
    exact exists_read_of_sized (by decide) (fun _ => rfl) n.le_toInt n.toInt_lt
      (congrArg i16 (Int16.ofInt_toInt n)) (beq_self_eq_true n)
  | i32 n =>
    cases h
    exact exists_read_of_sized (by decide) (fun _ => rfl) n.le_toInt n.toInt_lt
      (congrArg i32 (Int32.ofInt_toInt n)) (beq_self_eq_true n)
  | i64 n =>
    cases h
    have hlow := n.le_toInt
    have hhigh := n.toInt_lt
    have hread : readScalar .i64 (.number (.integer n.toInt)) = .ok (i64 (.ofInt n.toInt)) :=
      bind_eq_ok_iff.2 ⟨_, readInt64_integer _ hhigh, rfl⟩
    rw [Int64.ofInt_toInt] at hread
    exact exists_read_of_int hlow hhigh hread (beq_self_eq_true n)
  -- that a floating point number is read back depends on the reader, and is assumed
  | f32 x | f64 x =>
    obtain ⟨j, y, hparse, hread, hequal⟩ := hfloat rfl t h
    exact ⟨j, y, Json.written_of_parse? hparse, hread, hequal⟩
  | char c =>
    cases h
    refine ⟨_, char c, Json.written_quote _, ?_, beq_self_eq_true c⟩
    simp [primitive, readScalar, Json.string?]

/-! ### Written back

What was read from a document is written as the document again, but for floating point numbers,
whose digits are chosen anew. -/

theorem exists_floatText {f : Binary.Format} {p : Primitive} {l : Layout} {x : Binary f}
    (h : x.isFinite = true) : ∃ t, floatText p l x = .ok t := ⟨_, if_pos h⟩

theorem isFinite_of_readBinary64 {p : Primitive} {j : Json} (hj : j.Finite) {x : Binary64}
    (h : readBinary64 p j = .ok x) : x.isFinite = true := by
  cases hj with
  | number hfinite =>
    cases h
    exact hfinite
  | _ => cases h

/-- A scalar from a document is never one that cannot be written. -/
theorem exists_text_of_read {p : Primitive} {j : Json} (hj : j.Finite) {x : Scalar}
    (h : readScalar p j = .ok x) : x.primitive = p ∧ ∃ t, x.text = .ok t := by
  cases p with
  | bool =>
    simp only [readScalar] at h
    split at h <;> cases h
    exact ⟨rfl, _, rfl⟩
  | i8 | i16 | i32 | i64 =>
    obtain ⟨n, -, hx⟩ := bind_eq_ok_iff.1 h
    cases hx
    exact ⟨rfl, _, rfl⟩
  -- an infinity is refused
  | f32 =>
    obtain ⟨y, -, hx⟩ := bind_eq_ok_iff.1 h
    simp only at hx
    split at hx
    · next hfinite =>
      cases hx
      exact ⟨rfl, exists_floatText hfinite⟩
    · cases hx
  -- a finite number is never read as an infinity
  | f64 =>
    obtain ⟨y, hy, hx⟩ := bind_eq_ok_iff.1 h
    cases hx
    exact ⟨rfl, exists_floatText (isFinite_of_readBinary64 hj hy)⟩
  | char =>
    simp only [readScalar] at h
    split at h
    · cases h
    · split at h <;> cases h
      exact ⟨rfl, _, rfl⟩

theorem eq_of_readInt64 {p : Primitive} {j : Json} {n : Int} (h : readInt64 p j = .ok n) :
    j = .number (.integer n) ∧ n < 2 ^ 63 := by
  unfold readInt64 at h
  split at h
  · next hnumber =>
    cases h
    obtain ⟨x, hx, hn⟩ := Option.bind_eq_some_iff.1 hnumber
    cases x with
    | real _ => cases hn
    | integer m =>
      obtain ⟨hhigh, hm⟩ := Option.ite_none_right_eq_some.1 hn
      cases hm
      cases j with
      | number y =>
        cases hx
        exact ⟨rfl, hhigh⟩
      | _ => cases hx
  · cases h

theorem eq_of_readInt {p : Primitive} {bits : Nat} {j : Json} {n : Int}
    (h : readInt p bits j = .ok n) :
    j = .number (.integer n) ∧ -2 ^ (bits - 1) ≤ n ∧ n < 2 ^ (bits - 1) := by
  obtain ⟨m, hm, h⟩ := bind_eq_ok_iff.1 h
  split at h
  · next hrange =>
    cases h
    exact ⟨(eq_of_readInt64 hm).1, hrange⟩
  · cases h

/-- An integer that was checked to fit a size is written as it was read, as the size keeps it. -/
theorem written_of_readInt {p : Primitive} {bits : Nat} (hbits : bits ≤ 64) {j : Json} {n m : Int}
    (h : readInt p bits j = .ok n)
    (hkept : -2 ^ (bits - 1) ≤ n → n < 2 ^ (bits - 1) → m = n) :
    Json.Written (toString m) j := by
  obtain ⟨rfl, hlow, hhigh⟩ := eq_of_readInt h
  have hsize := pow_le_of_bits hbits
  rw [hkept hlow hhigh]
  exact Json.written_int (by omega) (by omega)

theorem written_of_readChar {j : Json} {x : Scalar} (h : readScalar .char j = .ok x) :
    ∃ c, x = char c ∧ Json.Written (Json.quote c.toString) j := by
  simp only [readScalar] at h
  split at h
  · cases h
  · next s hs =>
    split at h
    · next c hc =>
      cases h
      cases j with
      | string t =>
        cases hs
        obtain rfl : c.toString = s := String.toList_injective (by simp [hc])
        exact ⟨c, rfl, Json.written_quote _⟩
      | _ => cases hs
    · cases h

/-- What is not a floating point number is written as it was read. -/
theorem written_of_read {p : Primitive} (hp : p.isFloat = false) {j : Json} (hj : j.Sized)
    {x : Scalar} (h : readScalar p j = .ok x) :
    x.primitive = p ∧ ∃ t, x.text = .ok t ∧ Json.Written t j := by
  cases p with
  | f32 | f64 => cases hp
  | bool =>
    cases j with
    | bool b =>
      cases h
      exact ⟨rfl, _, rfl, Json.written_bool b⟩
    | _ => cases h
  | i8 =>
    obtain ⟨n, hn, hx⟩ := bind_eq_ok_iff.1 h
    cases hx
    exact ⟨rfl, _, rfl, written_of_readInt (by decide) hn Int8.toInt_ofInt_of_le⟩
  | i16 =>
    obtain ⟨n, hn, hx⟩ := bind_eq_ok_iff.1 h
    cases hx
    exact ⟨rfl, _, rfl, written_of_readInt (by decide) hn Int16.toInt_ofInt_of_le⟩
  | i32 =>
    obtain ⟨n, hn, hx⟩ := bind_eq_ok_iff.1 h
    cases hx
    exact ⟨rfl, _, rfl, written_of_readInt (by decide) hn Int32.toInt_ofInt_of_le⟩
  -- no lower bound is checked: it is the reader's
  | i64 =>
    obtain ⟨n, hn, hx⟩ := bind_eq_ok_iff.1 h
    cases hx
    obtain ⟨rfl, hhigh⟩ := eq_of_readInt64 hn
    cases hj with
    | number hsized =>
      have hlow := (hsized n rfl).1
      refine ⟨rfl, _, rfl, ?_⟩
      rw [Int64.toInt_ofInt_of_le hlow hhigh]
      exact Json.written_int hlow (by omega)
  | char =>
    obtain ⟨c, rfl, hc⟩ := written_of_readChar h
    exact ⟨rfl, _, rfl, hc⟩

end TaggedWire.Scalar
