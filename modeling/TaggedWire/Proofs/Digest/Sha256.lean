import Mathlib.Algebra.Group.Nat.Defs
import TaggedWire.Digest.Sha256
import TaggedWire.Json.Literal
import TaggedWire.Text.Blank

/-!
# Digests in hexadecimal

Writing a digest in hexadecimal loses nothing: texts of digests are equal exactly when the digests
are.  Every such text has sixty-four characters, none of them blank.
-/

namespace TaggedWire.Sha256

theorem length_hexWord (w : UInt32) : (hexWord w).length = 8 := by simp [hexWord]

/-- A number below `2 ^ 32` is known by its eight digits. -/
theorem eq_of_hexDigits {n m : Nat} (hn : n < 2 ^ 32) (hm : m < 2 ^ 32)
    (h : ∀ i < 8, n / 16 ^ i % 16 = m / 16 ^ i % 16) : n = m := by
  have h0 := h 0 (by omega)
  have h1 := h 1 (by omega)
  have h2 := h 2 (by omega)
  have h3 := h 3 (by omega)
  have h4 := h 4 (by omega)
  have h5 := h 5 (by omega)
  have h6 := h 6 (by omega)
  have h7 := h 7 (by omega)
  omega

theorem hexWord_injective {v w : UInt32} (h : hexWord v = hexWord w) : v = w := by
  unfold hexWord at h
  have hmap := List.map_inj_left.1 (List.reverse_inj.1 h)
  refine UInt32.toNat_inj.1 (eq_of_hexDigits v.toNat_lt w.toNat_lt fun i hi => ?_)
  exact Json.hexDigit_injective (Nat.mod_lt _ (by decide)) (Nat.mod_lt _ (by decide))
    (hmap i (List.mem_range.2 hi))

theorem isBlank_hexWord {w : UInt32} {c : Char} (hc : c ∈ hexWord w) : Text.isBlank c = false := by
  obtain ⟨i, -, rfl⟩ := List.mem_map.1 (List.mem_reverse.1 hc)
  have hdigit : w.toNat / 16 ^ i % 16 < 16 := Nat.mod_lt _ (by decide)
  generalize w.toNat / 16 ^ i % 16 = n at hdigit
  revert n
  decide

/-- The words of a chain, in order. -/
def Chain.words (s : Chain) : List UInt32 := [s.a, s.b, s.c, s.d, s.e, s.f, s.g, s.h]

theorem Chain.words_injective {s t : Chain} (h : s.words = t.words) : s = t := by
  cases s
  cases t
  simpa [Chain.words] using h

theorem flatMap_hexWord_injective {vs ws : List UInt32} (hlength : vs.length = ws.length)
    (h : vs.flatMap hexWord = ws.flatMap hexWord) : vs = ws := by
  induction vs generalizing ws with
  | nil => exact (List.length_eq_zero_iff.1 hlength.symm).symm
  | cons v vs ih =>
    cases ws with
    | nil => cases hlength
    | cons w ws =>
      rw [List.flatMap_cons, List.flatMap_cons] at h
      obtain ⟨hword, hrest⟩ := List.append_inj h (by rw [length_hexWord, length_hexWord])
      rw [hexWord_injective hword, ih (Nat.succ.inj hlength) hrest]

theorem hexDigest_eq (message : List UInt8) :
    (hexDigest message).toList = (digest message).words.flatMap hexWord := by
  unfold hexDigest Chain.words
  exact String.toList_ofList

theorem hexDigest_inj {message message' : List UInt8} :
    hexDigest message = hexDigest message' ↔ digest message = digest message' := by
  rw [← String.toList_inj, hexDigest_eq, hexDigest_eq]
  constructor
  · intro h
    exact Chain.words_injective (flatMap_hexWord_injective rfl h)
  · intro h
    rw [h]

theorem length_hexDigest (message : List UInt8) : (hexDigest message).toList.length = 64 := by
  rw [hexDigest_eq]
  simp [Chain.words, length_hexWord]

theorem isBlank_hexDigest {message : List UInt8} {c : Char} (hc : c ∈ (hexDigest message).toList) :
    Text.isBlank c = false := by
  rw [hexDigest_eq] at hc
  obtain ⟨w, -, hc⟩ := List.mem_flatMap.1 hc
  exact isBlank_hexWord hc

end TaggedWire.Sha256
