import TaggedWire.Json.Token

/-!
# Scanning number literals

A run of digits is one number, whichever part of a literal it stands in: the scanner takes the
digits one by one and adds them to the number read so far, as `Nat.ofDigitChars` does.  Only the
first digit of a literal is special, for no digit may follow a leading zero.

* `scan_whole`, `scan_fraction`, `scan_exponent`: a run of digits inside each part.
* `scan_leading`: the digits with which a literal begins.
* `scan_toDigits`: the digits of a positive number.
* `scan_pointed`, `scan_mark`: a point among the digits, an exponent after them.
-/

namespace TaggedWire.Json

/-- What has been read when the first digit of a number is due. -/
def Scan.signed (negative : Bool) (below : List Token) : Scan :=
  if negative then ⟨.number .sign { negative := true }, below⟩ else ⟨.outside, below⟩

/-- A number literal without a point, whose digits have been read. -/
def Scan.digits (negative : Bool) (n : Nat) (below : List Token) : Scan :=
  ⟨.number .whole { negative := negative, significand := n }, below⟩

/-- A number literal with a point, with some digits read after it. -/
def Scan.pointed (negative : Bool) (n places : Nat) (below : List Token) : Scan :=
  ⟨.number .fraction
    { negative := negative, significand := n, places := places, whole := false }, below⟩

/-! ### Runs of digits

One lemma for each part of a literal in which digits may follow. -/

section Run

variable {ds : List Char} (hdigits : ∀ c ∈ ds, c.isDigit = true) (n : Numeral)
  (below : List Token)

include hdigits

theorem scan_whole : scan ⟨.number .whole n, below⟩ ds =
    some ⟨.number .whole { n with significand := Nat.ofDigitChars 10 ds n.significand },
      below⟩ := by
  induction ds generalizing n with
  | nil => rfl
  | cons c cs ih =>
    obtain ⟨hc, hcs⟩ := List.forall_mem_cons.1 hdigits
    have hstep : Scan.step ⟨.number .whole n, below⟩ c =
        some ⟨.number .whole { n with significand := 10 * n.significand + (c.toNat - '0'.toNat) },
          below⟩ := by
      simp [Scan.step, NumberPart.next?, hc, Nat.mul_comm]
    rw [scan_cons, hstep, Option.bind_some, ih hcs, Nat.ofDigitChars_cons]

theorem scan_fraction : scan ⟨.number .fraction n, below⟩ ds =
    some ⟨.number .fraction { n with
      significand := Nat.ofDigitChars 10 ds n.significand
      places := n.places + ds.length }, below⟩ := by
  induction ds generalizing n with
  | nil => rfl
  | cons c cs ih =>
    obtain ⟨hc, hcs⟩ := List.forall_mem_cons.1 hdigits
    have hstep : Scan.step ⟨.number .fraction n, below⟩ c =
        some ⟨.number .fraction { n with
          significand := 10 * n.significand + (c.toNat - '0'.toNat)
          places := n.places + 1 }, below⟩ := by
      simp [Scan.step, NumberPart.next?, hc, Nat.mul_comm]
    rw [scan_cons, hstep, Option.bind_some, ih hcs, Nat.ofDigitChars_cons, List.length_cons,
      Nat.add_assoc, Nat.add_comm 1]

theorem scan_exponent : scan ⟨.number .exponent n, below⟩ ds =
    some ⟨.number .exponent { n with exponent := Nat.ofDigitChars 10 ds n.exponent }, below⟩ := by
  induction ds generalizing n with
  | nil => rfl
  | cons c cs ih =>
    obtain ⟨hc, hcs⟩ := List.forall_mem_cons.1 hdigits
    have hstep : Scan.step ⟨.number .exponent n, below⟩ c =
        some ⟨.number .exponent { n with exponent := 10 * n.exponent + (c.toNat - '0'.toNat) },
          below⟩ := by
      simp [Scan.step, NumberPart.next?, hc, Nat.mul_comm]
    rw [scan_cons, hstep, Option.bind_some, ih hcs, Nat.ofDigitChars_cons]

/-- After the point a digit is read as it is after another digit. -/
theorem scan_point (hne : ds ≠ []) : scan ⟨.number .point n, below⟩ ds =
    some ⟨.number .fraction { n with
      significand := Nat.ofDigitChars 10 ds n.significand
      places := n.places + ds.length }, below⟩ := by
  rw [← scan_fraction hdigits]
  cases ds with
  | nil => exact absurd rfl hne
  | cons c cs =>
    have hc := hdigits c List.mem_cons_self
    rw [scan_cons, scan_cons]
    simp [Scan.step, NumberPart.next?, hc]

/-- After the sign of the exponent a digit is read as it is after another digit. -/
theorem scan_markSign (hne : ds ≠ []) : scan ⟨.number .markSign n, below⟩ ds =
    some ⟨.number .exponent { n with exponent := Nat.ofDigitChars 10 ds n.exponent }, below⟩ := by
  rw [← scan_exponent hdigits]
  cases ds with
  | nil => exact absurd rfl hne
  | cons c cs =>
    have hc := hdigits c List.mem_cons_self
    rw [scan_cons, scan_cons]
    simp [Scan.step, NumberPart.next?, hc]

end Run

/-! ### The first digit

A literal begins with a zero and nothing else, or with a digit that is not zero. -/

theorem step_firstDigit (negative : Bool) (below : List Token) {d : Nat} (hd : d < 10)
    (hpos : 0 < d) :
    (Scan.signed negative below).step (Nat.digitChar d) = some (.digits negative d below) := by
  have hcases : d = 1 ∨ d = 2 ∨ d = 3 ∨ d = 4 ∨ d = 5 ∨ d = 6 ∨ d = 7 ∨ d = 8 ∨ d = 9 := by omega
  rcases hcases with rfl | rfl | rfl | rfl | rfl | rfl | rfl | rfl | rfl <;>
    cases negative <;> rfl

/-- A run of digits that does not begin with a zero. -/
structure Leading (ds : List Char) : Prop where
  digits : ∀ c ∈ ds, c.isDigit = true
  first : ∃ d cs, 0 < d ∧ d < 10 ∧ ds = Nat.digitChar d :: cs

theorem scan_leading (negative : Bool) (below : List Token) {ds : List Char} (h : Leading ds) :
    scan (.signed negative below) ds =
      some (.digits negative (Nat.ofDigitChars 10 ds 0) below) := by
  obtain ⟨hdigits, d, cs, hpos, hd, rfl⟩ := h
  rw [scan_cons, step_firstDigit negative below hd hpos, Option.bind_some, Scan.digits,
    scan_whole (List.forall_mem_cons.1 hdigits).2, Nat.ofDigitChars_cons_digitChar_of_lt_ten hd,
    Nat.mul_zero, Nat.zero_add]
  rfl

theorem isDigit_of_mem_toDigits {n : Nat} : ∀ c ∈ Nat.toDigits 10 n, c.isDigit = true :=
  fun _ => Nat.isDigit_of_mem_toDigits (by decide) (by decide)

/-- By induction on the number: its first digit is that of what precedes its last. -/
theorem leading_toDigits {n : Nat} (hpos : 0 < n) : Leading (Nat.toDigits 10 n) := by
  refine ⟨isDigit_of_mem_toDigits, ?_⟩
  induction n using Nat.strongRecOn with
  | ind n ih =>
    rw [Nat.toDigits_eq_if (by decide)]
    split
    · next hn => exact ⟨n, [], hpos, hn, rfl⟩
    · next hn =>
      obtain ⟨d, cs, hd, hlt, heq⟩ := ih (n / 10) (by omega) (by omega)
      exact ⟨d, cs ++ [Nat.digitChar (n % 10)], hd, hlt, by rw [heq, List.cons_append]⟩

theorem Leading.take {ds : List Char} (h : Leading ds) {k : Nat} (hk : 0 < k) :
    Leading (ds.take k) := by
  obtain ⟨hdigits, d, cs, hpos, hd, rfl⟩ := h
  refine ⟨fun c hc => hdigits c (List.mem_of_mem_take hc), d, cs.take (k - 1), hpos, hd, ?_⟩
  rw [List.take_cons hk]

theorem Leading.append {ds es : List Char} (h : Leading ds) (hes : ∀ c ∈ es, c.isDigit = true) :
    Leading (ds ++ es) := by
  obtain ⟨hdigits, d, cs, hpos, hd, rfl⟩ := h
  exact ⟨List.forall_mem_append.2 ⟨hdigits, hes⟩, d, cs ++ es, hpos, hd, rfl⟩

theorem scan_toDigits (negative : Bool) (below : List Token) {n : Nat} (hpos : 0 < n) :
    scan (.signed negative below) (Nat.toDigits 10 n) = some (.digits negative n below) := by
  rw [scan_leading negative below (leading_toDigits hpos), Nat.ofDigitChars_ten_toDigits]

/-! ### Points and exponents

Behind a point or an exponent sign there has to be a digit, and from then on it is a run. -/

/-- Digits, the point, and digits again are read as one number with its last places marked off. -/
theorem scan_pointed (negative : Bool) (below : List Token) {ds es : List Char} (hds : Leading ds)
    (hes : ∀ c ∈ es, c.isDigit = true) (hne : es ≠ []) :
    scan (.signed negative below) (ds ++ '.' :: es) =
      some (.pointed negative (Nat.ofDigitChars 10 (ds ++ es) 0) es.length below) := by
  rw [scan_append, scan_leading negative below hds, Option.bind_some, scan_cons]
  show scan ⟨.number .point { negative := negative, significand := _, whole := false },
    below⟩ es = _
  rw [scan_point hes _ _ hne, Nat.ofDigitChars_append, Nat.zero_add]
  rfl

/-- So are digits after a zero and the point. -/
theorem scan_pointed_zero (negative : Bool) (below : List Token) {es : List Char}
    (hes : ∀ c ∈ es, c.isDigit = true) (hne : es ≠ []) :
    scan (.signed negative below) ('0' :: '.' :: es) =
      some (.pointed negative (Nat.ofDigitChars 10 es 0) es.length below) := by
  have hzero : scan (.signed negative below) ('0' :: '.' :: es) =
      scan ⟨.number .point { negative := negative, whole := false }, below⟩ es := by
    cases negative <;> rfl
  rw [hzero, scan_point hes _ _ hne, Nat.zero_add]
  rfl

/-- An exponent mark with its sign and digits sets the exponent. -/
theorem scan_mark (n : Numeral) (below : List Token) (hsign : n.exponentNegative = false)
    (hexponent : n.exponent = 0) (e : Int) :
    scan ⟨.number .mark n, below⟩ ((if e < 0 then '-' else '+') :: Nat.toDigits 10 e.natAbs) =
      some ⟨.number .exponent { n with exponentNegative := decide (e < 0), exponent := e.natAbs },
        below⟩ := by
  have hstep : Scan.step ⟨.number .mark n, below⟩ (if e < 0 then '-' else '+') =
      some ⟨.number .markSign { n with exponentNegative := decide (e < 0) }, below⟩ := by
    obtain ⟨_, _, _, exponentNegative, _, _⟩ := n
    cases hsign
    by_cases h : e < 0
    · simp only [h, if_true, decide_true]
      rfl
    · simp only [h, if_false, decide_false]
      rfl
  rw [scan_cons, hstep, Option.bind_some,
    scan_markSign isDigit_of_mem_toDigits _ _ Nat.toDigits_ne_nil, hexponent,
    Nat.ofDigitChars_ten_toDigits]

end TaggedWire.Json
