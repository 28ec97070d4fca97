import TaggedWire.Marshaller.Scalar
import TaggedWire.Proofs.Binary.Narrowed
import TaggedWire.Proofs.Json.Written

/-!
# Texts of floating point numbers are number literals

The digits of a decimal are laid out with a point, with zeros in front or behind, or with an
exponent.  However they are laid out, the scanner reads one literal, which keeps the digits: only a
whole number that is written with a zero after the point has more of them.  The shortest decimal of
a finite number is far enough from infinity to denote a number again.

* `Json.denotes_decimal`: the layout of a positive decimal is a literal of its digits.
* `Json.scans_text`: so is the text of a finite number.
* `Binary.parse?_text32`, `Binary.parse?_text64`: the number that it is read as.
* `Scalar.exists_written_text`: the text of a scalar denotes a document.
-/

namespace TaggedWire

/-- The decimal that a reader finds in the digits that a layout writes for one. -/
def Layout.written (l : Layout) (d : Decimal) : Decimal :=
  if l.positional (d.exponent + digitCount d.significand - 1) = true ∧ 0 ≤ d.exponent then
    ⟨d.significand * 10 ^ (d.exponent.toNat + 1), -1⟩
  else d

/-- The decimal that a reader finds in the text of a finite number. -/
def Binary.written {f : Binary.Format} (l : Layout) (x : Binary f) : Decimal :=
  if x.magnitude = 0 then ⟨0, -1⟩ else l.written (f.shortest x.magnitude)

namespace Json

/-- The literal has a point or an exponent, the sign, and the digits of the decimal. -/
structure Numeral.Spells (n : Numeral) (negative : Bool) (d : Decimal) : Prop where
  negative : n.negative = negative
  pointed : n.whole = false
  decimal : n.decimal = d

/-- The characters, after a sign if there is one, are a literal of the decimal's digits. -/
def Denotes (cs : List Char) (d : Decimal) : Prop :=
  ∀ negative, ∃ part n, scan (.signed negative []) cs = some ⟨.number part n, []⟩ ∧
    part.complete = true ∧ n.Spells negative d

theorem isDigit_of_mem_zeros {k : Nat} : ∀ c ∈ List.replicate k '0', c.isDigit = true := by
  intro c hc
  rw [List.eq_of_mem_replicate hc]
  rfl

/-- The last digit of a literal without an exponent stands as many places below the point as there
are digits after it. -/
theorem Numeral.decimal_pointed (negative : Bool) (n places : Nat) :
    ({ negative := negative, significand := n, places := places, whole := false } :
      Numeral).decimal = ⟨n, -(places : Int)⟩ := by
  simp [decimal]

/-- Zeros after the point, then the digits. -/
theorem denotes_belowOne {n k : Nat} {e : Int} (he : e + digitCount n = -k) :
    Denotes ('0' :: '.' :: (List.replicate k '0' ++ Nat.toDigits 10 n)) ⟨n, e⟩ := by
  intro negative
  have hdigits : ∀ c ∈ List.replicate k '0' ++ Nat.toDigits 10 n, c.isDigit = true :=
    List.forall_mem_append.2 ⟨isDigit_of_mem_zeros, isDigit_of_mem_toDigits⟩
  have hne : List.replicate k '0' ++ Nat.toDigits 10 n ≠ [] :=
    List.append_ne_nil_of_right_ne_nil _ Nat.toDigits_ne_nil
  have hplaces : e = -((k + digitCount n : Nat) : Int) := by omega
  refine ⟨.fraction, _, scan_pointed_zero negative [] hdigits hne, rfl, rfl, rfl, ?_⟩
  rw [Numeral.decimal_pointed, Nat.ofDigitChars_append, Nat.ofDigitChars_replicate_zero,
    Nat.mul_zero, Nat.ofDigitChars_ten_toDigits, List.length_append, List.length_replicate, hplaces]
  rfl

/-- The point after some of the digits. -/
theorem denotes_split {n k : Nat} {e : Int} (hpos : 0 < n) (hk : 0 < k) (hlt : k < digitCount n)
    (he : e + digitCount n = k) :
    Denotes ((Nat.toDigits 10 n).take k ++ '.' :: (Nat.toDigits 10 n).drop k) ⟨n, e⟩ := by
  intro negative
  have hdigits : ∀ c ∈ (Nat.toDigits 10 n).drop k, c.isDigit = true :=
    fun c hc => isDigit_of_mem_toDigits c (List.mem_of_mem_drop hc)
  have hne : (Nat.toDigits 10 n).drop k ≠ [] := by
    rw [Ne, List.drop_eq_nil_iff]
    exact Nat.not_le.2 hlt
  have hplaces : e = -((digitCount n - k : Nat) : Int) := by omega
  refine ⟨.fraction, _, scan_pointed negative [] ((leading_toDigits hpos).take hk) hdigits hne,
    rfl, rfl, rfl, ?_⟩
  rw [Numeral.decimal_pointed, List.take_append_drop, Nat.ofDigitChars_ten_toDigits,
    List.length_drop, hplaces]
  rfl

/-- Zeros after the digits, and one more after the point. -/
theorem denotes_whole {n : Nat} (hpos : 0 < n) (k : Nat) :
    Denotes (Nat.toDigits 10 n ++ List.replicate k '0' ++ ['.', '0'])
      ⟨n * 10 ^ (k + 1), -1⟩ := by
  intro negative
  have hleading := (leading_toDigits hpos).append (isDigit_of_mem_zeros (k := k))
  refine ⟨.fraction, _, scan_pointed negative [] hleading (List.forall_mem_singleton.2 rfl)
    (List.cons_ne_nil _ _), rfl, rfl, rfl, ?_⟩
  have hzeros : List.replicate k '0' ++ ['0'] = List.replicate (k + 1) '0' :=
    List.replicate_succ'.symm
  rw [Numeral.decimal_pointed, List.append_assoc, hzeros, Nat.ofDigitChars_append,
    Nat.ofDigitChars_ten_toDigits, Nat.ofDigitChars_replicate_zero, Nat.mul_comm]
  rfl

/-- The digits of a number, with a point after the first if there are more. -/
def scientificDigits (n : Nat) : List Char :=
  (Nat.toDigits 10 n).take 1 ++
    if ((Nat.toDigits 10 n).drop 1).isEmpty then [] else '.' :: (Nat.toDigits 10 n).drop 1

/-- Such digits are read as the number, and the mark of the exponent ends them. -/
theorem scan_scientificDigits (negative : Bool) {n : Nat} (hpos : 0 < n) (cs : List Char) :
    scan (.signed negative []) (scientificDigits n ++ 'e' :: cs) =
      scan ⟨.number .mark {
        negative := negative
        significand := n
        places := digitCount n - 1
        whole := false }, []⟩ cs := by
  have hdigits : ∀ c ∈ (Nat.toDigits 10 n).drop 1, c.isDigit = true :=
    fun c hc => isDigit_of_mem_toDigits c (List.mem_of_mem_drop hc)
  have hlength : ((Nat.toDigits 10 n).drop 1).length = digitCount n - 1 := List.length_drop
  have hall := List.take_append_drop 1 (Nat.toDigits 10 n)
  rw [scan_append]
  unfold scientificDigits
  split
  -- a single digit has no point behind it
  · next hempty =>
    have hnil := List.isEmpty_iff.1 hempty
    rw [hnil, List.append_nil] at hall
    rw [hnil] at hlength
    rw [List.append_nil, hall, scan_toDigits negative [] hpos, Option.bind_some, scan_cons,
      ← hlength]
    rfl
  · next hne =>
    rw [scan_pointed negative [] ((leading_toDigits hpos).take Nat.one_pos) hdigits
      (by rwa [List.isEmpty_iff] at hne), Option.bind_some, hall, Nat.ofDigitChars_ten_toDigits,
      hlength, scan_cons]
    rfl

/-- The digits, and the exponent of the first of them. -/
theorem denotes_scientific {n : Nat} {e : Int} (hpos : 0 < n) (first : Int)
    (he : e + digitCount n - 1 = first) :
    Denotes (scientificDigits n ++
      'e' :: (if first < 0 then '-' else '+') :: Nat.toDigits 10 first.natAbs) ⟨n, e⟩ := by
  intro negative
  refine ⟨.exponent, _,
    (scan_scientificDigits negative hpos _).trans (scan_mark _ [] rfl rfl first), rfl, rfl, rfl, ?_⟩
  have hdigit : 0 < digitCount n := Nat.length_toDigits_pos
  -- the exponent is that of the first digit, and the scanner counts the places behind the point
  have hexponent : (if decide (first < 0) then -(first.natAbs : Int) else first.natAbs) -
      ((digitCount n - 1 : Nat) : Int) = e := by
    by_cases h : first < 0
    · rw [if_pos (decide_eq_true h)]
      omega
    · rw [if_neg fun hdecide => h (of_decide_eq_true hdecide)]
      omega
  rw [Numeral.decimal]
  simp only [hexponent]

/-! ### Layouts

The layout of a decimal is one of four forms, by where the point falls among its digits. -/

/-- However a layout arranges the digits of a positive decimal, the literal keeps them. -/
theorem denotes_decimal {l : Layout} (hwhole : l.whole = ".0") {d : Decimal}
    (hpos : 0 < d.significand) : Denotes (l.decimal d).toList (l.written d) := by
  obtain ⟨n, e⟩ := d
  have hcount : (Nat.toDigits 10 n).length = digitCount n := rfl
  have hplaces : e + digitCount n - 1 + 1 = e + digitCount n := by omega
  unfold Layout.decimal Layout.written
  simp only [hcount, hplaces]
  split
  -- the point falls in front of the digits, behind them or among them
  · next hpositional =>
    unfold Layout.positionalText
    split
    · next hbelow =>
      have htext : ∀ k, ("0." ++ Layout.zeros k ++ String.ofList (Nat.toDigits 10 n)).toList =
          '0' :: '.' :: (List.replicate k '0' ++ Nat.toDigits 10 n) := by
        intro k
        simp [Layout.zeros]
      have hlen : 0 < digitCount n := Nat.length_toDigits_pos
      rw [htext, if_neg fun h => by omega]
      exact denotes_belowOne (by omega)
    · split
      · next hlarge =>
        have htext : ∀ k, (String.ofList (Nat.toDigits 10 n) ++ Layout.zeros k ++ l.whole).toList =
            Nat.toDigits 10 n ++ List.replicate k '0' ++ ['.', '0'] := by
          intro k
          simp [Layout.zeros, hwhole]
        have hzeros : (e + digitCount n).toNat - digitCount n = e.toNat := by omega
        rw [htext, if_pos ⟨hpositional, by omega⟩, hcount, hzeros]
        exact denotes_whole hpos e.toNat
      · next hsmall =>
        have htext : ∀ k, (String.ofList ((Nat.toDigits 10 n).take k) ++ "." ++
            String.ofList ((Nat.toDigits 10 n).drop k)).toList =
              (Nat.toDigits 10 n).take k ++ '.' :: (Nat.toDigits 10 n).drop k := by
          intro k
          simp
        rw [htext, if_neg fun h => by omega]
        exact denotes_split hpos (by omega) (by omega) (by omega)
  · next hscientific =>
    have htext : ∀ first : Int, (Layout.scientificText (Nat.toDigits 10 n) first).toList =
        scientificDigits n ++
          'e' :: (if first < 0 then '-' else '+') :: Nat.toDigits 10 first.natAbs := by
      intro first
      unfold Layout.scientificText scientificDigits
      simp only [String.toList_append, String.toList_ofList, Nat.toString_eq_repr, Nat.toList_repr]
      split <;> split <;> simp
    rw [htext]
    simp only [hscientific]
    exact denotes_scientific hpos _ rfl

/-! ### Texts of numbers

A sign in front, and zero, which has one text of its own. -/

/-- A literal with its sign is one token. -/
theorem Denotes.scans {s : String} {d : Decimal} (h : Denotes s.toList d) (negative : Bool) :
    ∃ n : Numeral, Scans ((if negative then "-" else "") ++ s) [.number n] ∧
      n.Spells negative d := by
  obtain ⟨part, n, hscan, hcomplete, hspells⟩ := h negative
  refine ⟨n, ?_, hspells⟩
  have hsign : scan {} ((if negative then "-" else "").toList ++ s.toList) =
      scan (.signed negative []) s.toList := by
    cases negative <;> rfl
  show tokens? _ = _
  rw [tokens?, String.toList_append, hsign, hscan, Option.bind_some, Scan.finish]
  simp only [hcomplete, if_true]
  rfl

/-- The text of a finite number is one literal. -/
theorem scans_text {f : Binary.Format} (hf : f.Interchange) {l : Layout} (hwhole : l.whole = ".0")
    {x : Binary f} (hfinite : x.isFinite = true) :
    ∃ n : Numeral, Scans (x.text l) [.number n] ∧ n.Spells x.negative (x.written l) := by
  have hlt : x.magnitude < f.infinity := of_decide_eq_true hfinite
  have hnumber : x.isNaN = false := decide_eq_false (Nat.lt_asymm hlt)
  unfold Binary.text Binary.written
  simp only [hnumber, hfinite, hwhole, Bool.not_true, Bool.false_eq_true, if_false]
  split
  · have hzero : Denotes "0.0".toList ⟨0, -1⟩ := denotes_belowOne (n := 0) (k := 0) rfl
    rw [String.append_assoc]
    exact hzero.scans x.negative
  · next hne =>
    have hpos := Nat.pos_of_ne_zero hne
    exact (denotes_decimal hwhole (Binary.Format.shortest_pos hf hpos)).scans x.negative

/-! ### Reading the literals

What a literal is read as depends on the reader.  It is asked of a reader that it goes by the
decimal of a literal, as long as 64 bits hold the digits. -/

/-- The reader reads the decimal of a literal, if 64 bits hold the digits. -/
def Numeral.Reader.Reads [Numeral.Reader] (read : Bool → Decimal → Binary64) : Prop :=
  ∀ n : Numeral, n.significand < 2 ^ 64 → Numeral.Reader.read n = read n.negative n.decimal

theorem Numeral.scalingReader_reads : Numeral.Reader.Reads Decimal.scaled := by
  intro n hdigits
  show n.kept.scaled n.negative = _
  rw [kept_eq_decimal hdigits]

variable [Numeral.Reader] {read : Bool → Decimal → Binary64}

/-- A literal that is not whole is read as the reader reads its decimal. -/
theorem Numeral.Spells.number?_eq (hreader : Numeral.Reader.Reads read) {n : Numeral}
    {negative : Bool} {d : Decimal} (h : n.Spells negative d) (hdigits : d.significand < 2 ^ 64)
    (hfinite : (read negative d).isFinite = true) :
    n.number? = some (.real (read negative d)) := by
  obtain ⟨rfl, hpointed, rfl⟩ := h
  have hinteger : n.isInteger = false := by simp [isInteger, hpointed]
  unfold number?
  simp only [hinteger, Bool.false_eq_true, if_false, hreader n hdigits, hfinite, if_true]

/-- So is the text of a finite number. -/
theorem parse?_text (hreader : Numeral.Reader.Reads read) {f : Binary.Format} (hf : f.Interchange)
    {l : Layout} (hwhole : l.whole = ".0") {x : Binary f} (hfinite : x.isFinite = true)
    (hdigits : (x.written l).significand < 2 ^ 64)
    (hread : (read x.negative (x.written l)).isFinite = true) :
    parse? (x.text l) = some (.number (.real (read x.negative (x.written l)))) := by
  obtain ⟨n, hscans, hspells⟩ := scans_text hf hwhole hfinite
  rw [parse?, Tree.parse?_eq_some_iff.2 ⟨_, hscans, rfl⟩, Option.bind_some, Tree.document?,
    hspells.number?_eq hreader hdigits hread, Option.map_some]

end Json

/-! ### Finite numbers are read as finite ones

The digits of a finite number are those of its shortest decimal, or those of a whole number that is
small enough to be written out.  Either is far below the bound of overflow. -/

/-- No number whose leading digit stands for a higher power of ten is written positionally. -/
def Layout.Bounded (l : Layout) (top : Nat) : Prop := ∀ e, l.positional e = true → e ≤ top

theorem Layout.bounded_wire32 : Layout.wire32.Bounded 12 := fun _ h => (of_decide_eq_true h).2

theorem Layout.bounded_wire64 : Layout.wire64.Bounded 15 := fun _ h => (of_decide_eq_true h).2

/-- A whole number that is written positionally has no more digits than its layout admits, and one
more after the point. -/
theorem Layout.Bounded.whole_lt {l : Layout} {top : Nat} (hl : l.Bounded top) {d : Decimal}
    (hpositional : l.positional (d.exponent + digitCount d.significand - 1) = true)
    (hnonneg : 0 ≤ d.exponent) :
    d.significand * 10 ^ (d.exponent.toNat + 1) < 10 ^ (top + 2) := by
  have hlead := hl _ hpositional
  calc d.significand * 10 ^ (d.exponent.toNat + 1)
      < 10 ^ digitCount d.significand * 10 ^ (d.exponent.toNat + 1) :=
        Nat.mul_lt_mul_of_pos_right (lt_pow_digitCount _) (Nat.pow_pos (by decide))
    _ = 10 ^ (digitCount d.significand + (d.exponent.toNat + 1)) := (Nat.pow_add _ _ _).symm
    _ ≤ 10 ^ (top + 2) := Nat.pow_le_pow_right (by decide) (by omega)

namespace Binary

/-- What is written for a finite number is zero, or a whole number with a zero after the point that
has few digits, or the shortest decimal. -/
theorem written_cases {f : Format} (hf : f.Interchange) {l : Layout} {top : Nat}
    (hl : l.Bounded top) (x : Binary f) :
    (x.magnitude = 0 ∧ x.written l = ⟨0, -1⟩) ∨ 0 < x.magnitude ∧
      ((∃ n k : Nat, f.shortest x.magnitude = ⟨n, k⟩ ∧ 0 < n * 10 ^ (k + 1) ∧
        n * 10 ^ (k + 1) < 10 ^ (top + 2) ∧ x.written l = ⟨n * 10 ^ (k + 1), -1⟩) ∨
      x.written l = f.shortest x.magnitude) := by
  unfold written
  split
  · next hzero => exact .inl ⟨hzero, rfl⟩
  next hne =>
  have hpos := Nat.pos_of_ne_zero hne
  have hdigits := Format.shortest_pos hf hpos
  refine .inr ⟨hpos, ?_⟩
  -- only a whole number that is written out has other digits than the shortest decimal
  unfold Layout.written
  split
  · next h =>
    refine .inl ⟨_, (f.shortest x.magnitude).exponent.toNat, ?_, ?_, hl.whole_lt h.1 h.2, rfl⟩
    · rw [Int.toNat_of_nonneg h.2]
    · exact Nat.mul_pos hdigits (Nat.pow_pos (by decide))
  · exact .inr rfl

/-- The digits that are written for a finite number have 64 bits, and are read as a finite number if
its shortest decimal is. -/
theorem isFinite_scaled_written {f : Format} (hf : f.Interchange) {l : Layout} {top : Nat}
    (hl : l.Bounded top) (htop : top ≤ 15) {x : Binary f} (hread : 0 < x.magnitude →
      ((f.shortest x.magnitude).scaled x.negative).isFinite = true) :
    (x.written l).significand < 2 ^ 64 ∧
      ((x.written l).scaled x.negative).isFinite = true := by
  rcases written_cases hf hl x with ⟨-, hzero⟩ | ⟨hpos, ⟨n, k, -, -, hlt, hwhole⟩ | hshortest⟩
  · rw [hzero]
    exact ⟨by decide, Decimal.isFinite_scaled_of_neg (by decide) (by decide) _⟩
  · have hpower : 10 ^ (top + 2) ≤ 10 ^ 17 := Nat.pow_le_pow_right (by decide) (by omega)
    have hdigits := Nat.lt_trans (Nat.lt_of_lt_of_le hlt hpower) (by decide : 10 ^ 17 < 2 ^ 64)
    have hneg : (-1 : Int) < 0 := by decide
    rw [hwhole]
    exact ⟨hdigits, Decimal.isFinite_scaled_of_neg hdigits hneg _⟩
  · have hle := Format.shortest_le hf hpos hf.digits (by decide)
    rw [hshortest]
    exact ⟨Nat.lt_of_le_of_lt hle (by decide), hread hpos⟩

/-- The text of a finite number of 64 bits is read by scaling. -/
theorem parse?_text64 {x : Binary64} (hfinite : x.isFinite = true) :
    Json.parse? (x.text .wire64) =
      some (.number (.real ((x.written .wire64).scaled x.negative))) := by
  have hf := Format.interchange_binary64
  have hwritten := isFinite_scaled_written hf (x := x) Layout.bounded_wire64
    (by decide) fun hpos =>
      Decimal.isFinite_scaled_shortest hpos (of_decide_eq_true hfinite) _
  exact Json.parse?_text Json.Numeral.scalingReader_reads hf rfl hfinite hwritten.1 hwritten.2

/-- However decimals are read, the one that is written for a finite number of 32 bits is read as a
finite number. -/
theorem isFinite_written32 {read : Bool → Decimal → Binary64} (hrounds : Decimal.Rounds read)
    {x : Binary32} (hfinite : x.isFinite = true) :
    (x.written .wire32).significand < 2 ^ 53 ∧
      (read x.negative (x.written .wire32)).isFinite = true := by
  have hf := Format.interchange_binary32
  have hlt : x.magnitude < Format.binary32.infinity := of_decide_eq_true hfinite
  -- what is far enough below the overflow of 32 bits is finite for every reader
  have hquotient {d : Decimal} (hpos : 0 < d.significand) (hdigits : d.significand < 2 ^ 53)
      (hexponent : d.exponent.natAbs ≤ lastTenPower)
      (hbelow : Format.binary32.Below d.num d.den) : (read x.negative d).isFinite = true := by
    obtain ⟨num, den, hnear, hread⟩ := hrounds.quotient hpos hdigits hexponent
    rw [hread]
    exact hnear.isFinite hbelow x.negative
  rcases written_cases hf Layout.bounded_wire32 x with
    ⟨-, hzero⟩ | ⟨hpos, ⟨n, k, -, hdigits, hsmall, hwhole⟩ | hshortest⟩
  · rw [hzero, hrounds.zero]
    exact ⟨by decide, isFinite_ofMagnitude Format.interchange_binary64 _ (by decide)⟩
  · have hdigits' := Nat.lt_trans hsmall (by decide : 10 ^ (12 + 2) < 2 ^ 53)
    have hexponent : (-1 : Int).natAbs ≤ lastTenPower := by decide
    have hbelow : Format.binary32.Below (Decimal.num ⟨n * 10 ^ (k + 1), -1⟩)
        (Decimal.den ⟨n * 10 ^ (k + 1), -1⟩) := by
      show 2 * (n * 10 ^ (k + 1) * 10 ^ 0 * 2 ^ Format.binary32.scale) <
        Format.binary32.overflow * 10 ^ 1
      have hbound : 2 * (10 ^ (12 + 2) * 10 ^ 0 * 2 ^ Format.binary32.scale) ≤
        Format.binary32.overflow * 10 ^ 1 := by decide +kernel
      refine Nat.lt_of_lt_of_le (Nat.mul_lt_mul_of_pos_left ?_ (by decide)) hbound
      exact Nat.mul_lt_mul_of_pos_right (Nat.mul_lt_mul_of_pos_right hsmall (by decide))
        (Nat.two_pow_pos _)
    rw [hwhole]
    exact ⟨hdigits', hquotient hdigits hdigits' hexponent hbelow⟩
  · have hdigits := Binary32.shortest_digits_lt hpos
    rw [hshortest]
    exact ⟨hdigits, hquotient (Format.shortest_pos hf hpos) hdigits
      (Binary32.natAbs_exponent_le hpos hlt) (Format.shortest_below hf hpos hlt)⟩

/-- The text of a finite number of 32 bits is read as the reader reads its decimal. -/
theorem parse?_text32 [Json.Numeral.Reader] {read : Bool → Decimal → Binary64}
    (hreader : Json.Numeral.Reader.Reads read) (hrounds : Decimal.Rounds read) {x : Binary32}
    (hfinite : x.isFinite = true) :
    Json.parse? (x.text .wire32) =
      some (.number (.real (read x.negative (x.written .wire32)))) := by
  obtain ⟨hdigits, hread⟩ := isFinite_written32 hrounds hfinite
  exact Json.parse?_text hreader Format.interchange_binary32 rfl hfinite
    (Nat.lt_trans hdigits (by decide)) hread

end Binary

namespace Scalar

theorem isFinite_of_floatText {f : Binary.Format} {p : Primitive} {l : Layout} {x : Binary f}
    {s : String} (h : floatText p l x = .ok s) : x.isFinite = true ∧ s = x.text l := by
  unfold floatText at h
  split at h
  · next hfinite => exact ⟨hfinite, (Except.ok.inj h).symm⟩
  · cases h

/-- The text of a scalar denotes a document, that of a truth value the truth value itself. -/
theorem exists_written_text {x : Scalar} {s : String} (h : x.text = .ok s) :
    ∃ j, Json.Written s j ∧ ∀ b, x = .bool b → j = .bool b := by
  cases x with
  | bool b =>
    cases h
    exact ⟨_, Json.written_bool b, by rintro _ ⟨⟩; rfl⟩
  | i8 n | i16 n | i32 n | i64 n =>
    cases h
    have hlow := n.le_toInt
    have hhigh := n.toInt_lt
    exact ⟨_, Json.written_int (by omega) (by omega), nofun⟩
  | f32 x =>
    obtain ⟨hfinite, rfl⟩ := isFinite_of_floatText h
    exact ⟨_, Json.written_of_parse? (Binary.parse?_text32 Json.Numeral.scalingReader_reads
      Decimal.rounds_scaled hfinite), nofun⟩
  | f64 x =>
    obtain ⟨hfinite, rfl⟩ := isFinite_of_floatText h
    exact ⟨_, Json.written_of_parse? (Binary.parse?_text64 hfinite), nofun⟩
  | char c =>
    cases h
    exact ⟨_, Json.written_quote _, nofun⟩

end Scalar
end TaggedWire
