import TaggedWire.Binary.Decimal

/-!
# Texts of floating point numbers

One decimal can be laid out in many ways.  A `Layout` holds the decisions: which leading exponents
are written positionally, and what a whole number ends in.  Three layouts are in use: two for
numbers on the wire, of 32 and of 64 bits, and one for numbers inside messages.
-/

namespace TaggedWire

/-- How the digits of a decimal are arranged. -/
structure Layout where
  /-- Whether a number whose leading digit stands for this power of ten is written positionally. -/
  positional : Int → Bool
  /-- What follows the digits of a whole number. -/
  whole : String

namespace Layout

/-- A 64-bit number on the wire: positional from `10 ^ (-5)` to below `10 ^ 16`, always with a
fraction. -/
def wire64 : Layout := ⟨fun e => decide (-5 ≤ e ∧ e ≤ 15), ".0"⟩

/-- A 32-bit number on the wire: positional from `10 ^ (-6)` to below `10 ^ 13`, always with a
fraction. -/
def wire32 : Layout := ⟨fun e => decide (-6 ≤ e ∧ e ≤ 12), ".0"⟩

/-- A number inside a message: always positional, and a whole number has no fraction. -/
def message : Layout := ⟨fun _ => true, ""⟩

/-- `count` zeros. -/
def zeros (count : Nat) : String := String.ofList (List.replicate count '0')

/-- The digits with the point after the first `places` of them; `whole` when none would follow. -/
def positionalText (l : Layout) (digits : List Char) (places : Int) : String :=
  if places ≤ 0 then
    "0." ++ zeros (-places).toNat ++ String.ofList digits
  else if digits.length ≤ places.toNat then
    String.ofList digits ++ zeros (places.toNat - digits.length) ++ l.whole
  else
    String.ofList (digits.take places.toNat) ++ "." ++ String.ofList (digits.drop places.toNat)

/-- The digits with the point after the first, then the exponent with its sign. -/
def scientificText (digits : List Char) (exponent : Int) : String :=
  let tail := digits.drop 1
  String.ofList (digits.take 1) ++ (if tail.isEmpty then "" else "." ++ String.ofList tail) ++
    "e" ++ (if exponent < 0 then "-" else "+") ++ toString exponent.natAbs

/-- The text of a positive decimal. -/
def decimal (l : Layout) (d : Decimal) : String :=
  let digits := Nat.toDigits 10 d.significand
  let exponent := d.exponent + digits.length - 1
  if l.positional exponent then l.positionalText digits (exponent + 1)
  else scientificText digits exponent

end Layout

/-- The text of a number; a non-number is written without its sign. -/
def Binary.text {f : Binary.Format} (l : Layout) (x : Binary f) : String :=
  let sign := if x.negative then "-" else ""
  if x.isNaN then "NaN"
  else if !x.isFinite then sign ++ "inf"
  else if x.magnitude = 0 then sign ++ "0" ++ l.whole
  else sign ++ l.decimal (f.shortest x.magnitude)

end TaggedWire
