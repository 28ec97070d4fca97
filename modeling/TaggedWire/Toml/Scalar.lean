import TaggedWire.Json.Basic
import TaggedWire.Toml.Text

/-!
# Numbers, truth values and times in TOML

These are written without quotes, as one run of characters; only a date and a time may have a space
between them.  Underscores may stand between digits.  A date or time is read as an object with one
reserved key, so that it is taken for no other value.
-/

namespace TaggedWire.Toml

-- powers are those of the core library, whatever is imported next to it
attribute [local instance (high)] instPowNat

/-- A character of a value without quotes. -/
def isWordChar (c : Char) : Bool :=
  c.isAlphanum || c == '_' || c == '+' || c == '-' || c == '.' || c == ':'

/-! ### Digits -/

/-- The digits of a run, if underscores stand only between digits; `atDigit` after a digit. -/
def digitsFrom? (ok : Char → Bool) (atDigit : Bool) : List Char → Option (List Char)
  | [] => if atDigit then some [] else none
  | '_' :: rest => if atDigit then digitsFrom? ok false rest else none
  | c :: rest => if ok c then (digitsFrom? ok true rest).map (c :: ·) else none

/-- The digits of a run that is not empty. -/
def digits? (ok : Char → Bool) (cs : List Char) : Option (List Char) := digitsFrom? ok false cs

/-- The number of some digits. -/
def number (base : Nat) (digits : List Char) : Nat :=
  digits.foldl (fun n c => n * base + (Json.hexValue? c).getD 0) 0

/-- The sign of a number and what follows it. -/
def sign : List Char → Bool × List Char
  | '-' :: rest => (true, rest)
  | '+' :: rest => (false, rest)
  | rest => (false, rest)

/-- Digits without a leading zero. -/
def decimalDigits? (cs : List Char) : Option (List Char) := do
  let ds ← digits? Char.isDigit cs
  if ds.length > 1 ∧ ds.head? = some '0' then none else some ds

/-! ### Numbers -/

/-- An integer of 64 signed bits. -/
def inRange? (n : Int) : Option Json :=
  if -2 ^ (63 : Nat) ≤ n ∧ n < 2 ^ (63 : Nat) then some (.ofInt n) else none

/-- An integer, in one of four bases. -/
def integer? : List Char → Option Json
  | '0' :: 'x' :: rest => do
    let ds ← digits? (fun c => (Json.hexValue? c).isSome) rest
    inRange? (number 16 ds)
  | '0' :: 'o' :: rest => do
    let ds ← digits? (fun c => '0' ≤ c && c ≤ '7') rest
    inRange? (number 8 ds)
  | '0' :: 'b' :: rest => do
    let ds ← digits? (fun c => c == '0' || c == '1') rest
    inRange? (number 2 ds)
  | cs => do
    let (negative, rest) := sign cs
    let n := number 10 (← decimalDigits? rest)
    inRange? (if negative then -n else n)

/-- The exponent of a floating point number: its sign and digits. -/
def exponent? (cs : List Char) : Option Int := do
  let (negative, rest) := sign cs
  let n := number 10 (← digits? Char.isDigit rest)
  return if negative then -n else n

/-- A floating point number.  One that is too large is refused. -/
def float? (cs : List Char) : Option Json := do
  let (negative, rest) := sign cs
  let real (x : Binary64) : Json := .number (.real x)
  if rest = ['i', 'n', 'f'] then return real (.ofMagnitude negative Binary.Format.binary64.infinity)
  else if rest = ['n', 'a', 'n'] then
    let f := Binary.Format.binary64
    return real (.ofMagnitude negative (f.infinity + f.hidden / 2))
  else
    let isMark (c : Char) : Bool := c == 'e' || c == 'E'
    let mantissa := rest.takeWhile (!isMark ·)
    let whole ← decimalDigits? (mantissa.takeWhile (· != '.'))
    let fraction ←
      match mantissa.dropWhile (· != '.') with
      | [] => some none
      | _ :: ds => (digits? Char.isDigit ds).map some
    let exponent ←
      match rest.dropWhile (!isMark ·) with
      | [] => some none
      | _ :: ds => (exponent? ds).map some
    if fraction = none ∧ exponent = none then none
    else
      let places := fraction.getD []
      let value : Decimal := ⟨number 10 (whole ++ places), exponent.getD 0 - places.length⟩
      let x : Binary64 := value.nearest negative
      if !negative ∧ !x.isFinite then none else return real x

/-! ### Dates and times -/

/-- The key of a date or time. -/
def timeKey : String := "$__toml_private_datetime"

/-- A number in decimal, with zeros in front up to a width. -/
def padded (width n : Nat) : String :=
  let ds := Nat.toDigits 10 n
  String.ofList (List.replicate (width - ds.length) '0' ++ ds)

/-- A number of exactly `count` digits at the front, within bounds. -/
def field? (count low high : Nat) (cs : List Char) : Option (Nat × List Char) :=
  let ds := cs.take count
  let n := number 10 ds
  if ds.length = count ∧ ds.all Char.isDigit ∧ low ≤ n ∧ n ≤ high then some (n, cs.drop count)
  else none

/-- One of some characters at the front. -/
def expect? (ok : Char → Bool) : List Char → Option (List Char)
  | c :: rest => if ok c then some rest else none
  | [] => none

/-- The number of days of a month. -/
def daysOf (year month : Nat) : Nat :=
  if month = 2 then
    if year % 4 = 0 ∧ (year % 100 ≠ 0 ∨ year % 400 = 0) then 29 else 28
  else if month = 4 ∨ month = 6 ∨ month = 9 ∨ month = 11 then 30
  else 31

/-- A date. -/
def date? (cs : List Char) : Option (String × List Char) := do
  let (year, cs) ← field? 4 0 9999 cs
  let (month, cs) ← field? 2 1 12 (← expect? (· == '-') cs)
  let (day, cs) ← field? 2 1 (daysOf year month) (← expect? (· == '-') cs)
  return (padded 4 year ++ "-" ++ padded 2 month ++ "-" ++ padded 2 day, cs)

/-- The fraction of a second, to nine places and without zeros at the end. -/
def secondFraction (digits : List Char) : String :=
  let kept := ((digits.take 9).reverse.dropWhile (· == '0')).reverse
  if kept.isEmpty then "" else "." ++ String.ofList kept

/-- A time of day. -/
def time? (cs : List Char) : Option (String × List Char) := do
  let (hour, cs) ← field? 2 0 23 cs
  let (minute, cs) ← field? 2 0 59 (← expect? (· == ':') cs)
  let (second, cs) ← field? 2 0 60 (← expect? (· == ':') cs)
  let text := padded 2 hour ++ ":" ++ padded 2 minute ++ ":" ++ padded 2 second
  match cs with
  | '.' :: rest =>
    let ds := rest.takeWhile Char.isDigit
    if ds.isEmpty then none else return (text ++ secondFraction ds, rest.dropWhile Char.isDigit)
  | cs => return (text, cs)

/-- An offset in hours and minutes; one of nothing is written with a plus. -/
def offsetText (negative : Bool) (hour minute : Nat) : String :=
  let mark := if negative ∧ ¬(hour = 0 ∧ minute = 0) then "-" else "+"
  mark ++ padded 2 hour ++ ":" ++ padded 2 minute

/-- The offset from universal time; nothing if none is written. -/
def offset? : List Char → Option (String × List Char)
  | [] => some ("", [])
  | c :: cs =>
    if c = 'Z' ∨ c = 'z' then some ("Z", cs)
    else if c = '+' ∨ c = '-' then do
      let (hour, cs) ← field? 2 0 23 cs
      let (minute, cs) ← field? 2 0 59 (← expect? (· == ':') cs)
      return (offsetText (c = '-') hour minute, cs)
    else none

/-- A whole run that is a date, a time, or both. -/
def moment? (cs : List Char) : Option Json := do
  let finish : String × List Char → Option Json
    | (s, []) => some (.object [(timeKey, .string s)])
    | _ => none
  match date? cs with
  | none => finish (← time? cs)
  | some (date, []) => finish (date, [])
  | some (date, c :: rest) =>
    if c = 'T' ∨ c = 't' ∨ c = ' ' then do
      let (time, rest) ← time? rest
      let (offset, rest) ← offset? rest
      finish (date ++ "T" ++ time ++ offset, rest)
    else none

/-- A value without quotes: a run of its characters, or a date and a time with a space between. -/
def scalar? (cs : List Char) : Option (Json × List Char) :=
  let word := cs.takeWhile isWordChar
  let rest := cs.dropWhile isWordChar
  let timed : Option (Json × List Char) :=
    match date? word, rest with
    | some (_, []), ' ' :: d :: more =>
      if d.isDigit then
        (moment? (word ++ ' ' :: (d :: more).takeWhile isWordChar)).map
          (·, (d :: more).dropWhile isWordChar)
      else none
    | _, _ => none
  match timed with
  | some taken => some taken
  | none =>
    let value :=
      if word = ['t', 'r', 'u', 'e'] then some (.bool true)
      else if word = ['f', 'a', 'l', 's', 'e'] then some (.bool false)
      else (moment? word).or ((float? word).or (integer? word))
    value.map (·, rest)

end TaggedWire.Toml
