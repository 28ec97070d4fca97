import TaggedWire.Json.Literal
import TaggedWire.Json.Number

/-!
# Tokens of JSON text

The scanner reads one character at a time.  Between characters it is in a `Mode`: outside any
token, or inside a word, a number or a string.  A number has no closing character, so the character
after it is read twice: it ends the number and is then read outside.

Because a scan is a fold over the characters, scanning two texts in a row is scanning the second
from the mode in which the first ends (`scan_append`).
-/

namespace TaggedWire.Json

/-- A lexical unit of JSON text. -/
inductive Token where
  | openArray
  | closeArray
  | openObject
  | closeObject
  | comma
  | colon
  | null
  | bool (value : Bool)
  | number (value : Numeral)
  | string (value : Literal)
  deriving DecidableEq, Repr

/-- The four characters that JSON takes for white space. -/
def isSpace (c : Char) : Bool := c == ' ' || c == '\t' || c == '\n' || c == '\r'

/-- The value of a hexadecimal digit of either case. -/
def hexValue? (c : Char) : Option Nat :=
  if '0' ≤ c ∧ c ≤ '9' then some (c.toNat - '0'.toNat)
  else if 'a' ≤ c ∧ c ≤ 'f' then some (c.toNat - 'a'.toNat + 10)
  else if 'A' ≤ c ∧ c ≤ 'F' then some (c.toNat - 'A'.toNat + 10)
  else none

/-! ### Inside a number -/

/-- How far a number literal has been read. -/
inductive NumberPart where
  /-- After the minus sign. -/
  | sign
  /-- After a leading zero, which no digit may follow. -/
  | zero
  /-- After a digit of the whole part. -/
  | whole
  /-- After the point. -/
  | point
  /-- After a digit of the fraction. -/
  | fraction
  /-- After the exponent mark. -/
  | mark
  /-- After the sign of the exponent. -/
  | markSign
  /-- After a digit of the exponent. -/
  | exponent
  deriving DecidableEq, Repr

namespace NumberPart

/-- A literal may end here. -/
def complete : NumberPart → Bool
  | .zero | .whole | .fraction | .exponent => true
  | .sign | .point | .mark | .markSign => false

/-- Read one more character of a number; none if it does not belong to the literal. -/
def next? (part : NumberPart) (n : Numeral) (c : Char) : Option (NumberPart × Numeral) :=
  let digit := c.toNat - '0'.toNat
  let shifted := n.significand * 10 + digit
  let inExponent := (NumberPart.exponent, { n with exponent := n.exponent * 10 + digit })
  match part with
  | .sign =>
    if c = '0' then some (.zero, n)
    else if c.isDigit then some (.whole, { n with significand := shifted })
    else none
  | .zero =>
    if c = '.' then some (.point, { n with whole := false })
    else if c = 'e' ∨ c = 'E' then some (.mark, { n with whole := false })
    else none
  | .whole =>
    if c.isDigit then some (.whole, { n with significand := shifted })
    else if c = '.' then some (.point, { n with whole := false })
    else if c = 'e' ∨ c = 'E' then some (.mark, { n with whole := false })
    else none
  | .point =>
    if c.isDigit then some (.fraction, { n with significand := shifted, places := n.places + 1 })
    else none
  | .fraction =>
    if c.isDigit then some (.fraction, { n with significand := shifted, places := n.places + 1 })
    else if c = 'e' ∨ c = 'E' then some (.mark, n)
    else none
  | .mark =>
    if c.isDigit then some inExponent
    else if c = '+' then some (.markSign, n)
    else if c = '-' then some (.markSign, { n with exponentNegative := true })
    else none
  | .markSign => if c.isDigit then some inExponent else none
  | .exponent => if c.isDigit then some inExponent else none

end NumberPart

/-! ### Inside a string -/

/-- How far an escape inside a string has been read. -/
inductive Escape where
  /-- Not inside an escape. -/
  | outside
  /-- After the reverse solidus. -/
  | opened
  /-- After `\u` and all but this many of its four digits, with their value so far. -/
  | unit (missing : Nat) (value : Nat)
  deriving DecidableEq, Repr

/-- The character that a one-letter escape stands for. -/
def escaped? : Char → Option Char
  | '"' => some '"'
  | '\\' => some '\\'
  | '/' => some '/'
  | 'b' => some '\x08'
  | 'f' => some '\x0c'
  | 'n' => some '\n'
  | 'r' => some '\r'
  | 't' => some '\t'
  | _ => none

/-! ### The scanner -/

/-- What the characters read so far have left open. -/
inductive Mode where
  /-- Outside any token. -/
  | outside
  /-- Inside one of the three words, with the letters still to come. -/
  | word (rest : List Char) (token : Token)
  | number (part : NumberPart) (value : Numeral)
  /-- Inside a string, with the pieces read so far, the last one first. -/
  | string (escape : Escape) (pieces : Literal)
  deriving DecidableEq, Repr

/-- A scan under way: its mode and the tokens completed so far, the last one first. -/
structure Scan where
  mode : Mode := .outside
  tokens : List Token := []
  deriving DecidableEq, Repr

namespace Scan

/-- Complete a token. -/
def emit (s : Scan) (t : Token) : Scan := ⟨.outside, t :: s.tokens⟩

/-- Read a character outside any token. -/
def stepOutside (s : Scan) (c : Char) : Option Scan :=
  match c with
  | '[' => some (s.emit .openArray)
  | ']' => some (s.emit .closeArray)
  | '\x7b' => some (s.emit .openObject)
  | '\x7d' => some (s.emit .closeObject)
  | ',' => some (s.emit .comma)
  | ':' => some (s.emit .colon)
  | '"' => some { s with mode := .string .outside [] }
  | 'n' => some { s with mode := .word ['u', 'l', 'l'] .null }
  | 't' => some { s with mode := .word ['r', 'u', 'e'] (.bool true) }
  | 'f' => some { s with mode := .word ['a', 'l', 's', 'e'] (.bool false) }
  | '-' => some { s with mode := .number .sign { negative := true } }
  | c =>
    if isSpace c then some { s with mode := .outside }
    else (NumberPart.sign.next? {} c).map fun (part, n) => { s with mode := .number part n }

/-- Read a character inside a string. -/
def stepString (s : Scan) (escape : Escape) (pieces : Literal) (c : Char) : Option Scan :=
  match escape with
  | .outside =>
    if c = '"' then some (s.emit (.string pieces.reverse))
    else if c = '\\' then some { s with mode := .string .opened pieces }
    else if c.toNat < 0x20 then none
    else some { s with mode := .string .outside (.char c :: pieces) }
  | .opened =>
    if c = 'u' then some { s with mode := .string (.unit 4 0) pieces }
    else (escaped? c).map fun d => { s with mode := .string .outside (.char d :: pieces) }
  | .unit missing value =>
    (hexValue? c).map fun d =>
      let value := value * 16 + d
      if missing ≤ 1 then { s with mode := .string .outside (.unit value :: pieces) }
      else { s with mode := .string (.unit (missing - 1) value) pieces }

/-- Read one character. -/
def step (s : Scan) (c : Char) : Option Scan :=
  match s.mode with
  | .outside => s.stepOutside c
  | .word [] _ => none
  | .word (d :: rest) t =>
    if c = d then
      if rest.isEmpty then some (s.emit t) else some { s with mode := .word rest t }
    else none
  | .number part n =>
    match part.next? n c with
    | some (part, n) => some { s with mode := .number part n }
    | none => if part.complete then (s.emit (.number n)).stepOutside c else none
  | .string escape pieces => s.stepString escape pieces c

/-- End the text; only a number may still be open. -/
def finish (s : Scan) : Option (List Token) :=
  match s.mode with
  | .outside => some s.tokens.reverse
  | .number part n => if part.complete then some (s.emit (.number n)).tokens.reverse else none
  | .word _ _ | .string _ _ => none

end Scan

/-- Read a run of characters. -/
def scan (s : Scan) (cs : List Char) : Option Scan := cs.foldlM Scan.step s

/-- The tokens of a text; none if it holds anything else. -/
def tokens? (cs : List Char) : Option (List Token) := (scan {} cs).bind Scan.finish

theorem scan_nil (s : Scan) : scan s [] = some s := rfl

theorem scan_cons (s : Scan) (c : Char) (cs : List Char) :
    scan s (c :: cs) = (s.step c).bind (scan · cs) := rfl

theorem scan_append (s : Scan) (cs ds : List Char) :
    scan s (cs ++ ds) = (scan s cs).bind (scan · ds) := by
  simp [scan, List.foldlM_append, Option.bind_eq_bind]

end TaggedWire.Json
