/-!
# JSON string literals

A string literal is a list of pieces: characters, and UTF-16 units written as `\u` escapes.  Two
units that form a surrogate pair denote one character, and a literal with a lone surrogate denotes
no text.  Writing uses the shortest escapes: quote, reverse solidus, five named controls, and
`\u00xx` for the other characters below U+0020.
-/

namespace TaggedWire.Json

/-- One element of a string literal. -/
inductive Piece where
  | char (c : Char)
  /-- A UTF-16 unit, below 65536. -/
  | unit (n : Nat)
  deriving DecidableEq, Repr

/-- The pieces of a string literal, in order. -/
abbrev Literal := List Piece

/-- A unit that opens a surrogate pair. -/
def isLeadingSurrogate (n : Nat) : Bool := 0xd800 ≤ n && n ≤ 0xdbff

/-- A unit that closes a surrogate pair. -/
def isTrailingSurrogate (n : Nat) : Bool := 0xdc00 ≤ n && n ≤ 0xdfff

namespace Literal

/-- The characters that a literal denotes; none if a surrogate stands alone. -/
def chars? : Literal → Option (List Char)
  | [] => some []
  | .char c :: rest => (chars? rest).map (c :: ·)
  | .unit n :: .unit m :: rest =>
    if isLeadingSurrogate n then
      if isTrailingSurrogate m then
        (chars? rest).map (Char.ofNat (0x10000 + (n - 0xd800) * 0x400 + (m - 0xdc00)) :: ·)
      else none
    else if isTrailingSurrogate n then none
    else (chars? (.unit m :: rest)).map (Char.ofNat n :: ·)
  | .unit n :: rest =>
    if isLeadingSurrogate n || isTrailingSurrogate n then none
    else (chars? rest).map (Char.ofNat n :: ·)

/-- The text that a literal denotes. -/
def text? (l : Literal) : Option String := (chars? l).map String.ofList

end Literal

/-! ### Writing -/

/-- The lower-case hexadecimal digit of a number below 16. -/
def hexDigit (n : Nat) : Char := Nat.digitChar n

theorem hexDigit_injective {n m : Nat} (hn : n < 16) (hm : m < 16)
    (h : hexDigit n = hexDigit m) : n = m := by
  have hall : ∀ a < 16, ∀ b < 16, hexDigit a = hexDigit b → a = b := by decide
  exact hall n hn m hm h

/-- A character as it stands inside a string literal. -/
def escapeChar (c : Char) : List Char :=
  match c with
  | '"' => ['\\', '"']
  | '\\' => ['\\', '\\']
  | '\x08' => ['\\', 'b']
  | '\x0c' => ['\\', 'f']
  | '\n' => ['\\', 'n']
  | '\r' => ['\\', 'r']
  | '\t' => ['\\', 't']
  | c =>
    if c.toNat < 0x20 then ['\\', 'u', '0', '0', hexDigit (c.toNat / 16), hexDigit (c.toNat % 16)]
    else [c]

/-- A text as a string literal, with its quotes. -/
def quote (s : String) : String := "\"" ++ String.ofList (s.toList.flatMap escapeChar) ++ "\""

end TaggedWire.Json
