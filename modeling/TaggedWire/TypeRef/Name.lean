/-!
# Names of exposed types, and names made from identifiers

A type name is one or more segments with points between them; a segment is a letter, underscore or
dollar sign followed by any of these or digits, all of them ASCII.

Variables are named after identifiers that may hold any character.  `escapeName` keeps ASCII letters
and digits and writes every other character as its hexadecimal number between underscores, so the
identifier can be recovered.
-/

namespace TaggedWire

/-- A character that may open a segment of a type name. -/
def isNameStart (c : Char) : Bool := c.isAlpha || c == '_' || c == '$'

/-- A character that may stand after the first of a segment. -/
def isNamePart (c : Char) : Bool := isNameStart c || c.isDigit

/-- Segments with points between them; `atStart` when a segment is due. -/
def isNameFrom (atStart : Bool) : List Char → Bool
  | [] => !atStart
  | c :: cs =>
    if atStart then isNameStart c && isNameFrom false cs
    else if c == '.' then isNameFrom true cs
    else isNamePart c && isNameFrom false cs

/-- A legal name of an exposed type. -/
def isTypeName (s : String) : Bool := isNameFrom true s.toList

/-- One character of an identifier inside a variable name. -/
def escapeNameChar (c : Char) : List Char :=
  if c.isAlphanum then [c] else '_' :: Nat.toDigits 16 c.toNat ++ ['_']

/-- An identifier as part of a variable name. -/
def escapeName (s : String) : String := String.ofList (s.toList.flatMap escapeNameChar)

end TaggedWire
