import TaggedWire.Json.Token

/-!
# Layout, strings and keys in TOML

Functions on the rest of a text: each takes what it is named for off the front and returns what
follows, or fails.

* `skipLayout`: blanks, line breaks and comments.
* `string?`: the four forms of strings.
* `key?`: a key of one or more parts.
-/

namespace TaggedWire.Toml

/-! ### Layout -/

/-- A space or tab. -/
def isSpace (c : Char) : Bool := c == ' ' || c == '\t'

/-- A character that may stand in a comment: no control other than the tab. -/
def isCommentChar (c : Char) : Bool := c == '\t' || (0x20 ≤ c.toNat && c.toNat ≠ 0x7f)

/-- Drop spaces and tabs. -/
def skipSpaces (cs : List Char) : List Char := cs.dropWhile isSpace

/-- Drop blanks, line breaks and comments; `inComment` after the sign that opens one. -/
def skipLayout (inComment : Bool) : List Char → Option (List Char)
  | [] => some []
  | '\n' :: rest => skipLayout false rest
  | '\r' :: '\n' :: rest => skipLayout false rest
  | c :: rest =>
    if inComment then
      if isCommentChar c then skipLayout true rest else none
    else if isSpace c then skipLayout false rest
    else if c = '#' then skipLayout true rest
    else some (c :: rest)

/-- Take the end of a line, with blanks and a comment before it. -/
def lineEnd? (cs : List Char) : Option (List Char) :=
  let rest :=
    match skipSpaces cs with
    | '#' :: comment => comment.dropWhile isCommentChar
    | rest => rest
  match rest with
  | [] => some []
  | '\n' :: rest => some rest
  | '\r' :: '\n' :: rest => some rest
  | _ => none

/-! ### Strings -/

/-- The character of a number, unless that is a surrogate or too large. -/
def char? (n : Nat) : Option Char := if n.isValidChar then some (Char.ofNat n) else none

/-- The number of hexadecimal digits. -/
def hex? (digits : List Char) : Option Nat :=
  digits.foldlM (fun n c => (Json.hexValue? c).map (n * 16 + ·)) 0

/-- The character that a one-letter escape stands for. -/
def escaped? : Char → Option Char
  | 'b' => some '\x08'
  | 't' => some '\t'
  | 'n' => some '\n'
  | 'f' => some '\x0c'
  | 'r' => some '\r'
  | '"' => some '"'
  | '\\' => some '\\'
  | _ => none

/-- A string on one line, after its opening quote; `done` holds its characters, the last one
first. -/
def basicString? (done : List Char) : List Char → Option (String × List Char)
  | '"' :: rest => some (String.ofList done.reverse, rest)
  | '\\' :: 'u' :: p :: q :: r :: s :: rest => do
    basicString? ((← char? (← hex? [p, q, r, s])) :: done) rest
  | '\\' :: 'U' :: p :: q :: r :: s :: t :: u :: v :: w :: rest => do
    basicString? ((← char? (← hex? [p, q, r, s, t, u, v, w])) :: done) rest
  | '\\' :: c :: rest => do basicString? ((← escaped? c) :: done) rest
  | c :: rest => if isCommentChar c then basicString? (c :: done) rest else none
  | [] => none

/-- A string without escapes on one line, after its opening quote. -/
def literalString? (done : List Char) : List Char → Option (String × List Char)
  | '\'' :: rest => some (String.ofList done.reverse, rest)
  | c :: rest => if isCommentChar c then literalString? (c :: done) rest else none
  | [] => none

/-- How far a break between lines that a reverse solidus opens has been read. -/
inductive Gap where
  /-- Not in a break. -/
  | closed
  /-- Before the end of the line. -/
  | opened
  /-- After it, where more blanks and line breaks may follow. -/
  | broken
  deriving DecidableEq

/-- A string over several lines, after its three opening quotes.  One or two quotes may stand before
the three that close it. -/
def longString? (gap : Gap) (done : List Char) : List Char → Option (String × List Char)
  | '\n' :: rest =>
    match gap with
    | .closed => longString? .closed ('\n' :: done) rest
    | .opened | .broken => longString? .broken done rest
  | '\r' :: '\n' :: rest =>
    match gap with
    | .closed => longString? .closed ('\n' :: done) rest
    | .opened | .broken => longString? .broken done rest
  | c :: rest =>
    if gap ≠ .closed ∧ isSpace c then longString? gap done rest
    else if gap = .opened then none
    else
      match c, rest with
      | '"', '"' :: '"' :: '"' :: '"' :: rest =>
        some (String.ofList ('"' :: '"' :: done).reverse, rest)
      | '"', '"' :: '"' :: '"' :: rest => some (String.ofList ('"' :: done).reverse, rest)
      | '"', '"' :: '"' :: rest => some (String.ofList done.reverse, rest)
      | '\\', 'u' :: p :: q :: r :: s :: rest => do
        longString? .closed ((← char? (← hex? [p, q, r, s])) :: done) rest
      | '\\', 'U' :: p :: q :: r :: s :: t :: u :: v :: w :: rest => do
        longString? .closed ((← char? (← hex? [p, q, r, s, t, u, v, w])) :: done) rest
      | '\\', d :: rest =>
        match escaped? d with
        | some e => longString? .closed (e :: done) rest
        | none => longString? .opened done (d :: rest)
      | c, rest => if isCommentChar c ∧ c ≠ '\\' then longString? .closed (c :: done) rest else none
  | [] => none

/-- A string without escapes over several lines, after its three opening quotes. -/
def longLiteral? (done : List Char) : List Char → Option (String × List Char)
  | '\'' :: '\'' :: '\'' :: '\'' :: '\'' :: rest =>
    some (String.ofList ('\'' :: '\'' :: done).reverse, rest)
  | '\'' :: '\'' :: '\'' :: '\'' :: rest => some (String.ofList ('\'' :: done).reverse, rest)
  | '\'' :: '\'' :: '\'' :: rest => some (String.ofList done.reverse, rest)
  | '\r' :: '\n' :: rest => longLiteral? ('\n' :: done) rest
  | c :: rest => if c = '\n' ∨ isCommentChar c then longLiteral? (c :: done) rest else none
  | [] => none

/-- Drop the line break that may follow three opening quotes. -/
def skipFirstBreak : List Char → List Char
  | '\n' :: rest => rest
  | '\r' :: '\n' :: rest => rest
  | rest => rest

/-- A string of any form. -/
def string? : List Char → Option (String × List Char)
  | '"' :: '"' :: '"' :: rest => longString? .closed [] (skipFirstBreak rest)
  | '\'' :: '\'' :: '\'' :: rest => longLiteral? [] (skipFirstBreak rest)
  | '"' :: rest => basicString? [] rest
  | '\'' :: rest => literalString? [] rest
  | _ => none

/-! ### Keys -/

/-- A character of a key without quotes. -/
def isBareKeyChar (c : Char) : Bool := c.isAlphanum || c == '_' || c == '-'

/-- One part of a key: bare, or a string on one line. -/
def keyPart? : List Char → Option (String × List Char)
  | '"' :: rest => basicString? [] rest
  | '\'' :: rest => literalString? [] rest
  | cs =>
    let part := cs.takeWhile isBareKeyChar
    if part.isEmpty then none else some (String.ofList part, cs.dropWhile isBareKeyChar)

/-- Parts of a key that may be nested, which bounds the depth of tables. -/
def nestingLimit : Nat := 80

/-- The parts of a key with points between them, at most `fuel`; blanks may stand around the
points. -/
def keyParts? : Nat → List Char → Option (List String × List Char)
  | 0, _ => none
  | fuel + 1, cs => do
    let (part, rest) ← keyPart? (skipSpaces cs)
    match skipSpaces rest with
    | '.' :: more => do
      let (parts, rest) ← keyParts? fuel more
      return (part :: parts, rest)
    | rest => return ([part], rest)

/-- A key of fewer parts than the limit, with the blanks around it. -/
def key? (cs : List Char) : Option (List String × List Char) := keyParts? (nestingLimit - 1) cs

end TaggedWire.Toml
