import TaggedWire.Binary.Text
import TaggedWire.Json.Basic
import TaggedWire.Json.Literal

/-!
# Writing JSON text

Two layouts: the compact one has no white space at all; the indented one puts each item and member
on a line of its own, two spaces deeper than its container, and keeps empty containers closed.  The
compact layout is made of two functions on texts, `arrayText` and `objectText`, which need not see
a document.
-/

namespace TaggedWire.Json

/-- The texts with a separator between them. -/
def joined (separator : String) : List String → String
  | [] => ""
  | [s] => s
  | s :: t :: rest => s ++ separator ++ joined separator (t :: rest)

/-- The text of an array, from the texts of its items. -/
def arrayText (items : List String) : String := "[" ++ joined "," items ++ "]"

/-- The text of a member, from the text of its value. -/
def memberText (key value : String) : String := quote key ++ ":" ++ value

/-- The text of an object, from its keys and the texts of their values. -/
def objectText (members : List (String × String)) : String :=
  "\x7b" ++ joined "," (members.map fun (k, v) => memberText k v) ++ "\x7d"

/-- The text of a number. -/
def Number.text : Number → String
  | .integer n => toString n
  | .real x => x.text .wire64

/-- The text of a boolean. -/
def boolText (b : Bool) : String := if b then "true" else "false"

mutual

/-- A document without white space. -/
def compact : Json → String
  | .null => "null"
  | .bool b => boolText b
  | .number n => n.text
  | .string s => quote s
  | .array items => arrayText (compactItems items)
  | .object members => objectText (compactMembers members)

/-- The texts of the items of an array. -/
def compactItems : List Json → List String
  | [] => []
  | j :: js => compact j :: compactItems js

/-- The members of an object, with the texts of their values. -/
def compactMembers : List (String × Json) → List (String × String)
  | [] => []
  | (k, j) :: ms => (k, compact j) :: compactMembers ms

end

/-- A line break and the indentation of a nesting depth. -/
def newline (depth : Nat) : String := "\n" ++ String.ofList (List.replicate (2 * depth) ' ')

/-- Lines between an opening and a closing bracket; nothing at all if there are none. -/
def block (depth : Nat) (opening closing : String) : List String → String
  | [] => opening ++ closing
  | lines =>
    opening ++ newline (depth + 1) ++ joined ("," ++ newline (depth + 1)) lines ++ newline depth ++
      closing

mutual

/-- A document with one item or member a line, at a nesting depth. -/
def indentedAt (depth : Nat) : Json → String
  | .null => "null"
  | .bool b => boolText b
  | .number n => n.text
  | .string s => quote s
  | .array items => block depth "[" "]" (indentedItems (depth + 1) items)
  | .object members => block depth "\x7b" "\x7d" (indentedMembers (depth + 1) members)

/-- The texts of the items of an array. -/
def indentedItems (depth : Nat) : List Json → List String
  | [] => []
  | j :: js => indentedAt depth j :: indentedItems depth js

/-- The texts of the members of an object. -/
def indentedMembers (depth : Nat) : List (String × Json) → List String
  | [] => []
  | (k, j) :: ms => (quote k ++ ": " ++ indentedAt depth j) :: indentedMembers depth ms

end

/-- A document with one item or member a line. -/
def indented (j : Json) : String := indentedAt 0 j

end TaggedWire.Json
