import TaggedWire.Error
import TaggedWire.Json.Layout
import TaggedWire.Json.Tree

/-!
# Wire text

Encoded values are JSON texts.  Three keys are reserved: one carries the identifier of a type, one
the text that a type tag is put around, and one the constant of an enum.

* `tag?`: the type that an object on the wire claims.
* `taggedText`, `wrapText`: objects that open with a type tag.
-/

namespace TaggedWire.Wire

/-- The key of a type tag. -/
def typeKey : String := "^EncodedType"

/-- The key of what a type tag is put around. -/
def valueKey : String := "^Value"

/-- The key of an enum constant. -/
def constantKey : String := "^EnumStringValue"

/-- Read wire text. -/
def parse [Json.Numeral.Reader] (text : String) : Except Error Json :=
  match Json.parse? text with
  | some j => .ok j
  | none => .error (.parse "wire" "not a JSON document")

/-- The type tag of an object. -/
def tag? (j : Json) : Option String := (j.get? typeKey).bind Json.string?

/-- The object carries a type tag. -/
def isTagged (j : Json) : Bool := (tag? j).isSome

/-- The items of an array, on behalf of a type. -/
def expectItems (type : String) (j : Json) : Except Error (List Json) :=
  match j with
  | .array items => .ok items
  | j => .error (.mismatch type "array" j.kind)

/-- The members of an object, on behalf of a type. -/
def expectMembers (type : String) (j : Json) : Except Error (List (String × Json)) :=
  match j with
  | .object members => .ok members
  | j => .error (.mismatch type "object" j.kind)

/-! ### Writing -/

/-- The text of null. -/
def nullText : String := "null"

/-- The text of an object that opens with a type tag. -/
def taggedText (type : String) (members : List (String × String)) : String :=
  Json.objectText ((typeKey, Json.quote type) :: members)

/-- A type tag put around a text. -/
def wrapText (type plain : String) : String := taggedText type [(valueKey, plain)]

end TaggedWire.Wire
