import TaggedWire.Marshaller.Foreign

/-!
# Marshallers

A marshaller says how the values of one type are written and read.  The marshallers of scalars,
strings and collections are built in, those of enums, objects and arrays follow from
declarations.  All others are of foreign classes.
-/

namespace TaggedWire

/-- A field of an object type. -/
structure Field where
  name : String
  declared : TypeRef
  /-- The field is written. -/
  readable : Bool := true
  /-- The field is read. -/
  writable : Bool := true
  deriving DecidableEq, Repr

/-- How the values of a type are written and read. -/
inductive Marshaller where
  | scalar (p : Primitive)
  | string
  | list
  | set
  | map
  | enumeration (type : String) (variants : List String)
  | object (type : String) (fields : List Field)
  | array (signature : ArraySignature)
  /-- A marshaller of a class outside the library. -/
  | foreign (m : Foreign)

namespace Marshaller

/-- The type that a marshaller handles; for an array this is the component. -/
def handled : Marshaller → TypeRef
  | scalar p => .primitive p
  | string => .string
  | list => .list
  | set => .set
  | map => .map
  | enumeration type _ => .named type
  | object type _ => .named type
  | array signature => signature.component
  | foreign m => m.handled

/-- What the marshaller writes tells its type, so no tag is put around it. -/
def isSelfDescribing : Marshaller → Bool
  | scalar p => decide (p = .bool)
  | string | enumeration _ _ | object _ _ => true
  | list | set | map | array _ => false
  | foreign m => m.isSelfDescribing

/-- Whether the marshaller takes a document that carries its tag. -/
def accepts : Marshaller → Json → Bool
  | foreign m, j => m.accepts j
  | _, _ => true

/-- The format that the marshaller writes. -/
def encoding : Marshaller → Encoding
  | foreign m => m.encoding
  | _ => .json

/-- The marshaller of objects that are written as the text in one field. -/
def fieldText (type field : String) : Marshaller := .foreign (.fieldText type field)

/-- The marshaller of a type with one written form. -/
def fixedText (type text : String) : Marshaller := .foreign (.fixedText type text)

end Marshaller
end TaggedWire
