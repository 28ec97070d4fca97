import TaggedWire.Error
import TaggedWire.Json.Basic
import TaggedWire.Json.Literal
import TaggedWire.Value.Basic
import TaggedWire.Wire.Encoding

/-!
# Marshallers of foreign classes

A catalog may name a marshaller class that is not one of the library's.  Of such a marshaller the
library knows what it answers and nothing else, so it is a record of functions here, whatever they
are.  It may have the parts of a value written and the parts of a document read, under their own
types or under declared ones, and may have the whole document read by the marshaller of another
identifier.  Null never comes to it.

* `Encoders`, `Decoders`: the parts of a value or document, ready to be written or read.
* `Foreign`: a marshaller of a foreign class.
* `Foreign.fieldText`, `Foreign.fixedText`: two such marshallers.
-/

namespace TaggedWire

/-! ### Parts

The way in which a part is asked for is left open: the library has more ways than it offers to
foreign classes. -/

/-- The parts of a value as functions that write them, each as it is asked for. -/
structure Encoders (σ : Type) where
  items : List (σ → Except Error String) := []
  entries : List ((σ → Except Error String) × (σ → Except Error String)) := []
  fields : List (String × (σ → Except Error String)) := []

/-- The parts of a document as functions that read them, each as it is asked for. -/
structure Decoders (σ : Type) where
  items : List (σ → Except Error Value) := []
  /-- The items as pairs; an error for an item that is none. -/
  entries : List (Except Error ((σ → Except Error Value) × (σ → Except Error Value))) := []
  members : List (String × (σ → Except Error Value)) := []

/-- The same parts, asked for in other words. -/
def Encoders.comap (g : τ → σ) (parts : Encoders σ) : Encoders τ where
  items := parts.items.map (· ∘ g)
  entries := parts.entries.map fun e => (e.1 ∘ g, e.2 ∘ g)
  fields := parts.fields.map fun e => (e.1, e.2 ∘ g)

/-- The same parts, asked for in other words. -/
def Decoders.comap (g : τ → σ) (parts : Decoders σ) : Decoders τ where
  items := parts.items.map (· ∘ g)
  entries := parts.entries.map fun e => e.map fun d => (d.1 ∘ g, d.2 ∘ g)
  members := parts.members.map fun m => (m.1, m.2 ∘ g)

/-! ### Classes -/

/-- How a foreign class asks for a part. -/
inductive Ask where
  /-- The part tells its own type. -/
  | tagged
  /-- The part has a declared type; the owner is named in errors. -/
  | declared (type : TypeRef) (owner : String)
  deriving DecidableEq, Repr

/-- A marshaller of a class outside the library. -/
structure Foreign where
  /-- The type that it handles. -/
  handled : TypeRef
  /-- What it writes tells its type. -/
  isSelfDescribing : Bool := false
  /-- Whether it takes a document that carries its tag. -/
  accepts : Json → Bool := fun _ => true
  /-- The format that it writes. -/
  encoding : Encoding := .json
  /-- What it writes for a value with these parts. -/
  write : Value → Encoders Ask → Except Error String
  /-- What it reads from a document with these parts.  The last argument reads the document itself
  with the marshaller of an identifier, on behalf of an owner. -/
  read : Json → Decoders Ask → (String → String → Except Error Value) → Except Error Value

namespace Foreign

/-- Writes an object as the text in one field. -/
def fieldText (type field : String) : Foreign where
  handled := .named type
  write v parts :=
    match Entries.get? field parts.fields with
    | some encoder => encoder (.declared .string s!"{type}.{field}")
    | none => .error (.mismatch type field v.kind)
  read _ _ whole := return .object type [(field, ← whole "string" s!"{type}.{field}")]

/-- Writes every value of a type as the same text, and reads any text. -/
def fixedText (type text : String) : Foreign where
  handled := .named type
  accepts j := j.string?.isSome
  write _ _ := .ok (Json.quote text)
  read j _ _ := .ok (.string (j.string?.getD ""))

end Foreign
end TaggedWire
