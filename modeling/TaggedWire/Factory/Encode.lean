import TaggedWire.Factory.Basic
import TaggedWire.Factory.Slot
import TaggedWire.Marshaller.Scalar
import TaggedWire.Value.Equality

/-!
# Encoding

A value is encoded from its parts upwards.  The parts of a value become *encoders*: functions that
write the part as a slot asks.  What a marshaller makes of them is decided without recursion, in
`encodeWith`; `encodeNode` finds the marshaller that a slot asks for.

* `encode_list`, `encode_map`, `encode_object` and their like: the encoding of a value, with the
  encodings of its parts.
-/

namespace TaggedWire

/-- Writes a value as its slot asks. -/
abbrev Encoder := Slot → Except Error String

/-- The encoders of the parts of a value. -/
abbrev EncodedParts := Encoders Slot

namespace Factory

/-- Items as an array. -/
def encodeItems (slot : Slot) (items : List Encoder) : Except Error String :=
  return Json.arrayText (← items.mapM fun item => item slot)

/-- Keys and values as an array of pairs. -/
def encodeEntries (entries : List (Encoder × Encoder)) : Except Error String := do
  let pairs ← entries.mapM fun (key, value) =>
    return Json.arrayText [← key .tagged, ← value .tagged]
  return Json.arrayText pairs

/-- The rows or elements of an array, which has to have the expected shape. -/
def encodeRows (component : TypeRef) (dimensions : Nat) (signature : ArraySignature)
    (items : List Encoder) : Except Error String :=
  let expected := ArraySignature.of component dimensions
  if signature = expected then encodeItems (.element component dimensions expected.id) items
  else .error (.mismatch expected.id expected.id signature.id)

/-- The constant of an enum, which has to be declared, under the type that the value claims. -/
def encodeConstant (f : Factory) (type : String) (variants : List String)
    (claimed variant : String) : Except Error String :=
  if !f.acceptsClaim type claimed then .error (.mismatch type type claimed)
  else if variant ∈ variants then
    .ok (Wire.taggedText claimed [(Wire.constantKey, Json.quote variant)])
  else .error (.unknownVariant type variant)

/-- The readable fields of an object in the order of their declaration, a missing one as null, under
the type that the value claims. -/
def encodeFields (f : Factory) (type : String) (declared : List Field) (claimed : String)
    (given : List (String × Encoder)) : Except Error String :=
  if !f.acceptsClaim type claimed then .error (.mismatch type type claimed)
  else
    -- an undeclared field comes before any fault in a declared one
    match given.find? fun (name, _) => declared.all fun field => field.name ≠ name with
    | some (name, _) => .error (.mismatch type "declared field" s!"unknown field '{name}'")
    | none => do
      let members ← (declared.filter (·.readable)).mapM fun field => do
        let slot := Slot.declared field.declared s!"{type}.{field.name}"
        match Entries.get? field.name given with
        | some encoder => return (field.name, ← encoder slot)
        | none =>
          if field.declared.isNullable then return (field.name, Wire.nullText)
          else .error (.mismatch s!"{type}.{field.name}: {field.declared.id}" "non-null primitive"
            "null")
      return Wire.taggedText claimed members

/-- What a marshaller writes for a value.  Null is null for all of them. -/
def encodeWith (f : Factory) (m : Marshaller) (v : Value) (parts : EncodedParts) :
    Except Error String :=
  match m, v with
  | _, .null => .ok Wire.nullText
  | .scalar p, v => Scalar.write p v
  | .string, .string s => .ok (Json.quote s)
  | .string, v => .error (.mismatch "string" "string" v.kind)
  | .list, .list _ => encodeItems .tagged parts.items
  | .list, v => .error (.mismatch "list" "list" v.kind)
  | .set, .set _ => encodeItems .tagged parts.items
  | .set, v => .error (.mismatch "set" "set" v.kind)
  | .map, .map _ => encodeEntries parts.entries
  | .map, v => .error (.mismatch "map" "map" v.kind)
  | .enumeration type variants, .enumeration claimed variant =>
    f.encodeConstant type variants claimed variant
  | .enumeration type _, v => .error (.mismatch type "enum" v.kind)
  | .object type declared, .object claimed _ => f.encodeFields type declared claimed parts.fields
  | .object type _, v => .error (.mismatch type "object" v.kind)
  | .array s, .array signature _ => encodeRows s.component s.dimensions signature parts.items
  | .array s, v => .error (.mismatch s.id "array" v.kind)
  | .foreign m, v => m.write v (parts.comap .ofAsk)

/-- What the marshaller of the value's own type writes, with the type put around it unless it tells
that itself. -/
def encodeTagged (f : Factory) (v : Value) (parts : EncodedParts) : Except Error String :=
  match v.typeId? with
  | none => .ok Wire.nullText
  | some id => do
    let m ← f.require id "tagged element"
    let plain ← f.encodeWith m.marshaller v parts
    return if m.marshaller.isSelfDescribing then plain else Wire.wrapText id plain

/-- A value against a declared type. -/
def encodeDeclared (f : Factory) (type : TypeRef) (owner : String) (v : Value)
    (parts : EncodedParts) : Except Error String :=
  if v.isNull then
    if type.isNullable then .ok Wire.nullText
    else .error (.mismatch s!"{owner}: {type.id}" "non-null primitive" "null")
  else
    match type with
    | .any => f.encodeTagged v parts
    | .named name => do
      f.checkAssignable name v owner
      f.encodeTagged v parts
    | type => do
      let m ← f.require type.id owner
      f.encodeWith m.marshaller v parts

/-- A value as its slot asks, from the encoders of its parts. -/
def encodeNode (f : Factory) (v : Value) (parts : EncodedParts) : Encoder
  | .tagged => f.encodeTagged v parts
  | .declared type owner => f.encodeDeclared type owner v parts
  | .row component dimensions =>
    match v with
    | .null => .ok Wire.nullText
    | .array signature _ => encodeRows component dimensions signature parts.items
    | v => .error (.mismatch (ArraySignature.of component (dimensions + 1)).id "array" v.kind)
  | .through m => f.encodeWith m v parts

mutual

/-- The encoder of a value. -/
def encode (f : Factory) : Value → Encoder
  | .null => f.encodeNode .null {}
  | .scalar s => f.encodeNode (.scalar s) {}
  | .string s => f.encodeNode (.string s) {}
  | .list items => f.encodeNode (.list items) { items := f.itemEncoders items }
  | .set items => f.encodeNode (.set items) { items := f.itemEncoders items }
  | .map entries => f.encodeNode (.map entries) { entries := f.entryEncoders entries }
  | .array signature items =>
    f.encodeNode (.array signature items) { items := f.itemEncoders items }
  | .enumeration type variant => f.encodeNode (.enumeration type variant) {}
  | .object type fields => f.encodeNode (.object type fields) { fields := f.fieldEncoders fields }

/-- The encoders of items. -/
def itemEncoders (f : Factory) : List Value → List Encoder
  | [] => []
  | v :: vs => f.encode v :: f.itemEncoders vs

/-- The encoders of map entries. -/
def entryEncoders (f : Factory) : List (Value × Value) → List (Encoder × Encoder)
  | [] => []
  | (k, v) :: es => (f.encode k, f.encode v) :: f.entryEncoders es

/-- The encoders of fields. -/
def fieldEncoders (f : Factory) : List (String × Value) → List (String × Encoder)
  | [] => []
  | (k, v) :: fs => (k, f.encode v) :: f.fieldEncoders fs

end

/-! ### The encoding of a value from the encodings of its parts -/

theorem itemEncoders_eq (f : Factory) (items : List Value) :
    f.itemEncoders items = items.map f.encode := by
  induction items with
  | nil => simp [itemEncoders]
  | cons v vs ih => simp [itemEncoders, ih]

theorem entryEncoders_eq (f : Factory) (entries : List (Value × Value)) :
    f.entryEncoders entries = entries.map fun e => (f.encode e.1, f.encode e.2) := by
  induction entries with
  | nil => simp [entryEncoders]
  | cons e es ih => cases e; simp [entryEncoders, ih]

theorem fieldEncoders_eq (f : Factory) (fields : List (String × Value)) :
    f.fieldEncoders fields = fields.map fun e => (e.1, f.encode e.2) := by
  induction fields with
  | nil => simp [fieldEncoders]
  | cons e es ih => cases e; simp [fieldEncoders, ih]

theorem encode_list (f : Factory) (items : List Value) :
    f.encode (.list items) = f.encodeNode (.list items) { items := items.map f.encode } := by
  rw [encode, itemEncoders_eq]

theorem encode_set (f : Factory) (items : List Value) :
    f.encode (.set items) = f.encodeNode (.set items) { items := items.map f.encode } := by
  rw [encode, itemEncoders_eq]

theorem encode_map (f : Factory) (entries : List (Value × Value)) :
    f.encode (.map entries) = f.encodeNode (.map entries)
      { entries := entries.map fun e => (f.encode e.1, f.encode e.2) } := by
  rw [encode, entryEncoders_eq]

theorem encode_array (f : Factory) (signature : ArraySignature) (items : List Value) :
    f.encode (.array signature items) =
      f.encodeNode (.array signature items) { items := items.map f.encode } := by
  rw [encode, itemEncoders_eq]

theorem encode_object (f : Factory) (type : String) (fields : List (String × Value)) :
    f.encode (.object type fields) = f.encodeNode (.object type fields)
      { fields := fields.map fun e => (e.1, f.encode e.2) } := by
  rw [encode, fieldEncoders_eq]

/-! ### Entry points -/

/-- Encode a value under its own type. -/
def marshal (f : Factory) (v : Value) : Except Error String := f.encode v .tagged

/-- Encode a value as a declared type. -/
def marshalAs (f : Factory) (type : TypeRef) (v : Value) : Except Error String :=
  f.encode v (.declared type type.id)

end Factory
end TaggedWire
