import TaggedWire.Factory.Basic
import TaggedWire.Factory.Slot
import TaggedWire.Marshaller.Scalar
import TaggedWire.Value.Equality

/-!
# Decoding

A document is decoded from its parts upwards, as encoding goes: the parts become *decoders*, which
read the part as a slot asks.  The items of an array also become pairs of decoders, for a map is an
array of pairs.

* `decode_array`, `decode_object`: the decoding of a document, with the decodings of its parts.
-/

namespace TaggedWire

/-- Reads a document as its slot asks. -/
abbrev Decoder := Slot → Except Error Value

/-- The decoders of the parts of a document. -/
abbrev DecodedParts := Decoders Slot

namespace Factory

/-- The items of an array. -/
def decodeItems (slot : Slot) (items : List Decoder) : Except Error (List Value) :=
  items.mapM fun item => item slot

/-- The entries of a map; the value of an equal key is replaced. -/
def decodeEntries (entries : List (Except Error (Decoder × Decoder))) :
    Except Error (List (Value × Value)) :=
  entries.foldlM (fun done entry => do
    let (key, value) ← entry
    let k ← key .tagged
    let v ← value .tagged
    return Value.put k v done) []

/-- The rows or elements of an array. -/
def decodeRows (component : TypeRef) (dimensions : Nat) (j : Json) (items : List Decoder) :
    Except Error Value := do
  let signature := ArraySignature.of component dimensions
  let _ ← Wire.expectItems signature.id j
  return .array signature (← decodeItems (.element component dimensions signature.id) items)

/-- The type that an object claims, which is the expected one if it carries no tag. -/
def claimedType (f : Factory) (type : String) (j : Json) : Except Error String :=
  match Wire.tag? j with
  | none => .ok type
  | some tag => if f.acceptsClaim type tag then .ok tag else .error (.mismatch type type tag)

/-- A constant of an enum, which has to be declared. -/
def decodeConstant (type : String) (variants : List String) (claimed variant : String) :
    Except Error Value :=
  if variant ∈ variants then .ok (.enumeration claimed variant)
  else .error (.unknownVariant type variant)

/-- A constant, alone or in an object. -/
def decodeEnumeration (f : Factory) (type : String) (variants : List String) (j : Json) :
    Except Error Value :=
  match j with
  | .string variant => decodeConstant type variants type variant
  | j => do
    let _ ← Wire.expectMembers type j
    let claimed ← f.claimedType type j
    match (j.get? Wire.constantKey).bind Json.string? with
    | none => .error (.mismatch type "enum constant name" "missing")
    | some variant => decodeConstant type variants claimed variant

/-- Null against a declared type. -/
def decodeNull (type : TypeRef) (owner : String) : Except Error Value :=
  if type.isNullable then .ok .null
  else .error (.mismatch s!"{owner}: {type.id}" "non-null primitive" "null")

/-- The writable fields of an object, a missing member counting as null. -/
def decodeFields (f : Factory) (type : String) (declared : List Field) (j : Json)
    (members : List (String × Decoder)) : Except Error Value := do
  let _ ← Wire.expectMembers type j
  let claimed ← f.claimedType type j
  let fields ← (declared.filter (·.writable)).foldlM (fun done field => do
    let owner := s!"{type}.{field.name}"
    let v ← match Json.find? field.name members with
      | some decoder => decoder (.declared field.declared owner)
      | none => decodeNull field.declared owner
    return Entries.insert field.name v done) []
  return .object claimed fields

/-- What a marshaller reads from a document that is not null, if it does not pass it on. -/
def decodePlain (f : Factory) (m : Marshaller) (j : Json) (parts : DecodedParts) :
    Except Error Value :=
  match m with
  | .scalar p => Scalar.read p j
  | .string =>
    match j with
    | .string s => .ok (.string s)
    | j => .error (.mismatch "string" "string" j.kind)
  | .list => do
    let _ ← Wire.expectItems "list" j
    return .list (← decodeItems .tagged parts.items)
  | .set => do
    let _ ← Wire.expectItems "set" j
    return .setOf (← decodeItems .tagged parts.items)
  | .map => do
    let _ ← Wire.expectItems "map" j
    return .map (← decodeEntries parts.entries)
  | .enumeration type variants => f.decodeEnumeration type variants j
  | .object type declared => f.decodeFields type declared j parts.members
  | .array s => decodeRows s.component s.dimensions j parts.items
  | .foreign m => m.read j (parts.comap .ofAsk) fun id owner => .error (.unknownNested owner id)

/-- What a marshaller reads from a document.  Null is null for all of them.  A foreign class may
pass the document on to the marshaller of an identifier, which must not pass it on in its turn. -/
def decodeWith (f : Factory) (m : Marshaller) (j : Json) (parts : DecodedParts) :
    Except Error Value :=
  match m, j with
  | _, .null => .ok .null
  | .foreign m, j =>
    m.read j (parts.comap .ofAsk) fun id owner => do
      let i ← f.require id owner
      f.decodePlain i.marshaller j parts
  | m, j => f.decodePlain m j parts

/-- A document that tells its type: null, a boolean and a string do, and so does a tagged object.
The marshaller of the tag reads what the tag is put around, or the object itself. -/
def decodeTagged (f : Factory) (j : Json) (parts : DecodedParts) : Except Error Value :=
  match j with
  | .null => .ok .null
  | .bool b => .ok (.scalar (.bool b))
  | .string s => .ok (.string s)
  | .object _ =>
    match Wire.tag? j with
    | none => .error (.mismatch "any" "tagged object" "untagged object")
    | some tag => do
      let m ← f.require tag "tagged element"
      match j.get? Wire.valueKey, Json.find? Wire.valueKey parts.members with
      | some payload, some decoder =>
        -- the tag is around a payload, which alone is what the marshaller reads
        if m.marshaller.accepts payload then decoder (.through m.marshaller)
        else .error (.mismatch tag tag payload.kind)
      | _, _ =>
        if m.marshaller.accepts j then f.decodeWith m.marshaller j parts
        else .error (.mismatch tag tag j.kind)
  | j => .error (.mismatch "any" "tagged value" j.kind)

/-- A document against a declared type.  A tag on it has to name the declared type or an alias;
without one, the marshaller of the declared type reads it. -/
def decodeDeclared (f : Factory) (type : TypeRef) (owner : String) (j : Json)
    (parts : DecodedParts) : Except Error Value :=
  if j.isNull then decodeNull type owner
  else
    match type with
    | .any => f.decodeTagged j parts
    | .named name =>
      if Wire.isTagged j then do
        let v ← f.decodeTagged j parts
        f.checkAssignable name v owner
        return v
      else do
        let m ← f.require name owner
        f.decodeWith m.marshaller j parts
    | type => do
      let m ← f.require type.id owner
      f.decodeWith m.marshaller j parts

/-- A document as its slot asks, from the decoders of its parts. -/
def decodeNode (f : Factory) (j : Json) (parts : DecodedParts) : Decoder
  | .tagged => f.decodeTagged j parts
  | .declared type owner => f.decodeDeclared type owner j parts
  | .row component dimensions =>
    if j.isNull then .ok .null else decodeRows component dimensions j parts.items
  | .through m => f.decodeWith m j parts

mutual

/-- The decoder of a document. -/
def decode (f : Factory) : Json → Decoder
  | .null => f.decodeNode .null {}
  | .bool b => f.decodeNode (.bool b) {}
  | .number n => f.decodeNode (.number n) {}
  | .string s => f.decodeNode (.string s) {}
  | .array items =>
    f.decodeNode (.array items)
      { items := f.itemDecoders items, entries := f.entryDecoders items }
  | .object members =>
    f.decodeNode (.object members) { members := f.memberDecoders members }

/-- The decoders of items. -/
def itemDecoders (f : Factory) : List Json → List Decoder
  | [] => []
  | j :: js => f.decode j :: f.itemDecoders js

/-- The decoders of items as pairs. -/
def entryDecoders (f : Factory) : List Json → List (Except Error (Decoder × Decoder))
  | [] => []
  | j :: js => f.entryDecoder j :: f.entryDecoders js

/-- The decoders of the two items of a pair. -/
def entryDecoder (f : Factory) : Json → Except Error (Decoder × Decoder)
  | .array [k, v] => .ok (f.decode k, f.decode v)
  | .array items =>
    .error (.mismatch "map entry" "[key, value] pair" s!"array of {items.length}")
  | j => .error (.mismatch "map entry" "array" j.kind)

/-- The decoders of members. -/
def memberDecoders (f : Factory) : List (String × Json) → List (String × Decoder)
  | [] => []
  | (k, j) :: ms => (k, f.decode j) :: f.memberDecoders ms

end

/-! ### The decoding of a document from the decodings of its parts -/

theorem itemDecoders_eq (f : Factory) (items : List Json) :
    f.itemDecoders items = items.map f.decode := by
  induction items with
  | nil => simp [itemDecoders]
  | cons j js ih => simp [itemDecoders, ih]

theorem entryDecoders_eq (f : Factory) (items : List Json) :
    f.entryDecoders items = items.map f.entryDecoder := by
  induction items with
  | nil => simp [entryDecoders]
  | cons j js ih => simp [entryDecoders, ih]

theorem memberDecoders_eq (f : Factory) (members : List (String × Json)) :
    f.memberDecoders members = members.map fun m => (m.1, f.decode m.2) := by
  induction members with
  | nil => simp [memberDecoders]
  | cons m ms ih => cases m; simp [memberDecoders, ih]

theorem decode_array (f : Factory) (items : List Json) :
    f.decode (.array items) = f.decodeNode (.array items)
      { items := items.map f.decode, entries := items.map f.entryDecoder } := by
  rw [decode, itemDecoders_eq, entryDecoders_eq]

theorem decode_object (f : Factory) (members : List (String × Json)) :
    f.decode (.object members) = f.decodeNode (.object members)
      { members := members.map fun m => (m.1, f.decode m.2) } := by
  rw [decode, memberDecoders_eq]

/-! ### Entry points -/

/-- Decode wire text that tells its type. -/
def unmarshal (f : Factory) (text : String) : Except Error Value := do
  f.decode (← Wire.parse text) .tagged

/-- Decode wire text as a declared type. -/
def unmarshalAs (f : Factory) (type : TypeRef) (text : String) : Except Error Value := do
  f.decode (← Wire.parse text) (.declared type type.id)

end Factory
end TaggedWire
