import TaggedWire.Catalog.Basic
import TaggedWire.Catalog.Format
import TaggedWire.Json.Record
import TaggedWire.Json.Tree
import TaggedWire.Toml.Document
import TaggedWire.TypeRef.Spelling

/-!
# Catalogs as documents

A catalog is written as an object with the types and the aliases.  Reading is strict about what it
knows: a key that it asks for must not be repeated, null is not a missing value (except for the
marshaller class), and the text of a type must spell one.  Keys that it does not ask for are
ignored.  Records without a variable part may also be written as an array of their fields in order.

* `Field.read?`, `ExposedType.read?`, `Catalog.read?`: from documents.
* `Field.document`, `ExposedType.document`, `document`: to documents, with every default written
  out.
-/

namespace TaggedWire

/-- The type that a string spells. -/
def TypeRef.read? (j : Json) : Option TypeRef :=
  j.string?.bind fun s => (TypeRef.parse s).toOption

/-- The position of a kind in a list of kinds, by its name or, where allowed, by its position. -/
def readKind? (names : List String) (byPosition : Bool) (j : Json) : Option String :=
  match j with
  | .string s => names.find? (· = s)
  | j => if byPosition then j.nat?.bind (names[·]?) else none

namespace Field

/-- A field of an object type. -/
def read? (j : Json) : Option Field :=
  match j with
  | .object members => do
    let name ← (← Json.required? members "name").string?
    let declared ← TypeRef.read? (← Json.required? members "type")
    let readable ← Json.optional? members "readable" true Json.bool?
    let writable ← Json.optional? members "writable" true Json.bool?
    return ⟨name, declared, readable, writable⟩
  | .array (name :: declared :: flags) => do
    let name ← name.string?
    let declared ← TypeRef.read? declared
    match ← flags.mapM Json.bool? with
    | [] => return ⟨name, declared, true, true⟩
    | [readable] => return ⟨name, declared, readable, true⟩
    | [readable, writable] => return ⟨name, declared, readable, writable⟩
    | _ => none
  | _ => none

/-- A field with all its parts. -/
def document (f : Field) : Json :=
  .object [("name", .string f.name), ("type", .string f.declared.id),
    ("readable", .bool f.readable), ("writable", .bool f.writable)]

/-- The fields of an array. -/
def readAll? (j : Json) : Option (List Field) := j.items?.bind fun items => items.mapM read?

end Field

namespace Shape

/-- The names of the kinds of types, in order. -/
def kinds : List String := ["object", "enum", "array", "opaque"]

/-- The parts of a type that go with its kind. -/
def read? (byPosition : Bool) (members : List (String × Json)) : Option Shape := do
  let kind ← readKind? kinds byPosition (← Json.required? members "kind")
  if kind = "object" then
    return .object (← Json.optional? members "fields" [] Field.readAll?)
  else if kind = "enum" then
    return .enumeration (← (← Json.required? members "variants").texts?)
  else if kind = "array" then return .array
  else return .unstructured

/-- The kind of a type and the parts that go with it. -/
def members : Shape → List (String × Json)
  | object fields => [("kind", .string "object"), ("fields", .array (fields.map Field.document))]
  | enumeration variants => [("kind", .string "enum"), ("variants", Json.ofTexts variants)]
  | array => [("kind", .string "array")]
  | unstructured => [("kind", .string "opaque")]

end Shape

namespace ExposedType

/-- The class of a marshaller; null stands for none. -/
def readClass? : Json → Option (Option String)
  | .null => some none
  | .string s => some (some s)
  | _ => none

/-- An exposed type. -/
def read? (byPosition : Bool) (j : Json) : Option ExposedType := do
  let members ← j.members?
  let name ← (← Json.required? members "name").string?
  let className ← Json.optional? members "marshaller" none readClass?
  let shape ← Shape.read? byPosition members
  return ⟨name, shape, className⟩

/-- A type with all its parts; the marshaller class only if there is one. -/
def document (t : ExposedType) : Json :=
  .object ([("name", .string t.name)] ++ t.shape.members ++
    match t.className with
    | some className => [("marshaller", .string className)]
    | none => [])

end ExposedType

/-- A table of texts; of members with one key the last counts. -/
def Table.read? (j : Json) : Option (Table String) := do
  let members ← j.members?
  let entries ← members.mapM fun (k, j) => j.string?.map (k, ·)
  return Table.ofList entries

/-- A table of texts. -/
def Table.document (t : Table String) : Json := .object (t.entries.map fun (k, v) => (k, .string v))

namespace Catalog

/-- The keys of a catalog document. -/
def documentKeys : List String := ["types", "aliases"]

/-- The types of an array. -/
def readTypes? (byPosition : Bool) (j : Json) : Option (List ExposedType) :=
  j.items?.bind fun items => items.mapM (ExposedType.read? byPosition)

/-- A catalog from a document.  Where kinds may be given by their position is up to the format. -/
def read? (byPosition : Bool) (j : Json) : Option Catalog :=
  match j with
  | .object members => do
    let types ← Json.optional? members "types" [] (readTypes? byPosition)
    let aliases ← Json.optional? members "aliases" Table.empty Table.read?
    return ⟨types, aliases⟩
  | .array [] => some empty
  | .array [types] => do return ⟨← readTypes? byPosition types, Table.empty⟩
  | .array [types, aliases] => do return ⟨← readTypes? byPosition types, ← Table.read? aliases⟩
  | _ => none

/-- A catalog as a document. -/
def document (c : Catalog) : Json :=
  .object [("types", .array (c.types.map ExposedType.document)), ("aliases", c.aliases.document)]

/-- The name under which faults of a whole document are reported. -/
def documentName : String := "<catalog>"

/-- What is said of a document that is no catalog. -/
def unreadable : Error := .invalidCatalog documentName "not a catalog document"

/-- A catalog from JSON text, in which kinds may be given by their position. -/
def parseJson (text : String) : Except Error Catalog :=
  match (Json.parseRecord? documentKeys text).bind (read? true) with
  | some c => .ok c
  | none => .error unreadable

/-- A catalog from TOML text. -/
def parseToml (text : String) : Except Error Catalog :=
  match (Toml.parse? text).bind (read? false) with
  | some c => .ok c
  | none => .error unreadable

/-- A catalog from a text in a format. -/
def parse (format : CatalogFormat) (text : String) : Except Error Catalog :=
  match format with
  | .json => parseJson text
  | .toml => parseToml text

end Catalog
end TaggedWire
