import TaggedWire.Catalog.Basic
import TaggedWire.Text.Blank
import TaggedWire.TypeRef.Spelling

/-!
# Checks of a catalog

A catalog is sound when each type is sound by itself, no name is declared twice, and each alias is
a new name for a declared type.  `validate` makes the checks in a fixed order, types before aliases,
and reports the first that fails.
-/

namespace TaggedWire

namespace ExposedType

/-- What is wrong with a type. -/
def fault (t : ExposedType) (reason : String) : Error := .invalidCatalog t.name reason

/-- The name is the identifier of a type, written as it is known on the wire. -/
def checkName (t : ExposedType) : Except Error TypeRef :=
  match TypeRef.parse t.name with
  | .error e => .error (t.fault s!"invalid type name: {e.message}")
  | .ok parsed =>
    if parsed.id = t.name then .ok parsed
    else .error (t.fault s!"type name must be written as '{parsed.id}'")

/-- The shape goes with the name. -/
def checkShape (t : ExposedType) (parsed : TypeRef) : Except Error Unit :=
  match t.shape, parsed with
  | .object _, .named _ | .enumeration _, .named _ | .array, .array _ _ => .ok ()
  | .object _, _ | .enumeration _, _ =>
    .error (t.fault "object and enum types need a plain type name")
  | .array, _ => .error (t.fault "array types must be named by their signature")
  | .unstructured, .array _ _ => .error (t.fault "array signatures must use kind \"array\"")
  | .unstructured, _ => .ok ()

/-- The marshaller class has a name. -/
def checkClass (t : ExposedType) : Except Error Unit :=
  match t.className with
  | some name =>
    if Text.trim name = "" then .error (t.fault "empty marshaller class") else .ok ()
  | none => .ok ()

/-- The names of fields are neither empty nor reserved, and differ. -/
def checkFields (t : ExposedType) : List String → List String → Except Error Unit
  | _, [] => .ok ()
  | seen, name :: rest =>
    if name = "" then .error (t.fault "empty field name")
    else if name.toList.head? = some '^' then
      .error (t.fault s!"field '{name}' collides with reserved keys such as ^EncodedType")
    else if name ∈ seen then .error (t.fault s!"duplicate field '{name}'")
    else t.checkFields (name :: seen) rest

/-- The constants are not empty and differ. -/
def checkVariants (t : ExposedType) : List String → List String → Except Error Unit
  | _, [] => .ok ()
  | seen, name :: rest =>
    if name = "" ∨ name ∈ seen then
      .error (t.fault s!"empty or duplicate constant '{name}'")
    else t.checkVariants (name :: seen) rest

/-- The checks of a type by itself. -/
def check (t : ExposedType) : Except Error Unit := do
  let parsed ← t.checkName
  t.checkShape parsed
  t.checkClass
  match t.shape with
  | .object fields => t.checkFields [] (fields.map (·.name))
  | .enumeration variants => t.checkVariants [] variants
  | .array | .unstructured => .ok ()

end ExposedType

namespace Catalog

/-- Each type is sound, and no name is declared twice. -/
def checkTypes : List String → List ExposedType → Except Error Unit
  | _, [] => .ok ()
  | seen, t :: rest => do
    t.check
    if t.name ∈ seen then .error (t.fault "type declared more than once")
    else checkTypes (t.name :: seen) rest

/-- An alias is a name of its own, written as it is known on the wire, for a declared type. -/
def checkAlias (names : List String) (name target : String) : Except Error Unit :=
  let fault (reason : String) : Except Error Unit := .error (.invalidAlias name target reason)
  if name ∈ names then fault "alias shadows a canonical type"
  else
    match TypeRef.parse name with
    | .error _ | .ok (.array _ _) => fault "alias is not a valid type name"
    | .ok parsed =>
      if parsed.id ≠ name then fault s!"alias must be written as '{parsed.id}'"
      else if target ∈ names then .ok ()
      else fault "target is not a canonical type"

/-- Check names, shapes and aliases. -/
def validate (c : Catalog) : Except Error Unit := do
  checkTypes [] c.types
  c.aliases.entries.forM fun (name, target) => checkAlias (c.types.map (·.name)) name target

end Catalog
end TaggedWire
