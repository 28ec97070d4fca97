import TaggedWire.Catalog.Basic
import TaggedWire.Generation.Context
import TaggedWire.TypeRef.Spelling

/-!
# Choosing a strategy

A declared class comes before everything else and has to be provided.  Without one, the shape of a
type decides; a type without structure has no strategy.  Fields are resolved one by one, so when
one of them cannot be, the arrays made for those before it remain.
-/

namespace TaggedWire.Context

/-- Resolve the fields of a type in order, as far as that goes. -/
def ensureFields (c : Context) (type : String) : List Field → Context × Except Error Unit
  | [] => (c, .ok ())
  | f :: fs =>
    match c.ensure s!"{type}.{f.name}" f.declared with
    | .ok c => c.ensureFields type fs
    | .error e => (c, .error e)

/-- The strategy for an array type. -/
def selectArray (c : Context) (name : String) : Context × Except Error (Option Strategy) :=
  match TypeRef.parse name with
  | .error e => (c, .error e)
  | .ok type =>
    match type.signature? with
    | none => (c, .error (.noMarshaller name))
    | some s =>
      match c.ensure name s.type with
      | .ok c => (c, .ok (some (.array s)))
      | .error e => (c, .error e)

/-- The strategy for an exposed type, if there is one. -/
def select (c : Context) (providers : Providers) (t : ExposedType) :
    Context × Except Error (Option Strategy) :=
  match t.className with
  | some className =>
    if providers.contains className then (c, .ok (some (.explicit className t.name)))
    else (c, .error (.unknownClass className t.name))
  | none =>
    match t.shape with
    | .array => c.selectArray t.name
    | .enumeration variants => (c, .ok (some (.enumeration t.name variants)))
    | .object fields =>
      match c.ensureFields t.name fields with
      | (c, .ok ()) => (c, .ok (some (.reflective t.name fields)))
      | (c, .error e) => (c, .error e)
    | .unstructured => (c, .ok none)

end TaggedWire.Context
