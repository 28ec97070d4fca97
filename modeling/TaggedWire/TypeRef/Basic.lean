import TaggedWire.TypeRef.Name
import TaggedWire.TypeRef.Primitive

/-!
# Types

A `TypeRef` refers to a type from a field, an array or a caller.  Its `id` is the text under which
the type is known on the wire and in a factory.

An array type is a component and a number of dimensions.  `ArraySignature.of` keeps arrays of arrays
flat, and the types that have a spelling are all flat (`TypeRef.Flat`); a signature taken from
a stored plan need not be.

* `of_flat`: what `of` makes of a flat component is flat.
* `id_array`: the identifier of an array is that of its component and a pair of brackets for each
  dimension.
-/

namespace TaggedWire

/-- A reference to a type. -/
inductive TypeRef where
  /-- A scalar, never null. -/
  | primitive (p : Primitive)
  /-- A scalar or null. -/
  | boxed (p : Primitive)
  | string
  | list
  | set
  | map
  /-- Whatever a value says of itself. -/
  | any
  /-- An object or enum type, or an alias. -/
  | named (name : String)
  | array (component : TypeRef) (dimensions : Nat)
  deriving DecidableEq, Repr

/-- The shape of an array. -/
structure ArraySignature where
  /-- The type of the innermost elements. -/
  component : TypeRef
  dimensions : Nat
  deriving DecidableEq, Repr

/-- `count` pairs of brackets. -/
def brackets (count : Nat) : String :=
  String.ofList (List.replicate count ['[', ']']).flatten

namespace TypeRef

/-- The identifier of a type. -/
def id : TypeRef → String
  | primitive p => p.name
  | boxed p => p.boxedName
  | string => "string"
  | list => "list"
  | set => "set"
  | map => "map"
  | any => "any"
  | named name => name
  | array component dimensions => component.id ++ brackets dimensions

/-- Null is a value of every type but the unboxed scalars. -/
def isNullable : TypeRef → Bool
  | primitive _ => false
  | _ => true

/-- Values of the type carry a type of their own on the wire. -/
def isDynamic : TypeRef → Bool
  | any | named _ => true
  | _ => false

/-- The shape of an array type. -/
def signature? : TypeRef → Option ArraySignature
  | array component dimensions => some ⟨component, dimensions⟩
  | _ => none

/-- An array has a dimension and no array for its component. -/
def Flat : TypeRef → Prop
  | array component dimensions => 1 ≤ dimensions ∧ component.signature? = none
  | _ => True

instance (t : TypeRef) : Decidable t.Flat := by
  cases t <;> unfold Flat <;> infer_instance

theorem id_array (component : TypeRef) (dimensions : Nat) :
    (array component dimensions).id = component.id ++ brackets dimensions := rfl

end TypeRef

namespace ArraySignature

/-- The shape of an array of the given dimensions, at least one, over a component; the dimensions of
an array component are added. -/
def of (component : TypeRef) (dimensions : Nat) : ArraySignature :=
  match component with
  | .array inner more => ⟨inner, more + max dimensions 1⟩
  | component => ⟨component, max dimensions 1⟩

/-- The type of the arrays of this shape. -/
def type (s : ArraySignature) : TypeRef := .array s.component s.dimensions

/-- The identifier of the arrays of this shape. -/
def id (s : ArraySignature) : String := s.type.id

/-- The variable of the marshaller for this shape. -/
def variableName (s : ArraySignature) : String :=
  "arr_" ++ escapeName s.component.id ++ "_d" ++ toString s.dimensions

/-- The shape of the elements, if these are arrays too. -/
def inner? (s : ArraySignature) : Option ArraySignature :=
  if 1 < s.dimensions then some ⟨s.component, s.dimensions - 1⟩ else none

/-- The type of the elements. -/
def element (s : ArraySignature) : TypeRef :=
  match s.inner? with
  | some inner => inner.type
  | none => s.component

theorem of_flat {component : TypeRef} (h : component.Flat) (dimensions : Nat) :
    (of component dimensions).type.Flat := by
  cases component with
  | array inner more => exact ⟨by simp only [of]; omega, h.2⟩
  | _ => exact ⟨by simp only [of]; omega, rfl⟩

end ArraySignature

/-- An array type over this one. -/
def TypeRef.arrayOf (t : TypeRef) (dimensions : Nat) : TypeRef :=
  (ArraySignature.of t dimensions).type

end TaggedWire
