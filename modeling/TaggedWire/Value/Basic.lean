import TaggedWire.Binary.Basic
import TaggedWire.Table
import TaggedWire.TypeRef.Basic

/-!
# Values

What is encoded and decoded.  A value knows its own type, except null, which belongs to every type
that admits it.  The fields of an object are kept in key order.

* `induction`: structural induction through the parts of a value.
-/

namespace TaggedWire

/-- A value of a primitive type. -/
inductive Scalar where
  | bool (b : Bool)
  | i8 (n : Int8)
  | i16 (n : Int16)
  | i32 (n : Int32)
  | i64 (n : Int64)
  | f32 (x : Binary32)
  | f64 (x : Binary64)
  | char (c : Char)
  deriving DecidableEq, Repr

/-- The type of a scalar. -/
def Scalar.primitive : Scalar → Primitive
  | bool _ => .bool
  | i8 _ => .i8
  | i16 _ => .i16
  | i32 _ => .i32
  | i64 _ => .i64
  | f32 _ => .f32
  | f64 _ => .f64
  | char _ => .char

/-- A value. -/
inductive Value where
  | null
  | scalar (s : Scalar)
  | string (s : String)
  | list (items : List Value)
  /-- A collection without repetitions, in the order of insertion. -/
  | set (items : List Value)
  /-- Keys and values in the order of insertion. -/
  | map (entries : List (Value × Value))
  /-- The elements at the outermost dimension; those of further dimensions are arrays again. -/
  | array (signature : ArraySignature) (items : List Value)
  | enumeration (type variant : String)
  | object (type : String) (fields : List (String × Value))
  deriving Inhabited

namespace Value

/-- Structural induction through items, entries and fields. -/
theorem induction {motive : Value → Prop} (null : motive .null) (scalar : ∀ s, motive (.scalar s))
    (string : ∀ s, motive (.string s))
    (list : ∀ items, (∀ v ∈ items, motive v) → motive (.list items))
    (set : ∀ items, (∀ v ∈ items, motive v) → motive (.set items))
    (map : ∀ entries, (∀ e ∈ entries, motive e.1 ∧ motive e.2) → motive (.map entries))
    (array : ∀ signature items, (∀ v ∈ items, motive v) → motive (.array signature items))
    (enumeration : ∀ type variant, motive (.enumeration type variant))
    (object : ∀ type fields, (∀ f ∈ fields, motive f.2) → motive (.object type fields)) :
    ∀ v, motive v
  | .null => null
  | .scalar s => scalar s
  | .string s => string s
  | .list items =>
    list items fun v _ => induction null scalar string list set map array enumeration object v
  | .set items =>
    set items fun v _ => induction null scalar string list set map array enumeration object v
  | .map entries =>
    map entries fun e _ =>
      ⟨induction null scalar string list set map array enumeration object e.1,
        induction null scalar string list set map array enumeration object e.2⟩
  | .array signature items =>
    array signature items fun v _ =>
      induction null scalar string list set map array enumeration object v
  | .enumeration type variant => enumeration type variant
  | .object type fields =>
    object type fields fun f _ =>
      induction null scalar string list set map array enumeration object f.2
termination_by v => sizeOf v
decreasing_by
  · have := List.sizeOf_lt_of_mem ‹v ∈ items›
    simp only [Value.list.sizeOf_spec]
    omega
  · have := List.sizeOf_lt_of_mem ‹v ∈ items›
    simp only [Value.set.sizeOf_spec]
    omega
  · have := List.sizeOf_lt_of_mem ‹e ∈ entries›
    have : sizeOf e = 1 + sizeOf e.1 + sizeOf e.2 := by cases e; rfl
    simp only [Value.map.sizeOf_spec]
    omega
  · have := List.sizeOf_lt_of_mem ‹e ∈ entries›
    have : sizeOf e = 1 + sizeOf e.1 + sizeOf e.2 := by cases e; rfl
    simp only [Value.map.sizeOf_spec]
    omega
  · have := List.sizeOf_lt_of_mem ‹v ∈ items›
    simp only [Value.array.sizeOf_spec]
    omega
  · have := List.sizeOf_lt_of_mem ‹f ∈ fields›
    have : sizeOf f = 1 + sizeOf f.1 + sizeOf f.2 := by cases f; rfl
    simp only [Value.object.sizeOf_spec]
    omega

/-- The value is null. -/
def isNull : Value → Bool
  | null => true
  | _ => false

/-- The type of a scalar value. -/
def primitive? : Value → Option Primitive
  | scalar s => some s.primitive
  | _ => none

/-- The identifier of the value's own type; null has none. -/
def typeId? : Value → Option String
  | null => none
  | scalar s => some s.primitive.name
  | string _ => some "string"
  | list _ => some "list"
  | set _ => some "set"
  | map _ => some "map"
  | array signature _ => some signature.id
  | enumeration type _ => some type
  | object type _ => some type

/-- The name of the value's kind. -/
def kind : Value → String
  | null => "null"
  | scalar s => s.primitive.name
  | string _ => "string"
  | list _ => "list"
  | set _ => "set"
  | map _ => "map"
  | array _ _ => "array"
  | enumeration _ _ => "enum"
  | object _ _ => "object"

/-- The text of a string. -/
def string? : Value → Option String
  | string s => some s
  | _ => none

/-- The elements of a list or set. -/
def elements? : Value → Option (List Value)
  | list items | set items => some items
  | _ => none

/-- The outermost elements of an array. -/
def arrayItems? : Value → Option (List Value)
  | array _ items => some items
  | _ => none

/-- The type of an object. -/
def objectType? : Value → Option String
  | object type _ => some type
  | _ => none

theorem typeId?_eq_none_iff {v : Value} : v.typeId? = none ↔ v = null := by
  cases v <;> simp [typeId?]

theorem isNull_eq_isNone (v : Value) : v.isNull = v.typeId?.isNone := by
  cases v <;> rfl

end Value
end TaggedWire
