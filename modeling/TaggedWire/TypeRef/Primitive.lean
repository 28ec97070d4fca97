/-!
# Primitive types

The eight scalar types.  Each has one name; some have further spellings, which are read but never
written.

* `ofSpelling?_name`: a name is a spelling of its type.
* `name_injective`: distinct types have distinct names.
-/

namespace TaggedWire

/-- A scalar type. -/
inductive Primitive where
  | bool
  | i8
  | i16
  | i32
  | i64
  | f32
  | f64
  | char
  deriving DecidableEq, Repr

namespace Primitive

/-- All primitive types. -/
def all : List Primitive := [bool, i8, i16, i32, i64, f32, f64, char]

theorem mem_all (p : Primitive) : p ∈ all := by cases p <;> decide

/-- The identifier of a primitive type. -/
def name : Primitive → String
  | bool => "bool"
  | i8 => "i8"
  | i16 => "i16"
  | i32 => "i32"
  | i64 => "i64"
  | f32 => "f32"
  | f64 => "f64"
  | char => "char"

/-- The identifier of the type with null added. -/
def boxedName (p : Primitive) : String := p.name ++ "?"

/-- The type with the given spelling. -/
def ofSpelling? (s : String) : Option Primitive :=
  if s = "bool" ∨ s = "boolean" then some bool
  else if s = "i8" ∨ s = "byte" ∨ s = "int8" then some i8
  else if s = "i16" ∨ s = "short" ∨ s = "int16" then some i16
  else if s = "i32" ∨ s = "int" ∨ s = "int32" then some i32
  else if s = "i64" ∨ s = "long" ∨ s = "int64" then some i64
  else if s = "f32" ∨ s = "float" ∨ s = "float32" then some f32
  else if s = "f64" ∨ s = "double" ∨ s = "float64" then some f64
  else if s = "char" then some char
  else none

/-- A signed integer type. -/
def isInteger : Primitive → Bool
  | i8 | i16 | i32 | i64 => true
  | bool | f32 | f64 | char => false

/-- A floating point type. -/
def isFloat : Primitive → Bool
  | f32 | f64 => true
  | bool | i8 | i16 | i32 | i64 | char => false

theorem ofSpelling?_name (p : Primitive) : ofSpelling? p.name = some p := by cases p <;> decide

theorem name_injective {p q : Primitive} (h : p.name = q.name) : p = q :=
  Option.some.inj (by rw [← ofSpelling?_name p, h, ofSpelling?_name])

end Primitive
end TaggedWire
