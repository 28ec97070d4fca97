import TaggedWire.Value.Basic

/-!
# Equality of values

Values are equal when they have the same shape and equal parts, with two exceptions.  Floating
point numbers are compared as numbers, so the two zeros are equal and a non-number equals
nothing.  A field that is null counts as absent, so objects are compared by their other fields.

Sets and maps drop what is equal to an earlier element or key: `distinct` and `put`.
-/

namespace TaggedWire

/-- Equality of scalars of one type. -/
def Scalar.equal : Scalar → Scalar → Bool
  | .bool a, .bool b => a == b
  | .i8 a, .i8 b => a == b
  | .i16 a, .i16 b => a == b
  | .i32 a, .i32 b => a == b
  | .i64 a, .i64 b => a == b
  | .f32 a, .f32 b => a.equal b
  | .f64 a, .f64 b => a.equal b
  | .char a, .char b => a == b
  | _, _ => false

namespace Value

mutual

/-- Equality of values. -/
def equal : Value → Value → Bool
  | .null, .null => true
  | .scalar a, .scalar b => a.equal b
  | .string a, .string b => a == b
  | .list as, .list bs => equalItems as bs
  | .set as, .set bs => equalItems as bs
  | .map as, .map bs => equalEntries as bs
  | .array s as, .array t bs => s == t && equalItems as bs
  | .enumeration s a, .enumeration t b => s == t && a == b
  | .object s as, .object t bs => s == t && equalFields as bs
  | _, _ => false

/-- Equality of items, one by one. -/
def equalItems : List Value → List Value → Bool
  | [], [] => true
  | a :: as, b :: bs => equal a b && equalItems as bs
  | _, _ => false

/-- Equality of map entries, one by one. -/
def equalEntries : List (Value × Value) → List (Value × Value) → Bool
  | [], [] => true
  | (k, a) :: as, (l, b) :: bs => equal k l && equal a b && equalEntries as bs
  | _, _ => false

/-- Equality of the fields that are not null, one by one. -/
def equalFields : List (String × Value) → List (String × Value) → Bool
  | [], bs => bs.all fun (_, b) => b.isNull
  | (k, a) :: as, bs =>
    if a.isNull then equalFields as bs
    else
      match bs.dropWhile fun (_, b) => b.isNull with
      | [] => false
      | (l, b) :: bs => k == l && equal a b && equalFields as bs

end

/-- Add an element unless an equal one is there. -/
def add (items : List Value) (v : Value) : List Value :=
  if items.any (·.equal v) then items else items ++ [v]

/-- The elements that differ from every earlier one. -/
def distinct (items : List Value) : List Value := items.foldl add []

/-- The set of some elements. -/
def setOf (items : List Value) : Value := .set (distinct items)

/-- Give an equal key a new value, or add the entry at the end. -/
def put (key value : Value) : List (Value × Value) → List (Value × Value)
  | [] => [(key, value)]
  | (k, v) :: rest => if k.equal key then (k, value) :: rest else (k, v) :: put key value rest

end Value
end TaggedWire
