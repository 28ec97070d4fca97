import TaggedWire.Error
import TaggedWire.Json.Layout
import TaggedWire.Text.Quoted
import TaggedWire.Value.Basic
import TaggedWire.Wire.Basic

/-!
# Scalars on the wire

Integers are written in decimal and read back if they are in the range of their type.  Floating
point numbers are written with the fewest digits that read back, and only if they are finite; a
32-bit number is read as the nearest to the 64-bit number on the wire.  A character is a string of
one character.
-/

namespace TaggedWire.Scalar

-- powers are those of the core library, whatever is imported next to it
attribute [local instance (high)] instPowNat

/-- The text of a floating point number, which has to be finite. -/
def floatText {f : Binary.Format} (p : Primitive) (l : Layout) (x : Binary f) :
    Except Error String :=
  if x.isFinite then .ok (x.text l) else .error (.mismatch p.name "finite number" (x.text .message))

/-- The text of a scalar. -/
def text : Scalar → Except Error String
  | bool b => .ok (Json.boolText b)
  | i8 n => .ok (toString n.toInt)
  | i16 n => .ok (toString n.toInt)
  | i32 n => .ok (toString n.toInt)
  | i64 n => .ok (toString n.toInt)
  | f32 x => floatText .f32 .wire32 x
  | f64 x => floatText .f64 .wire64 x
  | char c => .ok (Json.quote c.toString)

/-- Write a value as a scalar of the given type. -/
def write (p : Primitive) (v : Value) : Except Error String :=
  match v with
  | .scalar s => if s.primitive = p then s.text else .error (.mismatch p.name p.name v.kind)
  | v => .error (.mismatch p.name p.name v.kind)

/-! ### Reading -/

/-- The integer of 64 signed bits in a document. -/
def readInt64 (p : Primitive) (j : Json) : Except Error Int :=
  match j.number?.bind Json.Number.int64? with
  | some n => .ok n
  | none => .error (.mismatch p.name "integer" j.kind)

/-- The integer in a document, which has to fit the given number of signed bits. -/
def readInt (p : Primitive) (bits : Nat) (j : Json) : Except Error Int := do
  let n ← readInt64 p j
  if -2 ^ (bits - 1) ≤ n ∧ n < 2 ^ (bits - 1) then .ok n
  else .error (.mismatch p.name "integer in range" (toString n))

/-- The floating point number in a document. -/
def readBinary64 (p : Primitive) (j : Json) : Except Error Binary64 :=
  match j.number? with
  | some n => .ok n.toBinary64
  | none => .error (.mismatch p.name "number" j.kind)

/-- The scalar of a type that a document holds. -/
def readScalar (p : Primitive) (j : Json) : Except Error Scalar :=
  match p with
  | .bool =>
    match j.bool? with
    | some b => .ok (bool b)
    | none => .error (.mismatch p.name "boolean" j.kind)
  | .i8 => return i8 (.ofInt (← readInt p 8 j))
  | .i16 => return i16 (.ofInt (← readInt p 16 j))
  | .i32 => return i32 (.ofInt (← readInt p 32 j))
  | .i64 => return i64 (.ofInt (← readInt64 p j))
  | .f32 => do
    let x ← readBinary64 p j
    let y : Binary32 := x.convert
    if y.isFinite then return f32 y
    else .error (.mismatch p.name "number in f32 range" (x.text .message))
  | .f64 => return f64 (← readBinary64 p j)
  | .char =>
    match j.string? with
    | none => .error (.mismatch p.name "one-character string" j.kind)
    | some s =>
      match s.toList with
      | [c] => .ok (char c)
      | _ => .error (.mismatch p.name "one-character string" (Text.visible s))

/-- Read a value as a scalar of the given type. -/
def read (p : Primitive) (j : Json) : Except Error Value := (readScalar p j).map .scalar

end TaggedWire.Scalar
