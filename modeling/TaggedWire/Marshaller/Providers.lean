import TaggedWire.Error
import TaggedWire.Marshaller.Basic
import TaggedWire.Table

/-!
# Providers of marshaller classes

A catalog names marshallers by class.  Which classes there are, and the marshaller that each stands
for, is a table of its own.

* `builtin`: the classes of the scalars, strings and collections.
* `create_eq_ok_iff`: a marshaller is created exactly for a class in the table.
-/

namespace TaggedWire

/-- The class of a primitive type's marshaller. -/
def Primitive.className : Primitive → String
  | bool => "BoolMarshaller"
  | i8 => "I8Marshaller"
  | i16 => "I16Marshaller"
  | i32 => "I32Marshaller"
  | i64 => "I64Marshaller"
  | f32 => "F32Marshaller"
  | f64 => "F64Marshaller"
  | char => "CharMarshaller"

/-- The marshaller that each available class stands for. -/
abbrev Providers := Table Marshaller

namespace Providers

def stringClass : String := "StringMarshaller"

def listClass : String := "ListMarshaller"

def setClass : String := "SetMarshaller"

def mapClass : String := "MapMarshaller"

/-- The classes that are always there. -/
def builtin : Providers :=
  Table.ofList (Primitive.all.map (fun p => (p.className, Marshaller.scalar p)) ++
    [(stringClass, .string), (listClass, .list), (setClass, .set), (mapClass, .map)])

/-- The marshaller of a class, on behalf of a type. -/
def create (t : Providers) (className type : String) : Except Error Marshaller :=
  match t.get? className with
  | some m => .ok m
  | none => .error (.unknownClass className type)

theorem create_eq_ok_iff (t : Providers) (className type : String) (m : Marshaller) :
    create t className type = .ok m ↔ t.get? className = some m := by
  unfold create
  split <;> simp_all

end Providers
end TaggedWire
