import TaggedWire.Error
import TaggedWire.Marshaller.Basic
import TaggedWire.Table
import TaggedWire.Value.Basic

/-!
# Factories

A factory binds identifiers to marshallers.  Several identifiers may share one instance, which its
variable identifies: a type and its aliases do.

* `require_eq_ok_iff`: what is required is found exactly when it is bound.
-/

namespace TaggedWire

/-- A marshaller under the variable that identifies it. -/
structure Instance where
  variableName : String
  marshaller : Marshaller

/-- Marshallers by identifier. -/
structure Factory where
  package : String
  className : String
  bindings : Table Instance

namespace Factory

/-- The instance that an identifier is bound to. -/
def lookup (f : Factory) (id : String) : Option Instance := f.bindings.get? id

/-- The instance that an identifier is bound to, on behalf of an owner. -/
def require (f : Factory) (id owner : String) : Except Error Instance :=
  match f.lookup id with
  | some m => .ok m
  | none => .error (.unknownNested owner id)

/-- Whether an identifier is bound to a marshaller that handles a type. -/
def resolvesTo (f : Factory) (id : String) (type : TypeRef) : Bool :=
  (f.lookup id).any fun m => m.marshaller.handled = type

/-- Whether two identifiers are bound to one instance; none if either is not bound. -/
def same? (f : Factory) (a b : String) : Option Bool := do
  let x ← f.lookup a
  let y ← f.lookup b
  return x.variableName = y.variableName

/-- A value may stand where a named type is declared only if its own type is bound to the same
instance; null may stand anywhere. -/
def checkAssignable (f : Factory) (declared : String) (v : Value) (owner : String) :
    Except Error Unit :=
  match v.typeId? with
  | none => .ok ()
  | some actual => do
    let expected ← f.require declared owner
    let found ← f.require actual owner
    if expected.variableName = found.variableName then .ok ()
    else .error (.mismatch s!"{owner}: {declared}" declared actual)

/-- A claimed type is accepted on behalf of a named one if it is that one, or is bound to a
marshaller that handles it. -/
def acceptsClaim (f : Factory) (type claimed : String) : Bool :=
  claimed = type || f.resolvesTo claimed (.named type)

theorem require_eq_ok_iff (f : Factory) (id owner : String) (m : Instance) :
    f.require id owner = .ok m ↔ f.lookup id = some m := by
  unfold require
  split <;> simp_all

end Factory
end TaggedWire
