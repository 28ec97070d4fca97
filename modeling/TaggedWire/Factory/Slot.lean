import TaggedWire.Marshaller.Basic

/-!
# Slots

A value is written, and a document read, as its surroundings ask.  A `Slot` is what they ask.  Some
slots only the library asks for; those of a foreign class are of the first two kinds.
-/

namespace TaggedWire

/-- What the place of a value asks of it. -/
inductive Slot where
  /-- The value tells its own type. -/
  | tagged
  /-- The value has a declared type; the owner is named in errors. -/
  | declared (type : TypeRef) (owner : String)
  /-- The value is a row of an array: an array itself, of the given dimensions, or null. -/
  | row (component : TypeRef) (dimensions : Nat)
  /-- The value goes to a given marshaller. -/
  | through (marshaller : Marshaller)

namespace Slot

/-- What a foreign class asks for. -/
def ofAsk : Ask → Slot
  | .tagged => .tagged
  | .declared type owner => .declared type owner

/-- The slot of the elements of an array with the given dimensions left.

At least one dimension is left wherever the array comes from a parsed type.  Only a plan that was
written by hand can declare an array of none.  Taking one away from that stays at zero here, whereas
a machine word runs below zero, so nothing is meant by this case; runs that stay within their
dimensions do not come to it. -/
def element (component : TypeRef) (dimensions : Nat) (owner : String) : Slot :=
  if dimensions = 1 then .declared component owner else .row component (dimensions - 1)

end Slot
end TaggedWire
