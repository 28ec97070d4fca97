import TaggedWire.Plan.Builder

/-!
# The context of a generation

While a plan is being built the context knows which identifiers will have a marshaller.  Array
marshallers are made when a field, an element or an exposed type needs them; one that is there is
taken again.
-/

namespace TaggedWire

/-- A plan under way. -/
structure Context where
  /-- Identifiers that have or will have a marshaller of their own. -/
  known : List String := []
  builder : Builder := {}
  deriving DecidableEq

namespace Context

/-- Count on a marshaller for an identifier. -/
def register (c : Context) (id : String) : Context := { c with known := id :: c.known }

/-- Whether an identifier has or will have a marshaller. -/
def isKnown (c : Context) (id : String) : Bool :=
  c.known.contains id || c.builder.bindings.contains id

/-- Whether there is a marshaller for an array shape. -/
def hasArray (c : Context) (s : ArraySignature) : Bool :=
  c.builder.bindings.contains s.id || c.builder.has s.variableName

/-- Add a marshaller for an array shape and bind the identifier of the shape to it. -/
def synthesize (c : Context) (s : ArraySignature) : Except Error Context := do
  let builder ← (c.builder.add s.variableName (.array s)).bind s.id s.variableName
  return { c with builder := builder }

/-- See to it that values of a type can be written and read, on behalf of an owner. -/
def ensure (c : Context) (owner : String) : TypeRef → Except Error Context
  | .any => .ok c
  | .array component dimensions =>
    if c.hasArray ⟨component, dimensions⟩ then .ok c
    else do
      -- the component first: without it there is nothing to make
      let c ← c.ensure owner component
      c.synthesize ⟨component, dimensions⟩
  | type => if c.isKnown type.id then .ok c else .error (.unknownNested owner type.id)

/-- See to it that there is a marshaller for an array shape, and tell its variable. -/
def addArray (c : Context) (owner : String) (s : ArraySignature) :
    Except Error (Context × String) := do
  let c ← c.ensure owner s.type
  return (c, (c.builder.binding? s.id).getD s.variableName)

end Context
end TaggedWire
