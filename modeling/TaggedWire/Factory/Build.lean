import TaggedWire.Factory.Basic
import TaggedWire.Generation.Generator

/-!
# Building a factory

A factory is built from a plan by making each of its marshallers and binding the identifiers.
-/

namespace TaggedWire

namespace Factory

/-- The marshallers of a plan, under their variables. -/
def instances (providers : Providers) (planned : List Planned) : Except Error (List Instance) :=
  planned.mapM fun m => return ⟨m.variableName, ← m.strategy.instantiate providers⟩

/-- Bind identifiers to instances, given the variable of each. -/
def bindInstances (made : List Instance) (bindings : List (String × String)) :
    Except Error (Table Instance) :=
  bindings.foldlM (fun t (id, v) =>
    match made.find? (·.variableName = v) with
    | some m => .ok (t.insert id m)
    | none => .error (Plan.fault s!"'{id}' bound to undeclared marshaller '{v}'")) Table.empty

/-- The factory of a plan. -/
def ofPlan (p : Plan) (providers : Providers) : Except Error Factory := do
  p.validate
  let made ← instances providers p.marshallers
  return ⟨p.package, p.className, ← bindInstances made p.bindings.entries⟩

/-- The array of no elements whose component is a collection type. -/
def emptyArray (component : TypeRef) : Value := .array (.of component 1) []

end Factory

/-- The factory for a target. -/
def Generator.factory (g : Generator) (package className : String) : Except Error Factory := do
  Factory.ofPlan (← g.plan package className) g.providers

end TaggedWire
