import TaggedWire.Catalog.Validation
import TaggedWire.Generation.Strategy
import TaggedWire.Plan.Source

/-!
# Generating a plan

Types are taken by name: first those with a class, then enums, then all others.  Before that every
name and alias is registered, so types may refer to each other in any order.  A marshaller for
`any[]` is always there.
-/

namespace TaggedWire

/-- A catalog and the classes that it may name. -/
structure Generator where
  catalog : Catalog
  providers : Providers := Providers.builtin

namespace Context

/-- The variable of an exposed type's marshaller. -/
def typeVariable (name : String) : String := "m_" ++ escapeName name

/-- Bind identifiers to a variable. -/
def bindAll (c : Context) (variableName : String) (ids : List String) : Except Error Context := do
  let builder ← ids.foldlM (fun b id => b.bind id variableName) c.builder
  return { c with builder := builder }

/-- Add the marshaller that a strategy describes, bind the name of the type to it and tell its
variable.  The marshaller of an array is there already. -/
def addStrategy (c : Context) (name : String) (strategy : Strategy) :
    Except Error (Context × String) :=
  match strategy with
  | .array s =>
    match c.builder.binding? s.id with
    | some v => .ok (c, v)
    | none => .error (.noMarshaller name)
  | strategy => do
    let v := typeVariable name
    let builder ← (c.builder.add v strategy).bind name v
    return ({ c with builder := builder }, v)

/-- Add the marshaller of an exposed type and bind its name and aliases. -/
def addType (providers : Providers) (aliasesOf : String → List String) (c : Context)
    (t : ExposedType) : Except Error Context :=
  match c.select providers t with
  | (_, .error e) => .error e
  | (_, .ok none) => .error (.noMarshaller t.name)
  | (c, .ok (some strategy)) => do
    let (c, v) ← c.addStrategy t.name strategy
    c.bindAll v (aliasesOf t.name)

end Context

namespace Generator

/-- The fingerprint of all that generation depends on. -/
def fingerprint (g : Generator) (package className : String) : Fingerprint :=
  .compute g.catalog g.providers.keys package className

/-- Types in the order in which they are taken: those with a class, enums, all others. -/
def ordered (types : List ExposedType) : List ExposedType :=
  let derived := types.filter (·.className.isNone)
  types.filter (·.className.isSome) ++ derived.filter (·.shape.isEnumeration) ++
    derived.filter fun t => !t.shape.isEnumeration

/-- A context that counts on every name and alias of a catalog. -/
def registered (c : Catalog) : Context :=
  { known := c.types.map (·.name) ++ c.aliases.keys }

/-- The shape of the array that is always there. -/
def catchAll : ArraySignature := .of .any 1

/-- The plan for a target. -/
def plan (g : Generator) (package className : String) : Except Error Plan := do
  g.catalog.validate
  let catalog := g.catalog.canonical
  -- every name is known before the first type is taken
  let context ← (ordered catalog.types).foldlM (Context.addType g.providers catalog.aliasesOf)
    (registered catalog)
  let context ← context.ensure catchAll.id catchAll.type
  return context.builder.finish package className

/-- The source text of the plan for a target. -/
def source (g : Generator) (package className : String) : Except Error String :=
  (g.plan package className).map Plan.source

end Generator
end TaggedWire
