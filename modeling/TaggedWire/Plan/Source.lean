import TaggedWire.Catalog.Document
import TaggedWire.Json.Layout
import TaggedWire.Plan.Basic

/-!
# The source text of a plan

A plan is stored as indented JSON with a final line break.  Reading it back is strict in the way of
catalog documents, and checks the plan.
-/

namespace TaggedWire

/-- An array shape with its parts. -/
def ArraySignature.document (s : ArraySignature) : Json :=
  .object [("component", .string s.component.id), ("dimensions", .ofInt s.dimensions)]

/-- An array shape, taken as it is written. -/
def ArraySignature.read? (j : Json) : Option ArraySignature :=
  match j with
  | .object members => do
    let component ← TypeRef.read? (← Json.required? members "component")
    let dimensions ← (← Json.required? members "dimensions").nat?
    return ⟨component, dimensions⟩
  | .array [component, dimensions] => do
    return ⟨← TypeRef.read? component, ← dimensions.nat?⟩
  | _ => none

namespace Strategy

/-- The names of the strategies, in order. -/
def names : List String := ["explicit", "array", "enum", "reflective"]

/-- The name of a strategy and its parts. -/
def members : Strategy → List (String × Json)
  | explicit className type =>
    [("strategy", .string "explicit"), ("class", .string className), ("type_name", .string type)]
  | array signature => [("strategy", .string "array"), ("signature", signature.document)]
  | enumeration type variants =>
    [("strategy", .string "enum"), ("type_name", .string type), ("variants", Json.ofTexts variants)]
  | reflective type fields =>
    [("strategy", .string "reflective"), ("type_name", .string type),
      ("fields", .array (fields.map Field.document))]

/-- The text of a required member. -/
def text? (members : List (String × Json)) (key : String) : Option String :=
  (Json.required? members key).bind Json.string?

/-- The strategy that members describe. -/
def read? (members : List (String × Json)) : Option Strategy := do
  let name ← readKind? names true (← Json.required? members "strategy")
  if name = "explicit" then
    return .explicit (← text? members "class") (← text? members "type_name")
  else if name = "array" then
    return .array (← ArraySignature.read? (← Json.required? members "signature"))
  else if name = "enum" then
    return .enumeration (← text? members "type_name")
      (← (← Json.required? members "variants").texts?)
  else
    return .reflective (← text? members "type_name")
      (← Field.readAll? (← Json.required? members "fields"))

end Strategy

namespace Planned

/-- A marshaller of a plan. -/
def document (m : Planned) : Json :=
  .object (("var", .string m.variableName) :: m.strategy.members)

/-- A marshaller of a plan. -/
def read? (j : Json) : Option Planned := do
  let members ← j.members?
  return ⟨← Strategy.text? members "var", ← Strategy.read? members⟩

end Planned

namespace Plan

/-- The keys of a plan, in order. -/
def documentKeys : List String := ["package", "class_name", "generator", "marshallers", "bindings"]

/-- A plan as a document. -/
def document (p : Plan) : Json :=
  .object [("package", .string p.package), ("class_name", .string p.className),
    ("generator", .string p.generator),
    ("marshallers", .array (p.marshallers.map Planned.document)),
    ("bindings", p.bindings.document)]

/-- The source text of a plan. -/
def source (p : Plan) : String := p.document.indented ++ "\n"

/-- A plan from its five parts. -/
def ofParts? (package className generator marshallers bindings : Json) : Option Plan := do
  return ⟨← package.string?, ← className.string?, ← generator.string?,
    ← (← marshallers.items?).mapM Planned.read?, ← Table.read? bindings⟩

/-- A plan from a document, all parts of which are required. -/
def read? (j : Json) : Option Plan :=
  match j with
  | .object members => do
    ofParts? (← Json.required? members "package") (← Json.required? members "class_name")
      (← Json.required? members "generator") (← Json.required? members "marshallers")
      (← Json.required? members "bindings")
  | .array [package, className, generator, marshallers, bindings] =>
    ofParts? package className generator marshallers bindings
  | _ => none

/-- What is said of a text that is no plan. -/
def unreadable : String := "not a factory plan"

/-- The plan of a source text. -/
def ofSource (text : String) : Except Error Plan :=
  match (Json.parseRecord? documentKeys text).bind read? with
  | none => .error (fault unreadable)
  | some p => do
    p.validate
    return p

end Plan
end TaggedWire
