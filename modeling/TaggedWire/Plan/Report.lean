import TaggedWire.Plan.Source

/-!
# Reports on a plan

What identifiers are bound to, as a table for the eye or as a document.  Both may be narrowed to the
identifiers that contain a text.
-/

namespace TaggedWire

/-- What is said of a strategy in a report. -/
def Strategy.description : Strategy → String
  | explicit className _ => s!"explicit {className}"
  | array signature => s!"array {signature.id}"
  | enumeration _ variants => s!"enum ({variants.length} constants)"
  | reflective _ fields => s!"reflective ({fields.length} fields)"

/-- Whether a text stands somewhere in another. -/
def occursIn (part : List Char) : List Char → Bool
  | [] => part.isEmpty
  | c :: cs => part.isPrefixOf (c :: cs) || occursIn part cs

/-- A text with spaces behind it, up to a width. -/
def padded (width : Nat) (s : String) : String :=
  s ++ String.ofList (List.replicate (width - s.length) ' ')

namespace Plan

/-- Whether an identifier belongs into a report. -/
def isWanted (filter : Option String) (id : String) : Bool :=
  match filter with
  | none => true
  | some part => occursIn part.toList id.toList

/-- The bindings that a report is about. -/
def selected (p : Plan) (filter : Option String) : Table String :=
  ⟨p.bindings.entries.filter fun (id, _) => isWanted filter id, p.bindings.ordered.filter _⟩

/-- The line of a binding. -/
def bindingLine (p : Plan) (id v : String) : String :=
  let description := ((p.marshaller? v).map (·.strategy.description)).getD ""
  s!"  {padded 30 id} {padded 24 v} {description}\n"

/-- The bindings of a plan as a table. -/
def bindingsReport (p : Plan) (filter : Option String) : String :=
  let lines := (p.selected filter).entries.map fun (id, v) => p.bindingLine id v
  let heading := s!"=== {p.qualifiedName} ===\n"
  let summary :=
    s!"\n{lines.length} of {p.bindings.size} bindings, {p.marshallers.length} marshallers\n"
  heading ++ String.join lines ++ summary

/-- The bindings of a plan as a document. -/
def bindingsDocument (p : Plan) (filter : Option String) : Json := (p.selected filter).document

end Plan
end TaggedWire
