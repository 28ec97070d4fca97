import TaggedWire.Catalog.Fingerprint
import TaggedWire.Plan.Basic

/-!
# Building a plan

A builder takes marshallers and bindings one by one.  It keeps the first marshaller of a variable
and the first binding of an identifier, and refuses later ones without a change.

A call is given twice.  `add` and `bind` answer the builder that comes next, which is what a proof
about the entries wants.  `addInPlace` and `bindInPlace` change the builder that the caller holds,
entry by entry, and tell whether they did; a refusal leaves whatever has been written by then.

* `add_of_has`: a marshaller under a variable that is there already changes nothing.
* `bind_eq_ok_iff`: an identifier can be bound exactly once.
* `addInPlace_eq`, `bindInPlace_eq`: in place the calls come to the same.
-/

namespace TaggedWire

/-- The marshallers and bindings of a plan so far. -/
structure Builder where
  marshallers : List Planned := []
  bindings : Table String := Table.empty
  deriving DecidableEq

namespace Builder

/-- Whether there is a marshaller under a variable. -/
def has (b : Builder) (variableName : String) : Bool :=
  b.marshallers.any (·.variableName = variableName)

/-- Add a marshaller, unless its variable is there already. -/
def add (b : Builder) (variableName : String) (strategy : Strategy) : Builder :=
  if b.has variableName then b
  else { b with marshallers := b.marshallers ++ [⟨variableName, strategy⟩] }

/-- The variable that an identifier is bound to. -/
def binding? (b : Builder) (id : String) : Option String := b.bindings.get? id

/-- Bind an identifier to a variable, unless it is bound. -/
def bind (b : Builder) (id variableName : String) : Except Error Builder :=
  if b.bindings.contains id then .error (.duplicateBinding id)
  else .ok { b with bindings := b.bindings.insert id variableName }

/-- The plan for a target. -/
def finish (b : Builder) (package className : String) : Plan :=
  ⟨package, className, generatorVersion, b.marshallers, b.bindings⟩

/-! ### In place -/

/-- Add a marshaller, and tell whether there was none under its variable. -/
def addInPlace (variableName : String) (strategy : Strategy) : EStateM Error Builder Bool := do
  if (← get).has variableName then return false
  modify fun b => { b with marshallers := b.marshallers ++ [⟨variableName, strategy⟩] }
  return true

/-- Bind an identifier to a variable. -/
def bindInPlace (id variableName : String) : EStateM Error Builder Unit := do
  if (← get).bindings.contains id then throw (.duplicateBinding id)
  modify fun b => { b with bindings := b.bindings.insert id variableName }

/-! ### What the calls do -/

theorem add_of_has {b : Builder} {variableName : String} (h : b.has variableName = true)
    (strategy : Strategy) : b.add variableName strategy = b := by
  simp [add, h]

theorem bind_eq_ok_iff (b b' : Builder) (id variableName : String) :
    b.bind id variableName = .ok b' ↔
      b.binding? id = none ∧ b' = { b with bindings := b.bindings.insert id variableName } := by
  unfold bind binding? Table.contains
  cases b.bindings.get? id <;> simp [eq_comm]

theorem addInPlace_eq (variableName : String) (strategy : Strategy) (b : Builder) :
    addInPlace variableName strategy b =
      .ok (!b.has variableName) (b.add variableName strategy) := by
  show (if b.has variableName then (return false : EStateM Error Builder Bool) else _) b = _
  unfold add
  cases b.has variableName <;> rfl

theorem bindInPlace_eq (id variableName : String) (b : Builder) :
    bindInPlace id variableName b =
      match b.bind id variableName with
      | .ok b' => .ok () b'
      | .error e => .error e b := by
  show (if b.bindings.contains id then _ else _ : EStateM Error Builder Unit) b = _
  unfold bind
  cases b.bindings.contains id <;> rfl

end Builder
end TaggedWire
