import TaggedWire.Proofs.Value.Equality

/-!
# The parts of a value

* `Occurs`: a value occurs in another, at any depth.
* `Proper`: a set has no equal elements, a map no equal keys, and the fields of an object are in key
  order.
* `throughout_iff`: what holds throughout a value holds of it and throughout its parts.
-/

namespace TaggedWire.Value

/-- The value occurs in another one, as itself, an element, a key, the value of a key or a field, at
any depth. -/
inductive Occurs (u : Value) : Value → Prop
  | self : Occurs u u
  | list {items : List Value} {v : Value} (mem : v ∈ items) (h : Occurs u v) :
    Occurs u (.list items)
  | set {items : List Value} {v : Value} (mem : v ∈ items) (h : Occurs u v) : Occurs u (.set items)
  | key {entries : List (Value × Value)} {e : Value × Value} (mem : e ∈ entries)
    (h : Occurs u e.1) : Occurs u (.map entries)
  | entry {entries : List (Value × Value)} {e : Value × Value} (mem : e ∈ entries)
    (h : Occurs u e.2) : Occurs u (.map entries)
  | array {signature : ArraySignature} {items : List Value} {v : Value} (mem : v ∈ items)
    (h : Occurs u v) : Occurs u (.array signature items)
  | field {type : String} {fields : List (String × Value)} {f : String × Value}
    (mem : f ∈ fields) (h : Occurs u f.2) : Occurs u (.object type fields)

/-- No element of a set and no key of a map is repeated, and the fields of an object are kept in
key order. -/
def Proper : Value → Prop
  | .set items => Unequal items
  | .map entries => Unequal (entries.map (·.1))
  | .object _ fields => KeyOrdered fields
  | .null | .scalar _ | .string _ | .list _ | .array _ _ | .enumeration _ _ => True

/-- Everything that occurs in the value is so. -/
def Throughout (p : Value → Prop) (v : Value) : Prop := ∀ u, Occurs u v → p u

/-- Everything that occurs in a part of the value is so; of the value itself nothing is said. -/
def PartsThroughout (p : Value → Prop) : Value → Prop
  | .list items | .set items | .array _ items => ∀ v ∈ items, Throughout p v
  | .map entries => ∀ e ∈ entries, Throughout p e.1 ∧ Throughout p e.2
  | .object _ fields => ∀ e ∈ fields, Throughout p e.2
  | .null | .scalar _ | .string _ | .enumeration _ _ => True

/-- What holds throughout a value holds of it and throughout its parts. -/
theorem throughout_iff {p : Value → Prop} {v : Value} :
    Throughout p v ↔ p v ∧ PartsThroughout p v := by
  constructor
  · intro h
    refine ⟨h v .self, ?_⟩
    cases v with
    | null | scalar _ | string _ | enumeration _ _ => trivial
    | list _ =>
      intro _ hv u hu
      exact h u (.list hv hu)
    | set _ =>
      intro _ hv u hu
      exact h u (.set hv hu)
    | array _ _ =>
      intro _ hv u hu
      exact h u (.array hv hu)
    | map _ =>
      intro _ he
      exact ⟨fun u hu => h u (.key he hu), fun u hu => h u (.entry he hu)⟩
    | object _ _ =>
      intro _ he u hu
      exact h u (.field he hu)
  -- a part is the value itself, or lies within one of those directly below it
  · rintro ⟨hself, hparts⟩ u hu
    cases hu with
    | self => exact hself
    | list mem hu | set mem hu | array mem hu | field mem hu => exact hparts _ mem u hu
    | key mem hu => exact (hparts _ mem).1 u hu
    | entry mem hu => exact (hparts _ mem).2 u hu

theorem Throughout.parts {p : Value → Prop} {v : Value} (h : Throughout p v) :
    PartsThroughout p v := (throughout_iff.1 h).2

end TaggedWire.Value
