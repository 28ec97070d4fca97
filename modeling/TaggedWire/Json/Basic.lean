import TaggedWire.Json.Number

/-!
# JSON documents

A document keeps the members of an object in order, a repeated key included.  Who looks a key up
gets the last member with that key; who must refuse repetitions can see them.

* `induction`: what holds of an array or object whenever it holds of its elements holds of all
  documents.
* `parts_induction`: the same, with the items of pairs among the parts.
-/

namespace TaggedWire

/-- A JSON document. -/
inductive Json where
  | null
  | bool (value : Bool)
  | number (value : Json.Number)
  | string (value : String)
  | array (items : List Json)
  | object (members : List (String × Json))
  deriving Inhabited

namespace Json

/-- Structural induction through the items of arrays and the members of objects. -/
theorem induction {motive : Json → Prop} (null : motive .null) (bool : ∀ b, motive (.bool b))
    (number : ∀ n, motive (.number n)) (string : ∀ s, motive (.string s))
    (array : ∀ items, (∀ j ∈ items, motive j) → motive (.array items))
    (object : ∀ members, (∀ m ∈ members, motive m.2) → motive (.object members)) :
    ∀ j, motive j
  | .null => null
  | .bool b => bool b
  | .number n => number n
  | .string s => string s
  | .array items => array items fun j _ => induction null bool number string array object j
  | .object members =>
    object members fun m _ => induction null bool number string array object m.2
termination_by j => sizeOf j
decreasing_by
  · have := List.sizeOf_lt_of_mem ‹j ∈ items›
    simp only [Json.array.sizeOf_spec]
    omega
  · have := List.sizeOf_lt_of_mem ‹m ∈ members›
    have : sizeOf m = 1 + sizeOf m.1 + sizeOf m.2 := by cases m; rfl
    simp only [Json.object.sizeOf_spec]
    omega

/-- Induction through parts, of which the items of pairs are two steps down. -/
theorem parts_induction {motive : Json → Prop}
    (step : ∀ j, (∀ items, j = array items → ∀ i ∈ items, motive i) →
      (∀ items, j = array items → ∀ pair, array pair ∈ items → ∀ i ∈ pair, motive i) →
      (∀ members, j = object members → ∀ m ∈ members, motive m.2) → motive j)
    (j : Json) : motive j := by
  -- the claim is carried for the items of an array as well
  have hboth : motive j ∧ ∀ items, j = array items → ∀ i ∈ items, motive i := by
    induction j using induction with
    | null | bool _ | number _ | string _ => exact ⟨step _ nofun nofun nofun, nofun⟩
    | array items ih =>
      have hitems : ∀ items', array items = array items' → ∀ i ∈ items', motive i := by
        intro items' heq
        cases heq
        intro i hi
        exact (ih i hi).1
      refine ⟨step _ hitems ?_ nofun, hitems⟩
      intro items' heq pair hpair
      cases heq
      exact (ih _ hpair).2 pair rfl
    | object members ih =>
      refine ⟨step _ nofun nofun ?_, nofun⟩
      intro members' heq
      cases heq
      intro m hm
      exact (ih m hm).1
  exact hboth.1

/-! ### Members -/

/-- The last member with the given key. -/
def find? (key : String) (members : List (String × α)) : Option α :=
  (members.reverse.find? (·.1 == key)).map (·.2)

theorem find?_append (key : String) (xs ys : List (String × α)) :
    find? key (xs ++ ys) = (find? key ys).or (find? key xs) := by
  cases h : ys.reverse.find? (·.1 == key) <;> simp [find?, h]

/-- The value of an object under a key. -/
def get? : Json → String → Option Json
  | .object members, key => find? key members
  | _, _ => none

/-- The distinct keys of an object, in the order of their first members. -/
def keys (members : List (String × α)) : List String := (members.map (·.1)).eraseDups

/-! ### Kinds -/

/-- The name of the document's kind. -/
def kind : Json → String
  | .null => "null"
  | .bool _ => "boolean"
  | .number _ => "number"
  | .string _ => "string"
  | .array _ => "array"
  | .object _ => "object"

/-- The document is null. -/
def isNull : Json → Bool
  | .null => true
  | _ => false

/-- The text of a string. -/
def string? : Json → Option String
  | .string s => some s
  | _ => none

/-- The truth value of a boolean. -/
def bool? : Json → Option Bool
  | .bool b => some b
  | _ => none

/-- The number of a number. -/
def number? : Json → Option Number
  | .number n => some n
  | _ => none

/-- The items of an array. -/
def items? : Json → Option (List Json)
  | .array items => some items
  | _ => none

/-- The members of an object. -/
def members? : Json → Option (List (String × Json))
  | .object members => some members
  | _ => none

/-- An integer. -/
def ofInt (n : Int) : Json := .number (.integer n)

/-- An array of texts. -/
def ofTexts (texts : List String) : Json := .array (texts.map .string)

end Json
end TaggedWire
