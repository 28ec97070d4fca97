import TaggedWire.Error
import TaggedWire.Text.Blank
import TaggedWire.TypeRef.Basic

/-!
# Spellings of types

A type is written as a base with any number of `[]` after it.  Blanks may stand around the whole
and before each `[]`.  The base is a primitive, a primitive with `?`, one of the built-in types, or
a type name; `parse` reads it back to front, so that the brackets come first.

* `parse_flat`: every type that has a spelling is flat.
-/

namespace TaggedWire.TypeRef

/-- Take the `[]` off the end of a reversed text, with the blanks around them, and count them. -/
def splitBrackets : List Char → Nat × List Char
  | ']' :: '[' :: rest => ((splitBrackets rest).1 + 1, (splitBrackets rest).2)
  | c :: rest => if Text.isBlank c then splitBrackets rest else (0, c :: rest)
  | [] => (0, [])

/-- A type spelled without brackets, `?` or a synonym of a primitive. -/
def ofPlain? (s : String) : Option TypeRef :=
  if s = "string" ∨ s = "str" then some .string
  else if s = "list" then some .list
  else if s = "set" then some .set
  else if s = "map" then some .map
  else if s = "any" ∨ s = "object" then some .any
  else if isTypeName s then some (.named s)
  else none

/-- The text before a final `?`. -/
def boxedBase? (s : String) : Option String :=
  match s.toList.reverse with
  | '?' :: rest => some (String.ofList rest.reverse)
  | _ => none

/-- A type spelled without brackets. -/
def parseBase (s : String) : Except Error TypeRef :=
  match boxedBase? s with
  | some inner =>
    match Primitive.ofSpelling? inner with
    | some p => .ok (.boxed p)
    | none => .error (.parse "type" s!"only primitives can be boxed: '{s}'")
  | none =>
    match Primitive.ofSpelling? s with
    | some p => .ok (.primitive p)
    | none =>
      match ofPlain? s with
      | some t => .ok t
      | none => .error (.parse "type" s!"invalid type name '{s}'")

/-- A component under a number of brackets. -/
def underBrackets (dimensions : Nat) (component : TypeRef) : TypeRef :=
  if dimensions = 0 then component else component.arrayOf dimensions

/-- The type of a spelling. -/
def parse (s : String) : Except Error TypeRef :=
  let (dimensions, base) := splitBrackets (Text.trimStart s.toList).reverse
  (parseBase (String.ofList base.reverse)).map (underBrackets dimensions)

theorem signature?_of_ofPlain? {s : String} {t : TypeRef} (h : ofPlain? s = some t) :
    t.signature? = none := by
  unfold ofPlain? at h
  repeat' split at h
  all_goals cases h
  all_goals rfl

theorem signature?_of_parseBase {s : String} {t : TypeRef} (h : parseBase s = .ok t) :
    t.signature? = none := by
  unfold parseBase at h
  split at h
  · split at h <;> cases h
    rfl
  · split at h
    · cases h
      rfl
    · split at h
      · next hplain => exact Except.ok.inj h ▸ signature?_of_ofPlain? hplain
      · cases h

theorem flat_underBrackets {t : TypeRef} (h : t.signature? = none) (dimensions : Nat) :
    (underBrackets dimensions t).Flat := by
  have hflat : t.Flat := by cases t <;> simp_all [Flat, signature?]
  unfold underBrackets
  split
  · exact hflat
  · exact ArraySignature.of_flat hflat dimensions

theorem parse_flat {s : String} {t : TypeRef} (h : parse s = .ok t) : t.Flat := by
  unfold parse at h
  generalize splitBrackets _ = split at h
  cases hbase : parseBase (String.ofList split.2.reverse) with
  | error e => simp [hbase, Except.map] at h
  | ok component =>
    simp only [hbase, Except.map, Except.ok.injEq] at h
    exact h ▸ flat_underBrackets (signature?_of_parseBase hbase) split.1

end TaggedWire.TypeRef
