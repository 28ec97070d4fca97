import TaggedWire.Proofs.Factory.RoundTrip
import TaggedWire.Proofs.Value.Equivalence

/-!
# Wire text is read back

The factory of a document over the built-in types reads what it writes, if the document names no
class of its own and no field is hidden from reading or writing.

* `regular_of_factory`: such a factory is regular.
* `marshal_restored`: what it writes as a type it reads as that type, as an equal value.
-/

namespace TaggedWire

/-! ### Factories that read what they write

Equality of values is one likeness for which values are recovered.  An object is recovered although
null fields come and go: what is found under a name stays the same. -/

/-- The marshaller reads all that it writes.  An object is written and read field by field, so all
its fields have to be written and read, each under a key of its own. -/
def Marshaller.Reversible : Marshaller → Prop
  | .object _ fields =>
    (∀ f ∈ fields, f.readable = true ∧ f.writable = true ∧ IsFieldName f.name) ∧
      (fields.map (·.name)).Nodup
  | .foreign _ => False
  | .scalar _ | .string | .list | .set | .map | .enumeration _ _ | .array _ => True

/-- A floating point number is read back; nothing is asked of other values. -/
def Value.FloatReadsBack : Value → Prop
  | .scalar x => x.FloatReadsBack
  | _ => True

theorem Value.likeness_equal : Value.Likeness fun v w => v.equal w = true where
  typeId? := typeId?_of_equal
  unequal := Unequal.of_equal
  null := equal_iff.2 .null
  bool b := equal_iff.2 (.scalar (beq_self_eq_true b))
  string s := equal_iff.2 (.string s)
  list h := equal_iff.2 (.list h)
  set h := equal_iff.2 (.set h)
  map h := equal_iff.2 (.map h)
  array s _ _ h := equal_iff.2 (.array s h)
  enumeration type variant := equal_iff.2 (.enumeration type variant)

namespace Factory

/-- Every marshaller of the factory reads what it writes, and a variable identifies its instance. -/
structure Regular (f : Factory) : Prop where
  reversible : ∀ id i, f.lookup id = some i → i.marshaller.Reversible
  identified : ∀ a b i j, f.lookup a = some i → f.lookup b = some j →
    i.variableName = j.variableName → i = j

variable {f : Factory}

theorem Regular.reversible_of_offers (hf : f.Regular) {m : Marshaller}
    (h : f.Offers (.through m)) : m.Reversible := by
  rcases h with ⟨id, i, hi, rfl⟩ | ⟨shape, rfl⟩
  · exact hf.reversible id i hi
  · trivial

theorem Regular.mirrors (hf : f.Regular) : f.Mirrors := by
  constructor
  case usual =>
    intro id i hi
    have hreversible := hf.reversible id i hi
    generalize i.marshaller = m at hreversible ⊢
    cases m with
    | object _ _ => exact fun field hfield => (hreversible.1 field hfield).2.2
    | foreign _ => exact hreversible.elim
    | _ => trivial
  case identified => exact hf.identified
  case nodup =>
    intro type declared hoffered
    exact (hf.reversible_of_offers hoffered).2
  case readable =>
    intro type declared hoffered field hfield _
    exact ((hf.reversible_of_offers hoffered).1 field hfield).1

/-- What is read for the fields makes an object equal to the one that was written. -/
theorem equal_ofList {type : String} {fields : List (String × Value)} {rs : List FieldRead}
    (hproper : KeyOrdered fields) (hnodup : (rs.map (·.field.name)).Nodup)
    (hknown : ∀ e ∈ fields, ∃ r ∈ rs, r.field.name = e.1)
    (hrs : ∀ r ∈ rs, r.value.equal (fieldValue fields r.field.name) = true) :
    (Value.object type (Table.ofList (rs.map fun r => (r.field.name, r.value))).entries).equal
      (.object type fields) = true := by
  -- what the table has under a name is what was read for the field of this name
  have hread : ∀ name v, (Table.ofList (rs.map fun r => (r.field.name, r.value))).get? name =
      some v ↔ ∃ r ∈ rs, r.field.name = name ∧ r.value = v := by
    intro name v
    rw [Table.get?_ofList (by rwa [List.map_map])]
    simp
  let given : Table Value := ⟨fields, hproper⟩
  change (Value.object type _).equal (.object type given.entries) = true
  refine Value.equal_object_iff.2 ⟨rfl, fun name => ?_⟩
  by_cases hname : ∃ r ∈ rs, r.field.name = name
  · obtain ⟨r, hr, rfl⟩ := hname
    rw [Value.found, (hread _ _).2 ⟨r, hr, rfl, rfl⟩, Option.getD_some]
    exact hrs r hr
  · -- a name that is not declared is neither read nor given
    have hleft : Table.get? _ name = none := Option.eq_none_iff_forall_ne_some.2 fun v hv => by
      obtain ⟨r, hr, hfield, -⟩ := (hread name v).1 hv
      exact hname ⟨r, hr, hfield⟩
    have hright : given.get? name = none := Option.eq_none_iff_forall_ne_some.2 fun v hv =>
      hname (hknown _ ((Table.mem_entries_iff _ _ _).2 hv))
    rw [Value.found, Value.found, hleft, hright, Option.getD_none, Value.equal]

/-- A regular factory recovers proper values up to equality. -/
theorem Regular.recovery (hf : f.Regular) :
    f.Recovery (fun v w => v.equal w = true) fun u => u.Proper ∧ u.FloatReadsBack := by
  refine ⟨Value.likeness_equal, hf.mirrors, And.left, ?_, ?_⟩
  · intro x t hx ht
    obtain ⟨j, y, hwritten, hread, hequal⟩ := Scalar.exists_read_of_text hx.2 ht
    exact ⟨j, y, hwritten, hread, Value.equal_iff.2 (.scalar hequal)⟩
  -- fields are compared name by name, and those that were given are all declared
  · intro type claimed declared fields rs hobject hoffered _ hknown hdeclared hrs
    obtain ⟨hall, hnodup⟩ := hf.reversible_of_offers hoffered
    -- all fields are writable, so all that are given are read
    have hwritable : declared.filter (·.writable) = declared :=
      List.filter_eq_self.2 fun field hfield => (hall field hfield).2.1
    rw [hwritable] at hdeclared
    subst hdeclared
    rw [List.map_map] at hnodup
    refine equal_ofList hobject.1 hnodup ?_ hrs
    intro e he
    obtain ⟨_, hfield, hname⟩ := hknown e he
    obtain ⟨r, hr, rfl⟩ := List.mem_map.1 hfield
    exact ⟨r, hr, hname⟩

end Factory

/-! ### Factories of documents

A marshaller over the built-in types is one of the library, or that of an array, an enum or an
object of the document, so the conditions on it are conditions on the document. -/

open Factory

theorem Marshaller.Basic.reversible {m : Marshaller} (h : m.Basic) : m.Reversible := by
  cases m with
  | scalar _ | string | list | set | map => trivial
  | enumeration _ _ | object _ _ | array _ | foreign _ => exact h.elim

namespace Generator

variable {g : Generator} {d : Catalog} {package className : String} {f : Factory}

/-- The factory of a catalog is regular, if classes are built in and all fields are read and
written. -/
theorem regular_of_factory (hstandard : g.Standard d)
    (hclasses : ∀ t ∈ d.types, ∀ name, t.className = some name →
      Providers.builtin.contains name = true)
    (hwhole : ∀ t ∈ d.types, t.shape.Whole) (h : g.factory package className = .ok f) :
    f.Regular := by
  refine ⟨fun id i hi => ?_, (generated_of_factory hstandard.spelled h).identified⟩
  have hexposes := hstandard.over.exposes hclasses h hi
  generalize i.marshaller = m at hexposes ⊢
  cases hexposes with
  | basic hbasic => exact hbasic.reversible
  | @object t fields mem shape =>
    have hshape := hstandard.over.forall_shape trivial hwhole t mem
    have hdistinct := ((sound_of_factory h).types t mem).distinct
    rw [shape] at hshape hdistinct
    refine ⟨fun field hfield => ?_, hdistinct.2⟩
    obtain ⟨hreadable, hwritable⟩ := hshape field hfield
    exact ⟨hreadable, hwritable, hdistinct.1 _ (List.mem_map_of_mem hfield)⟩
  | array _ | enumeration _ _ => trivial

/-- What a regular factory writes, within the limit on nesting, it reads as an equal value. -/
theorem restored_of_written (hf : f.Regular) {v : Value}
    (hv : v.Throughout fun u => u.Proper ∧ u.FloatReadsBack) (slot : Slot)
    (hslot : f.Offers slot) {s : String} (hs : f.encode v slot = .ok s)
    (hnesting : Json.nesting s ≤ Json.nestingLimit) :
    ∃ w, (Wire.parse s >>= fun j => f.decode j slot) = .ok w ∧ w.equal v = true :=
  hf.recovery.parsed hv slot hslot hs hnesting

/-- What the factory of a document writes as a type it reads as that type, as an equal value.  As
any type it writes and reads a value as the value tells itself. -/
theorem marshal_restored (hstandard : g.Standard d)
    (hclasses : ∀ t ∈ d.types, ∀ name, t.className = some name →
      Providers.builtin.contains name = true)
    (hwhole : ∀ t ∈ d.types, t.shape.Whole) (h : g.factory package className = .ok f)
    {type : TypeRef} {v : Value} (hv : v.Throughout fun u => u.Proper ∧ u.FloatReadsBack)
    {s : String} (hs : f.marshalAs type v = .ok s)
    (hnesting : Json.nesting s ≤ Json.nestingLimit) :
    ∃ w, f.unmarshalAs type s = .ok w ∧ w.equal v = true ∧
      (type = .any → f.marshal v = .ok s ∧ f.unmarshal s = .ok w) := by
  have hf := regular_of_factory hstandard hclasses hwhole h
  obtain ⟨w, hw, hequal⟩ := restored_of_written hf hv (.declared type _) trivial hs hnesting
  refine ⟨w, hw, hequal, ?_⟩
  rintro rfl
  simp only [decode_any] at hw
  exact ⟨(f.encode_any v _).symm.trans hs, hw⟩

/-- A knot without ends. -/
def loose : Value := .object "Knot" [("ends", .null)]

/-- A knot under its alias, with a row of knots and a missing row in its field. -/
def knot : Value :=
  .object "Loop" [("ends", .array ⟨.named "Knot", 2⟩
    [.array ⟨.named "Knot", 1⟩ [.null, loose], .null])]

theorem knot_throughout : knot.Throughout fun u => u.Proper ∧ u.FloatReadsBack := by
  have hintro : ∀ v : Value, v.Proper → v.FloatReadsBack →
      v.PartsThroughout (fun u => u.Proper ∧ u.FloatReadsBack) →
      v.Throughout fun u => u.Proper ∧ u.FloatReadsBack :=
    fun v hproper hfloat hparts => Value.throughout_iff.2 ⟨⟨hproper, hfloat⟩, hparts⟩
  have hnull := hintro .null trivial trivial trivial
  have hloose := hintro loose (List.pairwise_singleton _ _) trivial
    (List.forall_mem_singleton.2 hnull)
  have hrow := hintro (.array ⟨.named "Knot", 1⟩ [.null, loose]) trivial trivial
    (List.forall_mem_cons.2 ⟨hnull, List.forall_mem_singleton.2 hloose⟩)
  have hrows := hintro (.array ⟨.named "Knot", 2⟩ [_, .null]) trivial trivial
    (List.forall_mem_cons.2 ⟨hrow, List.forall_mem_singleton.2 hnull⟩)
  exact hintro knot (List.pairwise_singleton _ _) trivial (List.forall_mem_singleton.2 hrows)

theorem written_knot : ((factoryOver knots).toOption.bind fun f =>
    (f.marshalAs (.named "Knot") knot).toOption).any
      (fun s => decide (Json.nesting s ≤ Json.nestingLimit)) = true := by decide +kernel

/-- A knot under its alias is read back, with the knots and nulls in its field. -/
theorem marshal_restored_knot : ∃ c f s w,
    (⟨c, Providers.builtin⟩ : Generator).factory "demo" "Factory" = .ok f ∧
    f.marshalAs (.named "Knot") knot = .ok s ∧ f.unmarshalAs (.named "Knot") s = .ok w ∧
      w.equal knot = true := by
  obtain ⟨s, hs, hnesting⟩ := (Option.any_eq_true _ _).1 written_knot
  obtain ⟨f, hf, hs⟩ := Option.bind_eq_some_iff.1 hs
  obtain ⟨c, hstandard, hf⟩ :=
    standard_of_factoryOver parse_knotDocument (toOption_eq_some_iff.1 hf)
  have hs := toOption_eq_some_iff.1 hs
  obtain ⟨w, hw, hequal, -⟩ := marshal_restored hstandard (by simp [knots])
    (by simp [knots, Shape.Whole]) hf knot_throughout hs (of_decide_eq_true hnesting)
  exact ⟨c, f, s, w, hf, hs, hw, hequal⟩

end Generator
end TaggedWire
