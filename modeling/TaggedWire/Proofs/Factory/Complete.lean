import TaggedWire.Proofs.Factory.Readings
import TaggedWire.Proofs.Factory.RoundTrip

/-!
# What was read is complete

A factory reads an object field by field: a missing member counts as null, and a member that is not
declared is passed over.  Of a set it keeps the distinct elements, of a map one entry for each key.
However documents may differ, the values that are read from them are all of one form.

* `settled_of_decode`: objects that were read have all the fields that are read for their type and
  no others, and sets and maps do not repeat themselves.
* `steady_of_factory`: the conditions on the factory follow from those on a document.
-/

namespace TaggedWire

namespace Factory

/-- The factory writes what it reads, and which fields an object has does not depend on the
marshaller that accepts its claim. -/
structure Steady (f : Factory) : Prop extends f.Mirrors where
  unambiguous : ∀ type declared type' declared' claimed,
    f.Offers (.through (.object type declared)) → f.Offers (.through (.object type' declared')) →
    f.acceptsClaim type claimed = true → f.acceptsClaim type' claimed = true →
      declared = declared'

/-- An object has exactly the fields that are read for its type. -/
def Complete (f : Factory) : Value → Prop
  | .object claimed fields => ∀ type declared, f.Offers (.through (.object type declared)) →
    f.acceptsClaim type claimed = true →
      ∀ name, name ∈ fields.map (·.1) ↔ ∃ field ∈ declared, field.writable = true ∧
        field.name = name
  | _ => True

/-- The value is of the form in which the factory reads it. -/
def Settled (f : Factory) (v : Value) : Prop := v.Throughout fun u => u.Proper ∧ f.Complete u

variable {f : Factory}

theorem complete_object (hf : f.Steady) {type claimed : String} {declared : List Field}
    {members : List (String × Json)} {ws : List Value} {fields : List (String × Value)}
    (hoffered : f.Offers (.through (.object type declared)))
    (haccepts : f.acceptsClaim type claimed = true)
    (hread : List.Forall₂ (fun field w => f.readField type members field = .ok w)
      (declared.filter (·.writable)) ws)
    (hfields : fields =
      (Table.ofList (((declared.filter (·.writable)).map (·.name)).zip ws)).entries) :
    f.Complete (.object claimed fields) := by
  -- the fields that are read have different names, so each keeps its value
  have hnodup : ((declared.filter (·.writable)).map (·.name)).Nodup :=
    (hf.nodup type declared hoffered).sublist (List.filter_sublist.map _)
  obtain ⟨rs, hrs, -, hmem⟩ := exists_fields hnodup hread
  rw [← hfields] at hmem
  -- another marshaller that accepts the claim declares the same fields
  intro type' declared' hoffered' haccepts' name
  rw [← hf.unambiguous _ _ _ _ _ hoffered hoffered' haccepts haccepts']
  constructor
  · intro h
    obtain ⟨e, he, rfl⟩ := List.mem_map.1 h
    obtain ⟨r, hr, rfl⟩ := (hmem e).1 he
    have hfield := List.mem_filter.1 (hrs ▸ List.mem_map_of_mem hr : r.1 ∈ declared.filter _)
    exact ⟨r.1, hfield.1, hfield.2, rfl⟩
  · rintro ⟨field, hfield, hwritable, rfl⟩
    obtain ⟨r, hr, rfl⟩ := List.mem_map.1 (hrs ▸ List.mem_filter.2 ⟨hfield, hwritable⟩)
    exact List.mem_map.2 ⟨_, (hmem _).2 ⟨r, hr, rfl⟩, rfl⟩

/-- Whatever a marshaller reads is proper and complete, and so is all that is in it. -/
theorem settled_of_decode (hf : f.Steady) (j : Json) :
    f.Imbues j fun u => u.Proper ∧ f.Complete u := by
  refine throughout_of_decode (fun m hm => (hf.usual.of_offers hm).isForeign) ?_
  refine ⟨⟨trivial, trivial⟩, fun _ => ⟨trivial, trivial⟩, fun _ => ⟨trivial, trivial⟩, ?_⟩
  intro i m v _ hoffered _ hreads
  cases hreads with
  | null | scalar _ | string _ | enumeration _ _ _ _ | list _ | array _ => exact ⟨trivial, trivial⟩
  | set _ => exact ⟨Value.unequal_distinct _, trivial⟩
  | map _ unequal => exact ⟨unequal, trivial⟩
  | object accepted _ read =>
    exact ⟨(Table.ofList _).ordered, complete_object hf hoffered accepted read rfl⟩

end Factory

/-! ### Factories of documents

An object marshaller can only be that of a type of the document, and the type is bound to it by its
name.  So the fields that a claim asks for are those of the type claimed. -/

/-- The fields of an object that are read are written as well. -/
def Shape.Mirrored : Shape → Prop
  | .object fields => ∀ f ∈ fields, f.writable = true → f.readable = true
  | .enumeration _ | .array | .unstructured => True

namespace Generator

variable {g : Generator} {d : Catalog} {package className : String} {f : Factory}

/-- An object marshaller is that of a declared type, to whose name it is bound. -/
theorem Over.exists_type (hover : g.Over d)
    (hclasses : ∀ t ∈ d.types, ∀ name, t.className = some name →
      Providers.builtin.contains name = true)
    (hgenerated : f.Generated g.catalog g.providers) {type : String} {declared : List Field}
    (h : f.Offers (.through (.object type declared))) :
    ∃ t ∈ g.catalog.types, t.name = type ∧ t.shape = .object declared ∧
      ∃ i, f.lookup type = some i ∧ i.marshaller = .object type declared := by
  obtain ⟨id, i, hi, hm⟩ | ⟨_, hshape⟩ := h
  · obtain ⟨m, haccounts, hmakes, -⟩ := hgenerated.ofLookup id i hi
    -- arrays have other marshallers, and no class of the library makes one for objects
    cases haccounts with
    | shape s asked spelled planned eq =>
      subst planned
      cases (Except.ok.inj hmakes.marshaller).trans hm
    | type t mem denotes planned =>
      have hstands := ExposedType.stands_of_makes planned hmakes
      rw [hm] at hstands
      cases hstands with
      | ofClass named created =>
        exact (hover.create_basic (hover.classes hclasses t mem _ named) created).elim
      | object plain shape =>
        obtain ⟨m', i', hplanned, hmakes', hi'⟩ := hgenerated.ofType t mem t.name (.inl rfl)
        rw [planned] at hplanned
        cases hplanned
        exact ⟨t, mem, rfl, shape, i', hi', (hmakes'.unique hmakes) ▸ hm⟩
  · cases hshape

/-- A claim that an object marshaller accepts is bound to a marshaller that handles its type. -/
theorem Over.handled (hover : g.Over d)
    (hclasses : ∀ t ∈ d.types, ∀ name, t.className = some name →
      Providers.builtin.contains name = true)
    (hgenerated : f.Generated g.catalog g.providers) {type claimed : String}
    {declared : List Field} (h : f.Offers (.through (.object type declared)))
    (haccepts : f.acceptsClaim type claimed = true) :
    ∃ i, f.lookup claimed = some i ∧ i.marshaller.handled = .named type := by
  rw [Factory.acceptsClaim, Bool.or_eq_true, decide_eq_true_eq] at haccepts
  rcases haccepts with rfl | hresolves
  · obtain ⟨-, -, -, -, i, hi, hm⟩ := hover.exists_type hclasses hgenerated h
    exact ⟨i, hi, hm ▸ rfl⟩
  · obtain ⟨i, hi, hhandled⟩ := (Option.any_eq_true _ _).1 hresolves
    exact ⟨i, hi, of_decide_eq_true hhandled⟩

theorem mirrors_of_factory (hstandard : g.Standard d)
    (hclasses : ∀ t ∈ d.types, ∀ name, t.className = some name →
      Providers.builtin.contains name = true)
    (hmirrored : ∀ t ∈ d.types, t.shape.Mirrored) (h : g.factory package className = .ok f) :
    f.Mirrors := by
  have hover := hstandard.over
  have hgenerated := generated_of_factory hstandard.spelled h
  constructor
  case usual => exact usual_of_factory hover hclasses h
  case identified => exact hgenerated.identified
  -- an object marshaller is offered for a type of the catalog, with the fields declared there
  case nodup =>
    intro type declared hoffered
    obtain ⟨t, ht, -, hshape, -⟩ := hover.exists_type hclasses hgenerated hoffered
    have hdistinct := (hgenerated.sound.types t ht).distinct
    rw [hshape] at hdistinct
    exact hdistinct.2
  case readable =>
    intro type declared hoffered
    obtain ⟨t, ht, -, hshape, -⟩ := hover.exists_type hclasses hgenerated hoffered
    have hfields := hover.forall_shape trivial hmirrored t ht
    rw [hshape] at hfields
    exact hfields

/-- The factory of a catalog is steady, if classes are built in and the fields that are read are
written. -/
theorem steady_of_factory (hstandard : g.Standard d)
    (hclasses : ∀ t ∈ d.types, ∀ name, t.className = some name →
      Providers.builtin.contains name = true)
    (hmirrored : ∀ t ∈ d.types, t.shape.Mirrored) (h : g.factory package className = .ok f) :
    f.Steady := by
  have hover := hstandard.over
  have hgenerated := generated_of_factory hstandard.spelled h
  refine ⟨mirrors_of_factory hstandard hclasses hmirrored h, ?_⟩
  intro type declared type' declared' claimed hoffered hoffered' haccepts haccepts'
  -- whatever is claimed is bound to a marshaller that handles both types
  obtain ⟨i, hi, hhandled⟩ := hover.handled hclasses hgenerated hoffered haccepts
  obtain ⟨i', hi', hhandled'⟩ := hover.handled hclasses hgenerated hoffered' haccepts'
  obtain ⟨t, ht, rfl, hshape, -⟩ := hover.exists_type hclasses hgenerated hoffered
  obtain ⟨t', ht', rfl, hshape', -⟩ := hover.exists_type hclasses hgenerated hoffered'
  rw [hi] at hi'
  cases hi'
  have hname : t.name = t'.name := TypeRef.named.inj (hhandled.symm.trans hhandled')
  rw [hgenerated.sound.eq_of_name ht ht' hname, hshape'] at hshape
  exact (Shape.object.inj hshape).symm

end Generator
end TaggedWire
