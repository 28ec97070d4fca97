import TaggedWire.Proofs.Factory.Generated

/-!
# Coherent factories

In the factory of a document that names no classes, a marshaller is bound to the identifier of its
own type, and the types that it declares for the parts of a value are bound as they should be: only
`any` and named types lead to objects and enums.

* `coherent_of_factory`: the factory of such a document is coherent.
-/

namespace TaggedWire

/-- The identifier of the type whose values the marshaller writes. -/
def Marshaller.ownId : Marshaller → String
  | .scalar p => p.name
  | .string => "string"
  | .list => "list"
  | .set => "set"
  | .map => "map"
  | .enumeration type _ | .object type _ => type
  | .array s => s.id
  | .foreign m => m.handled.id

/-- The values of the marshaller claim their types by name. -/
def Marshaller.isNominal : Marshaller → Bool
  | .enumeration _ _ | .object _ _ => true
  | .scalar _ | .string | .list | .set | .map | .array _ | .foreign _ => false

theorem Marshaller.Basic.isNominal {m : Marshaller} (h : m.Basic) : m.isNominal = false := by
  cases m with
  | scalar _ | string | list | set | map => rfl
  | enumeration _ _ | object _ _ | array _ | foreign _ => exact h.elim

namespace Factory

/-- The type may be declared for a part: it is found, and leads to objects and enums only if values
of the type tell their own. -/
structure Admits (f : Factory) (type : TypeRef) : Prop where
  found : f.Finds type
  structural : type.isDynamic = false → ∀ i, f.lookup type.id = some i →
    i.marshaller.isNominal = false

/-- The marshaller writes and reads all parts of its values, and declares types for them that the
factory admits. -/
def Fitted (f : Factory) : Marshaller → Prop
  | .object _ fields => (fields.map (·.name)).Nodup ∧
    ∀ field ∈ fields, field.readable = true ∧ field.writable = true ∧ f.Admits field.declared
  | .array s => s.type.Flat ∧ f.Admits s.component
  | .foreign _ => False
  | .scalar _ | .string | .list | .set | .map | .enumeration _ _ => True

theorem Fitted.isForeign {f : Factory} {m : Marshaller} (h : f.Fitted m) : m.isForeign = false := by
  cases m with
  | foreign _ => exact h.elim
  | _ => rfl

/-- Each marshaller is bound to the identifier of its own type and fits into the factory. -/
structure Coherent (f : Factory) : Prop where
  own : ∀ id i, f.lookup id = some i → f.lookup i.marshaller.ownId = some i
  fitted : ∀ id i, f.lookup id = some i → f.Fitted i.marshaller
  basic : ∀ m : Marshaller, m.Basic → ∃ i, f.lookup m.ownId = some i ∧ i.marshaller = m

end Factory

/-! ### Built-in types

Types that are not named stand for built-in types, if they are no arrays, and each marshaller of the
library is that of a built-in type. -/

namespace Catalog

/-- The types that are neither dynamic nor arrays are built in, under their names or aliases. -/
theorem builtin_denotes {type : TypeRef} (hstatic : type.isDynamic = false)
    (hplain : type.signature? = none) :
    ∃ t ∈ builtin.types, builtin.Denotes type.id t := by
  have hname : ∀ id : String, id ∈ builtin.types.map (·.name) →
      ∃ t ∈ builtin.types, builtin.Denotes id t := by
    intro id hid
    obtain ⟨t, ht, rfl⟩ := List.mem_map.1 hid
    exact ⟨t, ht, .inl rfl⟩
  cases type with
  | any | named _ => cases hstatic
  | array _ _ => cases hplain
  | primitive p => exact hname _ (by cases p <;> decide)
  | string | list | set | map => exact hname _ (by decide)
  -- a nullable scalar is an alias
  | boxed p =>
    obtain ⟨t, ht, hid⟩ := List.mem_map.1 (show p.name ∈ builtin.types.map (·.name) by
      cases p <;> decide)
    refine ⟨t, ht, .inr ?_⟩
    rw [hid]
    cases p <;> decide

end Catalog

/-- A basic marshaller is that of a built-in type. -/
theorem Marshaller.Basic.exists_type {m : Marshaller} (h : m.Basic) :
    ∃ t ∈ Catalog.builtin.types, t.name = m.ownId ∧
      ∃ className, t.className = some className ∧ Providers.builtin.get? className = some m := by
  cases m with
  | scalar p =>
    refine ⟨⟨p.name, .unstructured, some p.className⟩, ?_, rfl, _, rfl, ?_⟩
    · cases p <;> decide
    · cases p <;> rfl
  | string =>
    exact ⟨⟨"string", .unstructured, some Providers.stringClass⟩, by decide, rfl, _, rfl, rfl⟩
  | list =>
    exact ⟨⟨"list", .unstructured, some Providers.listClass⟩, by decide, rfl, _, rfl, rfl⟩
  | set =>
    exact ⟨⟨"set", .unstructured, some Providers.setClass⟩, by decide, rfl, _, rfl, rfl⟩
  | map =>
    exact ⟨⟨"map", .unstructured, some Providers.mapClass⟩, by decide, rfl, _, rfl, rfl⟩
  | enumeration _ _ | object _ _ | array _ | foreign _ => exact h.elim

/-! ### Factories of documents

Without classes in the document, all marshallers are known: those of the built-in types, those of
the document's objects and enums, and those of arrays. -/

open Factory

namespace ExposedType.Stands

variable {g : Generator} {d : Catalog} {t : ExposedType} {m : Marshaller}

/-- In a document that names no classes, only built-in types have one. -/
theorem mem_builtin (hstandard : g.Standard d) (hplain : ∀ t ∈ d.types, t.className = none)
    (ht : t ∈ g.catalog.types) {className : String} (h : t.className = some className) :
    t ∈ Catalog.builtin.types := by
  refine (hstandard.over.mem_types.1 ht).resolve_right ?_
  intro hmem
  rw [hplain t hmem] at h
  cases h

/-- The marshaller of a type with a built-in class is the one that the class stands for. -/
theorem eq_of_class (hstandard : g.Standard d) (h : t.Stands g.providers m) {className : String}
    {x : Marshaller} (hclass : t.className = some className)
    (hx : Providers.builtin.get? className = some x) : m = x := by
  cases h with
  | ofClass declared created =>
    rw [hclass] at declared
    cases declared
    have hcreate := (Providers.create_eq_ok_iff _ _ _ _).1 created
    rw [hstandard.provided _ _ hx] at hcreate
    exact (Option.some.inj hcreate).symm
  | object plain | enumeration plain | array plain =>
    rw [plain] at hclass
    cases hclass

/-- The marshaller of a built-in type is a basic one, and goes by its name. -/
theorem of_builtin (hstandard : g.Standard d) (ht : t ∈ Catalog.builtin.types)
    (h : t.Stands g.providers m) : m.Basic ∧ m.ownId = t.name := by
  have hall : ∀ t ∈ Catalog.builtin.types,
      (t.className.bind Providers.builtin.get?).any (fun x => decide (x.ownId = t.name)) =
        true := by decide
  obtain ⟨x, hx, hid⟩ := (Option.any_eq_true _ _).1 (hall t ht)
  obtain ⟨className, hclass, hget⟩ := Option.bind_eq_some_iff.1 hx
  rw [h.eq_of_class hstandard hclass hget]
  exact ⟨Providers.basic_of_builtin hget, of_decide_eq_true hid⟩

/-- The marshaller of a type goes by the name of the type. -/
theorem ownId_eq (hstandard : g.Standard d) (hplain : ∀ t ∈ d.types, t.className = none)
    (hsound : g.catalog.Sound) (ht : t ∈ g.catalog.types) (h : t.Stands g.providers m) :
    m.ownId = t.name := by
  cases h with
  | ofClass declared created =>
    exact (of_builtin hstandard (mem_builtin hstandard hplain ht declared)
      (.ofClass declared created)).2
  | object plain shape | enumeration plain shape => rfl
  | @array s plain shape spelled =>
    have hstrategy : t.strategy? = some (.array s) := by
      simp [strategy?, plain, shape, spelled]
    exact (Progress.shape_of_strategy? (hsound.types t ht) hstrategy).2

end ExposedType.Stands

namespace Generator.Standard

variable {g : Generator} {d : Catalog} {f : Factory}

theorem denotes_of_builtin (hstandard : g.Standard d) {id : String} {t : ExposedType}
    (h : Catalog.builtin.Denotes id t) : g.catalog.Denotes id t :=
  h.imp_right (Catalog.aliases_of_merged hstandard.merged)

/-- An array type is bound to the marshaller of an array, for no object or enum has a name with
brackets. -/
theorem structural_array (hgenerated : f.Generated g.catalog g.providers) (hstandard : g.Standard d)
    (hplain : ∀ t ∈ d.types, t.className = none) {component : TypeRef} {dimensions : Nat}
    (hdimensions : 1 ≤ dimensions) {i : Instance}
    (hi : f.lookup (TypeRef.array component dimensions).id = some i) :
    i.marshaller.isNominal = false := by
  obtain ⟨m, haccounts, hmakes, -⟩ := hgenerated.ofLookup _ i hi
  cases haccounts with
  | shape s asked spelled planned eq =>
    subst planned
    rw [← Except.ok.inj hmakes.marshaller]
    rfl
  | type t mem denotes planned =>
    have hsound := hgenerated.sound.types t mem
    -- Neither the name of an object or enum nor an alias is spelled like an array.
    have hfits : ∃ parsed : TypeRef, parsed.signature?.isSome = true ∧ t.shape.Fits parsed := by
      rcases denotes with hname | halias
      · obtain ⟨parsed, hparse, hid, hfits⟩ := hsound.named
        have harray := TypeRef.Spelled.isArray ⟨_, hparse⟩ hdimensions (hid.trans hname.symm)
        exact ⟨parsed, harray, hfits⟩
      · obtain ⟨-, -, parsed, hparse, hsignature, hid⟩ := hgenerated.sound.aliases _ _ halias
        have harray := TypeRef.Spelled.isArray ⟨_, hparse⟩ hdimensions hid
        rw [hsignature] at harray
        cases harray
    obtain ⟨parsed, harray, hfits⟩ := hfits
    have hstands := ExposedType.stands_of_makes planned hmakes
    generalize i.marshaller = marshaller at hstands ⊢
    cases hstands with
    | ofClass declared created =>
      exact (ExposedType.Stands.of_builtin hstandard
        (ExposedType.Stands.mem_builtin hstandard hplain mem declared)
        (.ofClass declared created)).1.isNominal
    | object plain shape | enumeration plain shape =>
      rw [shape] at hfits
      cases parsed with
      | array _ _ => exact hfits.elim
      | _ => cases harray
    | array plain shape spelled => rfl

/-- Neither are the other types that say all of their values. -/
theorem structural (hgenerated : f.Generated g.catalog g.providers) (hstandard : g.Standard d)
    (hplain : ∀ t ∈ d.types, t.className = none) {type : TypeRef} (hflat : type.Flat)
    (hstatic : type.isDynamic = false) {i : Instance} (hi : f.lookup type.id = some i) :
    i.marshaller.isNominal = false := by
  cases hsignature : type.signature? with
  | some s =>
    rw [TypeRef.eq_of_signature? hsignature] at hflat hi
    exact structural_array hgenerated hstandard hplain hflat.1 hi
  | none =>
    obtain ⟨t, ht, hid⟩ := Catalog.builtin_denotes hstatic hsignature
    have hmem : t ∈ g.catalog.types := hstandard.over.mem_types.2 (.inl ht)
    obtain ⟨m, i', hplanned, hmakes, hi'⟩ :=
      hgenerated.ofType t hmem _ (hstandard.denotes_of_builtin hid)
    rw [hi] at hi'
    cases hi'
    exact (ExposedType.Stands.of_builtin hstandard ht
      (ExposedType.stands_of_makes hplanned hmakes)).1.isNominal

theorem own (hgenerated : f.Generated g.catalog g.providers) (hstandard : g.Standard d)
    (hplain : ∀ t ∈ d.types, t.className = none) {id : String} {i : Instance}
    (hi : f.lookup id = some i) : f.lookup i.marshaller.ownId = some i := by
  obtain ⟨m, haccounts, hmakes, -⟩ := hgenerated.ofLookup id i hi
  cases haccounts with
  | shape s asked spelled planned eq =>
    subst planned eq
    rw [← Except.ok.inj hmakes.marshaller]
    exact hi
  | type t mem denotes planned =>
    -- an alias and the name of the type lead to one instance
    rw [ExposedType.Stands.ownId_eq hstandard hplain hgenerated.sound mem
      (ExposedType.stands_of_makes planned hmakes)]
    obtain ⟨m', i', hplanned, hmakes', hi'⟩ := hgenerated.ofType t mem t.name (.inl rfl)
    rw [planned] at hplanned
    cases hplanned
    rw [hi', hmakes.unique hmakes']

theorem admits (hgenerated : f.Generated g.catalog g.providers) (hstandard : g.Standard d)
    (hplain : ∀ t ∈ d.types, t.className = none) {type : TypeRef} (hflat : type.Flat)
    (hfound : f.Finds type) : f.Admits type :=
  ⟨hfound, fun hstatic _ hi => structural hgenerated hstandard hplain hflat hstatic hi⟩

/-- An array marshaller fits when its shape has a spelling and its component is found. -/
theorem fitted_array (hgenerated : f.Generated g.catalog g.providers) (hstandard : g.Standard d)
    (hplain : ∀ t ∈ d.types, t.className = none) {s : ArraySignature} (hspelled : s.type.Spelled)
    (hfound : f.Finds s.component) : f.Fitted (.array s) := by
  have hcomponent : s.component.Flat := by
    have hnone := hspelled.flat.2
    cases hc : s.component with
    | array _ _ =>
      rw [hc] at hnone
      cases hnone
    | _ => trivial
  exact ⟨hspelled.flat, hstandard.admits hgenerated hplain hcomponent hfound⟩

theorem fitted (hgenerated : f.Generated g.catalog g.providers) (hstandard : g.Standard d)
    (hplain : ∀ t ∈ d.types, t.className = none) (hwhole : ∀ t ∈ d.types, t.shape.Whole)
    {id : String} {i : Instance} (hi : f.lookup id = some i) : f.Fitted i.marshaller := by
  obtain ⟨m, haccounts, hmakes, hsupplies⟩ := hgenerated.ofLookup id i hi
  cases haccounts with
  | shape s asked spelled planned eq =>
    subst planned
    rw [← Except.ok.inj hmakes.marshaller]
    exact hstandard.fitted_array hgenerated hplain spelled hsupplies
  | type t mem denotes planned =>
    have hspelled := hgenerated.spelled t mem
    have hstands := ExposedType.stands_of_makes planned hmakes
    obtain ⟨strategy, hstrategy, rfl⟩ := Option.map_eq_some_iff.1 planned
    generalize i.marshaller = marshaller at hstands ⊢
    cases hstands with
    -- only built-in types have a class here, and their marshallers declare no parts
    | ofClass declared created =>
      have hbasic := (ExposedType.Stands.of_builtin hstandard
        (ExposedType.Stands.mem_builtin hstandard hplain mem declared)
        (.ofClass declared created)).1
      cases marshaller with
      | scalar _ | string | list | set | map => trivial
      | enumeration _ _ | object _ _ | array _ | foreign _ =>
        exact hbasic.elim
    | @object fields plain shape =>
      have hfields := hstandard.over.forall_shape trivial hwhole t mem
      rw [shape] at hspelled hfields
      have heq : strategy = .reflective t.name fields := by
        simpa [ExposedType.strategy?, plain, shape] using hstrategy.symm
      subst heq
      have hdistinct := (hgenerated.sound.types t mem).distinct
      rw [shape] at hdistinct
      refine ⟨hdistinct.2, ?_⟩
      intro field hfield
      obtain ⟨hreadable, hwritable⟩ := hfields field hfield
      exact ⟨hreadable, hwritable, hstandard.admits hgenerated hplain
        (hspelled field hfield).flat (hsupplies field hfield)⟩
    | enumeration plain shape => trivial
    | @array s plain shape spelled =>
      have heq : strategy = .array s := by
        simpa [ExposedType.strategy?, plain, shape, spelled] using hstrategy.symm
      subst heq
      obtain ⟨parsed, hparse, hsignature⟩ := Option.bind_eq_some_iff.1 spelled
      exact hstandard.fitted_array hgenerated hplain
        (TypeRef.Spelled.shape ⟨_, toOption_eq_some_iff.1 hparse⟩ hsignature) hsupplies

theorem basic (hgenerated : f.Generated g.catalog g.providers) (hstandard : g.Standard d)
    {m : Marshaller} (hm : m.Basic) : ∃ i, f.lookup m.ownId = some i ∧ i.marshaller = m := by
  obtain ⟨t, ht, hname, className, hclass, hget⟩ := hm.exists_type
  obtain ⟨_, i, hplanned, hmakes, hi⟩ :=
    hgenerated.ofType t (hstandard.over.mem_types.2 (.inl ht)) t.name (.inl rfl)
  have hstands := ExposedType.stands_of_makes hplanned hmakes
  exact ⟨i, hname ▸ hi, hstands.eq_of_class hstandard hclass hget⟩

end Generator.Standard

/-- The factory of a document over the built-in types is coherent, if the document names no classes
and all fields are written and read. -/
theorem Generator.coherent_of_factory {g : Generator} {d : Catalog} (hstandard : g.Standard d)
    (hplain : ∀ t ∈ d.types, t.className = none) (hwhole : ∀ t ∈ d.types, t.shape.Whole)
    {package className : String} {f : Factory} (h : g.factory package className = .ok f) :
    f.Coherent := by
  have hgenerated := generated_of_factory hstandard.spelled h
  exact ⟨fun _ _ hi => hstandard.own hgenerated hplain hi,
    fun _ _ hi => hstandard.fitted hgenerated hplain hwhole hi,
    fun _ hm => hstandard.basic hgenerated hm⟩

end TaggedWire
