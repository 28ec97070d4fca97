import TaggedWire.Proofs.Factory.Coding
import TaggedWire.Proofs.Generation.Drawn

/-!
# Generated factories

What is known of the factory of a catalog, apart from how its plan came about: which marshaller each
identifier is bound to, that a type and its aliases share one instance, and that a marshaller finds
what it looks up.

* `generated_of_factory`: the factory that a generator makes is so.
* `ExposedType.stands_of_strategy?`: which marshaller a type leads to.
* `Generator.Over.exposes`: the marshallers over the built-in types, however the types are spelled.
-/

namespace TaggedWire

/-- Why the factory of a catalog binds an identifier to a marshaller: it is a name or an alias of a
type, or the identifier of an array shape that was asked for. -/
inductive Catalog.Accounts (c : Catalog) (id : String) (m : Planned) : Prop
  | type (t : ExposedType) (mem : t ∈ c.types) (denotes : c.Denotes id t)
    (planned : t.planned? = some m)
  | shape (s : ArraySignature) (asked : Generator.Asked c s) (spelled : s.type.Spelled)
    (planned : m = s.planned) (eq : id = s.id)

namespace Factory

/-- A value of the type tells its own, or the factory binds the type. -/
def Finds (f : Factory) (type : TypeRef) : Prop := type = .any ∨ ∃ i, f.lookup type.id = some i

/-- The factory binds whatever the strategy's marshaller looks up. -/
def Supplies (f : Factory) : Strategy → Prop
  | .array s => f.Finds s.component
  | .reflective _ fields => ∀ field ∈ fields, f.Finds field.declared
  | .explicit _ _ | .enumeration _ _ => True

/-- What is known of the factory of a catalog. -/
structure Generated (c : Catalog) (providers : Providers) (f : Factory) : Prop where
  sound : c.Sound
  spelled : c.Spelled
  ofLookup : ∀ id i, f.lookup id = some i →
    ∃ m, c.Accounts id m ∧ Makes providers m i ∧ f.Supplies m.strategy
  ofType : ∀ t ∈ c.types, ∀ id, c.Denotes id t →
    ∃ m i, t.planned? = some m ∧ Makes providers m i ∧ f.lookup id = some i
  ofShape : ∀ s, Generator.Asked c s → ∃ i, f.lookup s.id = some i
  identified : ∀ a b i j, f.lookup a = some i → f.lookup b = some j →
    i.variableName = j.variableName → i = j

/-- A factory that finds all that is counted on while a plan is made finds what the marshallers of
the plan look up. -/
theorem supplies_of_warranted {f : Factory} {providers : Providers} {c : Context}
    (hfinds : ∀ type, c.Resolves type → f.Finds type) {strategy : Strategy}
    (h : strategy.Warranted providers c) : f.Supplies strategy := by
  cases strategy with
  | array s => exact hfinds _ h
  | reflective _ fields => exact fun field hfield => hfinds _ (h field hfield)
  | explicit _ _ | enumeration _ _ => trivial

end Factory

open Factory

/-- What the invariant of a generation says of its plan holds of the instances made of it. -/
theorem Generator.generated_of_factory {g : Generator} (hspelled : g.catalog.Spelled)
    {package className : String} {f : Factory} (h : g.factory package className = .ok f) :
    f.Generated g.catalog g.providers := by
  obtain ⟨p, hplan, hf⟩ := bind_eq_ok_iff.1 h
  obtain ⟨hsound, done, shapes, c, hp, rfl, hdone, hshapes, hresolves⟩ :=
    progress_of_plan hspelled hplan
  -- what is counted on while the plan is made is bound in the plan, and so in the factory
  have hfinds : ∀ type, c.Resolves type → f.Finds type := by
    intro type htype
    refine (hresolves type htype).imp id ?_
    intro hbound
    obtain ⟨v, hv⟩ := Option.isSome_iff_exists.1 hbound
    exact exists_lookup hf hv
  have hsupplies : ∀ m ∈ c.builder.marshallers, f.Supplies m.strategy :=
    fun m hm => supplies_of_warranted hfinds (hp.warranted m hm)
  have haccounts : ∀ {id m}, Origin done shapes id m → g.catalog.Accounts id m := by
    intro id m horigin
    cases horigin with
    | type t mem planned =>
      obtain ⟨ht, hid⟩ := (hdone id t).1 mem
      exact .type t ht hid planned
    | shape s mem planned eq => exact .shape s ((hshapes s).1 mem) (hp.spelled s mem) planned eq
  refine ⟨hsound, hspelled, fun id i hi => ?_, fun t ht id hid => ?_, fun s hs => ?_,
    fun a b i j hi hj hname => ?_⟩
  · obtain ⟨m, hm, hbinding, hmakes⟩ := (lookup_iff hf id i).1 hi
    obtain ⟨m', hm', hname, horigin⟩ := hp.ofBinding id _ hbinding
    -- no two marshallers of a plan share a variable
    obtain rfl : m' = m := List.inj_on_of_nodup_map hp.nodup hm' hm hname
    exact ⟨m', haccounts horigin, hmakes, hsupplies m' hm⟩
  · obtain ⟨m, hm, hplanned, hbinding⟩ := hp.ofType id t ((hdone id t).2 ⟨ht, hid⟩)
    obtain ⟨i, hi⟩ := exists_lookup hf hbinding
    obtain ⟨m', hm', hbinding', hmakes⟩ := (lookup_iff hf id i).1 hi
    have hname := Option.some.inj (hbinding.symm.trans hbinding')
    obtain rfl : m = m' := List.inj_on_of_nodup_map hp.nodup hm hm' hname
    exact ⟨m, i, hplanned, hmakes, hi⟩
  · obtain ⟨v, hv⟩ := Context.contains_iff.1 (hp.ofShape s ((hshapes s).2 hs))
    exact exists_lookup hf hv
  · obtain ⟨m, hm, -, hmi⟩ := (lookup_iff hf a i).1 hi
    obtain ⟨n, hn, -, hnj⟩ := (lookup_iff hf b j).1 hj
    obtain rfl : m = n := List.inj_on_of_nodup_map hp.nodup hm hn
      (hmi.variableName.symm.trans (hname.trans hnj.variableName))
    exact hmi.unique hnj

/-! ### Marshallers of types

Which marshaller a type leads to can be read off its declaration, except for what a class makes. -/

/-- The marshaller is the one of the exposed type. -/
inductive ExposedType.Stands (providers : Providers) (t : ExposedType) : Marshaller → Prop
  | ofClass {className : String} {m : Marshaller} (declared : t.className = some className)
    (created : providers.create className t.name = .ok m) : Stands providers t m
  | object {fields : List Field} (plain : t.className = none) (shape : t.shape = .object fields) :
    Stands providers t (.object t.name fields)
  | enumeration {variants : List String} (plain : t.className = none)
    (shape : t.shape = .enumeration variants) : Stands providers t (.enumeration t.name variants)
  | array {s : ArraySignature} (plain : t.className = none) (shape : t.shape = .array)
    (spelled : t.spelledShape? = some s) : Stands providers t (.array s)

theorem ExposedType.stands_of_strategy? {providers : Providers} {t : ExposedType}
    {strategy : Strategy} {m : Marshaller} (hstrategy : t.strategy? = some strategy)
    (h : strategy.instantiate providers = .ok m) : t.Stands providers m := by
  unfold strategy? at hstrategy
  split at hstrategy
  · next hclass =>
    cases hstrategy
    exact .ofClass hclass h
  · next hclass hshape =>
    cases hstrategy
    rw [← Except.ok.inj h]
    exact .object hclass hshape
  · next hclass hshape =>
    cases hstrategy
    rw [← Except.ok.inj h]
    exact .enumeration hclass hshape
  · next hclass hshape =>
    obtain ⟨s, hs, rfl⟩ := Option.map_eq_some_iff.1 hstrategy
    rw [← Except.ok.inj h]
    exact .array hclass hshape hs
  · cases hstrategy

theorem ExposedType.stands_of_makes {providers : Providers} {t : ExposedType} {m : Planned}
    {i : Instance} (hplanned : t.planned? = some m) (h : Makes providers m i) :
    t.Stands providers i.marshaller := by
  obtain ⟨strategy, hstrategy, rfl⟩ := Option.map_eq_some_iff.1 hplanned
  refine stands_of_strategy? hstrategy ?_
  cases strategy <;> exact h.marshaller

/-! ### Catalogs over the built-in types

Catalogs of documents are merged over the built-in one.  What the provided classes are is left open
in `Over`; `Standard` says that they are those of the library. -/

/-- The catalog is another one over the built-in types, and the built-in classes stand for the
marshallers they should. -/
structure Generator.Over (g : Generator) (d : Catalog) : Prop where
  merged : Catalog.builtin.merged d = .ok g.catalog
  provided : ∀ className m, Providers.builtin.get? className = some m →
    g.providers.get? className = some m

/-- The catalog is that of a document over the built-in types, and the built-in classes stand for
the marshallers they should. -/
structure Generator.Standard (g : Generator) (d : Catalog) : Prop where
  parsed : ∃ format text, Catalog.parse format text = .ok d
  merged : Catalog.builtin.merged d = .ok g.catalog
  provided : ∀ className m, Providers.builtin.get? className = some m →
    g.providers.get? className = some m

/-- The fields of an object are all written and read. -/
def Shape.Whole : Shape → Prop
  | .object fields => ∀ f ∈ fields, f.readable = true ∧ f.writable = true
  | .enumeration _ | .array | .unstructured => True

/-- The marshallers of scalars, strings and collections. -/
def Marshaller.Basic : Marshaller → Prop
  | .scalar _ | .string | .list | .set | .map => True
  | .enumeration _ _ | .object _ _ | .array _ | .foreign _ => False

instance (m : Marshaller) : Decidable m.Basic := by
  cases m <;> unfold Marshaller.Basic <;> infer_instance

theorem Providers.basic_of_builtin {className : String} {m : Marshaller}
    (h : builtin.get? className = some m) : m.Basic := by
  have hall : ∀ e ∈ builtin.entries, e.2.Basic := by decide
  exact hall _ ((Table.mem_entries_iff _ _ _).2 h)

/-- A built-in type has a built-in class, and no structure. -/
theorem Catalog.builtin_types {t : ExposedType} (ht : t ∈ builtin.types) :
    t.shape = .unstructured ∧
      ∃ className, t.className = some className ∧ Providers.builtin.contains className = true := by
  have hall : ∀ t ∈ builtin.types, t.shape = .unstructured ∧
      (t.className.any fun className => Providers.builtin.contains className) = true := by decide
  obtain ⟨hshape, hclass⟩ := hall t ht
  obtain ⟨className, hname, hcontains⟩ := (Option.any_eq_true _ _).1 hclass
  exact ⟨hshape, className, hname, hcontains⟩

/-- A marshaller over a catalog: that of an array shape, a built-in one, or that of a declared
type. -/
inductive Catalog.Exposes (c : Catalog) : Marshaller → Prop
  | array (s : ArraySignature) : Exposes c (.array s)
  | basic {m : Marshaller} (h : m.Basic) : Exposes c m
  | object {t : ExposedType} {fields : List Field} (mem : t ∈ c.types)
    (shape : t.shape = .object fields) : Exposes c (.object t.name fields)
  | enumeration {t : ExposedType} {variants : List String} (mem : t ∈ c.types)
    (shape : t.shape = .enumeration variants) : Exposes c (.enumeration t.name variants)

namespace Generator

variable {g : Generator} {d : Catalog} {package className : String} {f : Factory}

theorem Standard.over (h : g.Standard d) : g.Over d := ⟨h.merged, h.provided⟩

theorem Standard.spelled (h : g.Standard d) : g.catalog.Spelled := by
  obtain ⟨format, text, hparse⟩ := h.parsed
  exact (Catalog.Documented.merged .builtin (.parse hparse) h.merged).spelled

namespace Over

theorem mem_types (h : g.Over d) {t : ExposedType} :
    t ∈ g.catalog.types ↔ t ∈ Catalog.builtin.types ∨ t ∈ d.types := by
  rw [Catalog.types_of_merged h.merged, List.mem_append]

/-- Built-in types have no structure, so what holds of all shapes is asked of the document. -/
theorem forall_shape (h : g.Over d) {p : Shape → Prop} (hunstructured : p .unstructured)
    (hshapes : ∀ t ∈ d.types, p t.shape) : ∀ t ∈ g.catalog.types, p t.shape := by
  intro t ht
  rcases h.mem_types.1 ht with hbuiltin | hdocument
  · rw [(Catalog.builtin_types hbuiltin).1]
    exact hunstructured
  · exact hshapes t hdocument

/-- The class of a built-in marshaller stands for that marshaller. -/
theorem create_basic (h : g.Over d) {className type : String} {m : Marshaller}
    (hclass : Providers.builtin.contains className = true)
    (hm : g.providers.create className type = .ok m) : m.Basic := by
  obtain ⟨m', hm'⟩ := Option.isSome_iff_exists.1 hclass
  have hcreate := (Providers.create_eq_ok_iff _ _ _ _).1 hm
  rw [h.provided _ _ hm'] at hcreate
  exact Option.some.inj hcreate ▸ Providers.basic_of_builtin hm'

/-- Where only built-in classes are named, so they are in the whole catalog. -/
theorem classes (h : g.Over d) (hclasses : ∀ t ∈ d.types, ∀ name, t.className = some name →
      Providers.builtin.contains name = true) :
    ∀ t ∈ g.catalog.types, ∀ name, t.className = some name →
      Providers.builtin.contains name = true := by
  intro t ht
  rcases h.mem_types.1 ht with hbuiltin | hdocument
  · obtain ⟨-, name, hname, hcontains⟩ := Catalog.builtin_types hbuiltin
    rw [hname]
    exact fun _ h => Option.some.inj h ▸ hcontains
  · exact hclasses t hdocument

/-- What is bound follows from the types, where only built-in classes are named. -/
theorem exposes (h : g.Over d) (hclasses : ∀ t ∈ d.types, ∀ name, t.className = some name →
      Providers.builtin.contains name = true) (hf : g.factory package className = .ok f)
    {id : String} {i : Instance} (hi : f.lookup id = some i) :
    g.catalog.Exposes i.marshaller := by
  obtain ⟨p, hplan, hf⟩ := bind_eq_ok_iff.1 hf
  obtain ⟨m, hm, -, hmakes⟩ := (lookup_iff hf id i).1 hi
  have hmarshaller := hmakes.marshaller
  rcases drawn_of_plan hplan m hm with ⟨s, hs⟩ | ⟨t, ht, hstrategy⟩
  · rw [hs] at hmarshaller
    exact Except.ok.inj hmarshaller ▸ .array s
  · have hstands := ExposedType.stands_of_strategy? hstrategy hmarshaller
    -- the cases follow what the type is, for the marshaller that was made
    generalize i.marshaller = marshaller at hstands ⊢
    cases hstands with
    | ofClass declared created =>
      exact .basic (h.create_basic (h.classes hclasses t ht _ declared) created)
    | object plain shape => exact .object ht shape
    | enumeration plain shape => exact .enumeration ht shape
    | array plain shape spelled => exact .array _

end Over

theorem sound_of_factory (h : g.factory package className = .ok f) : g.catalog.Sound := by
  obtain ⟨p, hplan, -⟩ := bind_eq_ok_iff.1 h
  exact (plan_eq_ok_iff.1 hplan).1

end Generator

/-- The marshaller is built in, or follows from a declaration whose fields have proper names. -/
def Marshaller.Usual : Marshaller → Prop
  | .object _ fields => ∀ field ∈ fields, IsFieldName field.name
  | .foreign _ => False
  | .scalar _ | .string | .list | .set | .map | .enumeration _ _ | .array _ => True

theorem Marshaller.Basic.usual {m : Marshaller} (h : m.Basic) : m.Usual := by
  cases m with
  | scalar _ | string | list | set | map => trivial
  | enumeration _ _ | object _ _ | array _ | foreign _ => exact h.elim

/-- The shape of the arrays that the marshaller is for. -/
def Marshaller.shape? : Marshaller → Option ArraySignature
  | .array s => some s
  | .scalar _ | .string | .list | .set | .map | .enumeration _ _ | .object _ _ | .foreign _ => none

theorem Marshaller.eq_of_shape? {m : Marshaller} {s : ArraySignature} (h : m.shape? = some s) :
    m = .array s := by
  cases m with
  | array _ => rw [Option.some.inj h]
  | _ => cases h

/-- The marshaller serves a class outside the library. -/
def Marshaller.isForeign : Marshaller → Bool
  | .foreign _ => true
  | .scalar _ | .string | .list | .set | .map | .enumeration _ _ | .object _ _ | .array _ => false

theorem Marshaller.Usual.isForeign {m : Marshaller} (h : m.Usual) : m.isForeign = false := by
  cases m with
  | foreign _ => exact h.elim
  | _ => rfl

/-- All marshallers of the factory are usual ones. -/
def Factory.Usual (f : Factory) : Prop := ∀ id i, f.lookup id = some i → i.marshaller.Usual

theorem Factory.Usual.of_offers {f : Factory} (hf : f.Usual) {m : Marshaller}
    (h : f.Offers (.through m)) : m.Usual := by
  rcases h with ⟨id, i, hi, rfl⟩ | ⟨shape, rfl⟩
  · exact hf id i hi
  · trivial

/-- So are those over the built-in types, where only built-in classes are named. -/
theorem Generator.usual_of_factory {g : Generator} {d : Catalog} (hover : g.Over d)
    (hclasses : ∀ t ∈ d.types, ∀ name, t.className = some name →
      Providers.builtin.contains name = true) {package className : String} {f : Factory}
    (h : g.factory package className = .ok f) : f.Usual := by
  intro id i hi
  have hexposes := hover.exposes hclasses h hi
  generalize i.marshaller = m at hexposes ⊢
  cases hexposes with
  | basic hbasic => exact hbasic.usual
  | object mem shape =>
    have hdistinct := ((sound_of_factory h).types _ mem).distinct
    rw [shape] at hdistinct
    exact fun field hfield => hdistinct.1 _ (List.mem_map_of_mem hfield)
  | array _ | enumeration _ _ => trivial

/-- The factory for a catalog over the built-in types. -/
def Generator.factoryOver (d : Catalog) : Except Error Factory := do
  let c ← Catalog.builtin.merged d
  (⟨c, Providers.builtin⟩ : Generator).factory "demo" "Factory"

theorem Generator.standard_of_factoryOver {d : Catalog} {format : CatalogFormat} {text : String}
    (hparse : Catalog.parse format text = .ok d) {f : Factory} (h : factoryOver d = .ok f) :
    ∃ c, (⟨c, Providers.builtin⟩ : Generator).Standard d ∧
      (⟨c, Providers.builtin⟩ : Generator).factory "demo" "Factory" = .ok f := by
  obtain ⟨c, hmerged, hf⟩ := bind_eq_ok_iff.1 h
  exact ⟨c, ⟨⟨format, text, hparse⟩, hmerged, fun _ _ h => h⟩, hf⟩

end TaggedWire
