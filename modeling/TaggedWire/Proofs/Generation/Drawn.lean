import TaggedWire.Proofs.Generation.Closed

/-!
# Where the marshallers of a plan come from

A builder is changed in three ways: it takes the marshaller of an array shape, it takes that of a
type, and it binds an alias.  What holds of a new builder and is kept by all three holds of every
plan, whatever the spelling of the types.

So a catalog leads to no marshaller that none of its types asks for: each is that of an array shape,
or follows from the declaration of a type.  And the marshaller of an object or enum stays bound to
the name of its type, for the two come together and a binding is never replaced.

* `Generator.kept_of_plan`: what every change keeps holds of a plan.
* `Generator.drawn_of_plan`: each marshaller is asked for.
* `Generator.anchored_of_plan`: objects and enums are bound under their names.
-/

namespace TaggedWire

/-! ### What every change of a builder keeps

`Kept` lists the three changes.  Each request of a context, and with them the taking of a type, is
put together from these alone, so the lemmas follow the functions one by one. -/

/-- The property holds of a new builder, and every change that a run makes for the types keeps
it. -/
structure Generator.Kept (types : List ExposedType) (p : Builder → Prop) : Prop where
  start : p {}
  shape : ∀ {b b' : Builder} {s : ArraySignature}, p b →
    (b.add s.variableName (.array s)).bind s.id s.variableName = .ok b' → p b'
  declared : ∀ {b b' : Builder} {t : ExposedType} {v : String} {strategy : Strategy}, p b →
    t ∈ types → t.strategy? = some strategy → (b.add v strategy).bind t.name v = .ok b' → p b'
  bound : ∀ {b b' : Builder} {id v : String}, p b → b.bind id v = .ok b' → p b'

namespace Generator.Kept

variable {types : List ExposedType} {p : Builder → Prop} {providers : Providers} {c c' : Context}

theorem synthesize (hp : Kept types p) (hc : p c.builder) {s : ArraySignature}
    (h : c.synthesize s = .ok c') : p c'.builder := by
  obtain ⟨b, hbind, hc'⟩ := bind_eq_ok_iff.1 h
  cases hc'
  exact hp.shape hc hbind

theorem ensure (hp : Kept types p) (hc : p c.builder) {owner : String} {type : TypeRef}
    (h : c.ensure owner type = .ok c') : p c'.builder := by
  -- by induction on the type: the component comes first, whatever its shape
  induction type generalizing c c' with
  | any =>
    cases h
    exact hc
  | array component dimensions ih =>
    unfold Context.ensure at h
    split at h
    · cases h
      exact hc
    · obtain ⟨c₁, hcomponent, hmake⟩ := bind_eq_ok_iff.1 h
      exact hp.synthesize (ih hc hcomponent) hmake
  | _ =>
    obtain ⟨rfl, -⟩ := Progress.ensure_of_signature?_eq_none rfl h
    exact hc

theorem ensureFields (hp : Kept types p) (hc : p c.builder) {type : String} {fields : List Field}
    (h : c.ensureFields type fields = (c', .ok ())) : p c'.builder := by
  induction fields generalizing c with
  | nil =>
    cases h
    exact hc
  | cons field rest ih =>
    unfold Context.ensureFields at h
    split at h
    · next c₁ hensure => exact ih (hp.ensure hc hensure) h
    · cases h

theorem selectArray (hp : Kept types p) (hc : p c.builder) {name : String} {strategy : Strategy}
    (h : c.selectArray name = (c', .ok (some strategy))) :
    p c'.builder ∧ ∃ s, strategy = .array s := by
  unfold Context.selectArray at h
  split at h
  · cases h
  · split at h
    · cases h
    · next s hsignature =>
      split at h
      · next c₁ hensure =>
        cases h
        exact ⟨hp.ensure hc hensure, s, rfl⟩
      · cases h

/-- What is chosen for a type is that of an array shape, or follows from the type. -/
theorem select (hp : Kept types p) (hc : p c.builder) {t : ExposedType} {strategy : Strategy}
    (h : c.select providers t = (c', .ok (some strategy))) :
    p c'.builder ∧ ((∃ s, strategy = .array s) ∨ t.strategy? = some strategy) := by
  obtain ⟨name, shape, className⟩ := t
  -- a class goes before a shape, and only arrays and objects ask for more than themselves
  cases className with
  | some className =>
    unfold Context.select at h
    dsimp only at h
    split at h
    · cases h
      exact ⟨hc, .inr (by cases shape <;> rfl)⟩
    · cases h
  | none =>
    cases shape with
    | array =>
      have hselect : c.selectArray name = (c', .ok (some strategy)) := h
      obtain ⟨hc', hs⟩ := hp.selectArray hc hselect
      exact ⟨hc', .inl hs⟩
    | enumeration variants =>
      cases h
      exact ⟨hc, .inr rfl⟩
    | object fields =>
      unfold Context.select at h
      dsimp only at h
      split at h
      · next c₁ hfields =>
        cases h
        exact ⟨hp.ensureFields hc hfields, .inr rfl⟩
      · cases h
    | unstructured => cases h

theorem addStrategy (hp : Kept types p) (hc : p c.builder) {t : ExposedType} (ht : t ∈ types)
    {strategy : Strategy} (hstrategy : (∃ s, strategy = .array s) ∨ t.strategy? = some strategy)
    {v : String} (h : c.addStrategy t.name strategy = .ok (c', v)) : p c'.builder := by
  -- the marshaller of an array shape is in place by now, any other is entered here
  cases strategy with
  | array s =>
    unfold Context.addStrategy at h
    dsimp only at h
    split at h <;> cases h
    exact hc
  | explicit _ _ | reflective _ _ | enumeration _ _ =>
    obtain ⟨b, hbind, hc'⟩ := bind_eq_ok_iff.1 h
    cases hc'
    refine hp.declared hc ht (hstrategy.resolve_left ?_) hbind
    rintro ⟨s, hs⟩
    cases hs

theorem bindAll (hp : Kept types p) (hc : p c.builder) {v : String} {ids : List String}
    (h : c.bindAll v ids = .ok c') : p c'.builder := by
  obtain ⟨b, hfold, hc'⟩ := bind_eq_ok_iff.1 h
  cases hc'
  exact holds_of_foldlM hc (fun _ _ _ _ hb hbind => hp.bound hb hbind) hfold

theorem addType (hp : Kept types p) (hc : p c.builder) {aliasesOf : String → List String}
    {t : ExposedType} (ht : t ∈ types) (h : c.addType providers aliasesOf t = .ok c') :
    p c'.builder := by
  unfold Context.addType at h
  split at h
  · cases h
  · cases h
  · next c₁ strategy hselect =>
    obtain ⟨hc₁, hstrategy⟩ := hp.select hc hselect
    obtain ⟨⟨c₂, v⟩, hadd, hbind⟩ := bind_eq_ok_iff.1 h
    exact hp.bindAll (hp.addStrategy hc₁ ht hstrategy hadd) hbind

end Generator.Kept

/-- What every change keeps holds of the builder that a plan is finished from. -/
theorem Generator.kept_of_plan {g : Generator} {p : Builder → Prop}
    (hp : Kept g.catalog.types p) {package className : String} {plan : Plan}
    (h : g.plan package className = .ok plan) :
    ∃ b : Builder, p b ∧ plan = b.finish package className := by
  obtain ⟨-, made, c, hfold, hensure, rfl⟩ := plan_eq_ok_iff.1 h
  have hmade : p made.builder := by
    refine holds_of_foldlM (p := fun c => p c.builder) hp.start ?_ hfold
    intro t ht c₁ c₂ hc hadd
    exact hp.addType hc (Catalog.mem_canonical.1 ((ordered_perm _).mem_iff.1 ht)) hadd
  exact ⟨c.builder, hp.ensure hmade hensure, rfl⟩

theorem Builder.mem_marshallers_add {b : Builder} {v : String} {strategy : Strategy} {m : Planned}
    (h : m ∈ (b.add v strategy).marshallers) : m ∈ b.marshallers ∨ m = ⟨v, strategy⟩ := by
  unfold add at h
  split at h
  · exact .inl h
  · exact (List.mem_append.1 h).imp id List.mem_singleton.1

/-- A marshaller of the plan under way was there before the last one was added, or is that one. -/
theorem Builder.mem_marshallers_bind {b b' : Builder} {id v : String} {strategy : Strategy}
    (h : (b.add v strategy).bind id v = .ok b') {m : Planned} (hm : m ∈ b'.marshallers) :
    m ∈ b.marshallers ∨ m = ⟨v, strategy⟩ := by
  obtain ⟨-, hmarshallers, -⟩ := bind_cases h
  exact mem_marshallers_add (hmarshallers ▸ hm)

/-! ### Asked for

A strategy is drawn from the types when one of them asks for it, or when it is that of an array. -/

/-- The strategy is that for an array shape, or for one of the types. -/
def Strategy.DrawnFrom (types : List ExposedType) (strategy : Strategy) : Prop :=
  (∃ s, strategy = .array s) ∨ ∃ t ∈ types, t.strategy? = some strategy

theorem Generator.kept_drawn (types : List ExposedType) :
    Kept types fun b => ∀ m ∈ b.marshallers, m.strategy.DrawnFrom types where
  start := nofun
  shape hb h m hm := by
    rcases Builder.mem_marshallers_bind h hm with hold | rfl
    · exact hb m hold
    · exact .inl ⟨_, rfl⟩
  declared hb ht hstrategy h m hm := by
    rcases Builder.mem_marshallers_bind h hm with hold | rfl
    · exact hb m hold
    · exact .inr ⟨_, ht, hstrategy⟩
  bound hb h m hm := by
    obtain ⟨-, hmarshallers, -⟩ := Builder.bind_cases h
    exact hb m (hmarshallers ▸ hm)

/-- Every marshaller of a plan is that of an array shape, or follows from the declaration of a type
of the catalog. -/
theorem Generator.drawn_of_plan {g : Generator} {package className : String} {p : Plan}
    (h : g.plan package className = .ok p) :
    ∀ m ∈ p.marshallers, m.strategy.DrawnFrom g.catalog.types := by
  obtain ⟨b, hb, rfl⟩ := kept_of_plan (kept_drawn _) h
  exact hb

/-! ### Bound under their names

Objects and enums carry the name of their type with them.  It is the identifier they are bound to
when they are entered, and that stays so. -/

/-- The object or enum type that a strategy describes. -/
def Strategy.nominal? : Strategy → Option String
  | .reflective type _ | .enumeration type _ => some type
  | .explicit _ _ | .array _ => none

theorem ExposedType.name_of_nominal? {t : ExposedType} {strategy : Strategy}
    (hstrategy : t.strategy? = some strategy) {type : String}
    (h : strategy.nominal? = some type) : type = t.name := by
  unfold strategy? at hstrategy
  split at hstrategy
  · cases hstrategy
    cases h
  · cases hstrategy
    cases h
    rfl
  · cases hstrategy
    cases h
    rfl
  · obtain ⟨s, -, rfl⟩ := Option.map_eq_some_iff.1 hstrategy
    cases h
  · cases hstrategy

/-- The name of every object or enum type with a marshaller is bound to that. -/
def Builder.Anchored (b : Builder) : Prop :=
  ∀ m ∈ b.marshallers, ∀ type, m.strategy.nominal? = some type →
    b.binding? type = some m.variableName

namespace Builder

/-- What is bound stays bound. -/
theorem Anchored.bind {b b' : Builder} {id v : String} (hb : b.Anchored)
    (h : b.bind id v = .ok b') : b'.Anchored := by
  obtain ⟨hnone, hmarshallers, hbinding⟩ := bind_cases h
  intro m hm type htype
  have hbound := hb m (hmarshallers ▸ hm) type htype
  rw [hbinding, if_neg, hbound]
  rintro rfl
  cases hnone.symm.trans hbound

/-- A marshaller may be added together with a binding of its type. -/
theorem Anchored.added {b b' : Builder} {id v : String} {strategy : Strategy} (hb : b.Anchored)
    (hstrategy : ∀ type, strategy.nominal? = some type → type = id)
    (h : (b.add v strategy).bind id v = .ok b') : b'.Anchored := by
  obtain ⟨hnone, -, hbinding⟩ := bind_cases h
  intro m hm type htype
  rw [hbinding, binding?_add]
  rw [binding?_add] at hnone
  rcases mem_marshallers_bind h hm with hold | rfl
  · have hbound := hb m hold type htype
    rw [if_neg, hbound]
    rintro rfl
    cases hnone.symm.trans hbound
  · rw [if_pos (hstrategy type htype).symm]

end Builder

theorem Generator.kept_anchored (types : List ExposedType) : Kept types Builder.Anchored where
  start := nofun
  shape hb h := by
    refine hb.added (fun _ htype => ?_) h
    cases htype
  declared hb _ hstrategy h :=
    hb.added (fun _ htype => ExposedType.name_of_nominal? hstrategy htype) h
  bound hb h := hb.bind h

/-- The name of every object or enum type that a plan has a marshaller for is bound to that. -/
theorem Generator.anchored_of_plan {g : Generator} {package className : String} {p : Plan}
    (h : g.plan package className = .ok p) {m : Planned} (hm : m ∈ p.marshallers) {type : String}
    (htype : m.strategy.nominal? = some type) : p.bindings.get? type = some m.variableName := by
  obtain ⟨b, hb, rfl⟩ := kept_of_plan (kept_anchored _) h
  exact hb m hm type htype

end TaggedWire
