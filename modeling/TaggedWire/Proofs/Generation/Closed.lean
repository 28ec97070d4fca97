import TaggedWire.Proofs.Factory.Built
import TaggedWire.Proofs.Generation.Progress
import Mathlib.Data.List.Nodup

/-!
# Plans are closed

The plan of a catalog binds every name and alias and the arrays that are asked for, and nothing
else; distinct types do not share a marshaller; and whatever a marshaller of the plan needs is bound
as well.  So the factory of the plan exists, and what its marshallers look up is there.

* `progress_of_plan`: a plan is the end of a run over all types of the catalog.
* `plan_closed`: what a plan binds, and that its factory lacks nothing.
-/

namespace TaggedWire

namespace Catalog

/-- The identifiers under which a type is taken, each with the type. -/
def taken (c : Catalog) (t : ExposedType) : List (String × ExposedType) :=
  (t.name :: c.aliasesOf t.name).map (·, t)

/-- The identifier is the name of the type or an alias of it. -/
def Denotes (c : Catalog) (id : String) (t : ExposedType) : Prop :=
  id = t.name ∨ c.aliases.get? id = some t.name

theorem mem_aliasesOf {c : Catalog} {id name : String} :
    id ∈ c.aliasesOf name ↔ c.aliases.get? id = some name := by
  simp [aliasesOf, ← Table.mem_entries_iff]

theorem mem_taken {c : Catalog} {id : String} {t u : ExposedType} :
    (id, u) ∈ c.taken t ↔ u = t ∧ c.Denotes id t := by
  simp only [taken, List.mem_map, List.mem_cons, Prod.mk.injEq, mem_aliasesOf, Denotes]
  constructor
  · rintro ⟨_, hid, rfl, rfl⟩
    exact ⟨rfl, hid⟩
  · rintro ⟨rfl, hid⟩
    exact ⟨id, hid, rfl, rfl⟩

theorem mem_flatMap_taken {c : Catalog} {types : List ExposedType} {id : String}
    {t : ExposedType} : (id, t) ∈ types.flatMap c.taken ↔ t ∈ types ∧ c.Denotes id t := by
  rw [List.mem_flatMap]
  constructor
  · rintro ⟨u, hu, hmem⟩
    obtain ⟨rfl, hid⟩ := mem_taken.1 hmem
    exact ⟨hu, hid⟩
  · rintro ⟨ht, hid⟩
    exact ⟨t, ht, mem_taken.2 ⟨rfl, hid⟩⟩

theorem Sound.eq_of_name {c : Catalog} (h : c.Sound) {t u : ExposedType} (ht : t ∈ c.types)
    (hu : u ∈ c.types) (hname : t.name = u.name) : t = u :=
  List.inj_on_of_nodup_map h.nodup ht hu hname

/-- No name or alias denotes two types. -/
theorem Sound.eq_of_denotes {c : Catalog} (h : c.Sound) {id : String} {t u : ExposedType}
    (ht : t ∈ c.types) (hu : u ∈ c.types) (hidt : c.Denotes id t) (hidu : c.Denotes id u) :
    t = u := by
  have hfresh : ∀ {x y : ExposedType}, y ∈ c.types → c.aliases.get? y.name ≠ some x.name :=
    fun hy halias => (h.aliases _ _ halias).fresh (List.mem_map_of_mem hy)
  rcases hidt with rfl | hidt <;> rcases hidu with hid | hidu
  · exact h.eq_of_name ht hu hid
  · exact absurd hidu (hfresh ht)
  · subst hid
    exact absurd hidt (hfresh hu)
  · exact h.eq_of_name ht hu (Option.some.inj (hidt.symm.trans hidu))

/-- An alias is not the identifier of an array. -/
theorem Sound.alias_ne_id {c : Catalog} (hsound : c.Sound) {name target : String}
    (h : c.aliases.get? name = some target) {s : ArraySignature} (hs : s.type.Spelled) :
    s.id ≠ name := by
  intro heq
  obtain ⟨-, -, parsed, hparse, hplain, hid⟩ := hsound.aliases _ _ h
  obtain rfl := hs.id_injective ⟨_, hparse⟩ (heq.trans hid.symm)
  cases hplain

/-- The name of an object or enum is not the identifier of an array. -/
theorem Sound.name_ne_id {c : Catalog} (hsound : c.Sound) {t : ExposedType} (ht : t ∈ c.types)
    (hshape : (∃ fields, t.shape = .object fields) ∨ ∃ variants, t.shape = .enumeration variants)
    {s : ArraySignature} (hs : s.type.Spelled) : s.id ≠ t.name := by
  intro heq
  obtain ⟨parsed, hparse, hid, hfits⟩ := (hsound.types t ht).named
  obtain rfl := hs.id_injective ⟨_, hparse⟩ (heq.trans hid.symm)
  rcases hshape with ⟨fields, hshape⟩ | ⟨variants, hshape⟩ <;>
  · rw [hshape] at hfits
    exact hfits

end Catalog

/-! ### The run over the types

The types are taken one after the other, those with a class first.  `Progress.addType` is the step
lemma and `Progress.run` the run lemma: at the end of the run all names, aliases and array shapes of
the catalog are accounted for. -/

namespace Progress

variable {providers : Providers} {done : List (String × ExposedType)}
  {shapes : List ArraySignature} {c c' : Context}

/-- The identifier of its own shape is the name of an array type. -/
theorem shape_of_strategy? {t : ExposedType} (ht : t.Sound) {s : ArraySignature}
    (h : t.strategy? = some (.array s)) : s ∈ t.shapes ∧ s.id = t.name := by
  obtain ⟨⟨parsed, hparse, hid, -⟩, -, -⟩ := ht
  obtain ⟨name, shape, className⟩ := t
  cases className with
  | some className => cases shape <;> cases h
  | none =>
    cases shape with
    | array =>
      have hmap : (ExposedType.spelledShape? ⟨name, .array, none⟩).map Strategy.array =
          some (.array s) := h
      obtain ⟨u, hu, heq⟩ := Option.map_eq_some_iff.1 hmap
      cases heq
      -- the name is read once for the check and once for the shape
      have hsignature : parsed.signature? = some s := by
        rw [ExposedType.spelledShape?, hparse] at hu
        exact hu
      refine ⟨?_, ?_⟩
      · show s ∈ (ExposedType.spelledShape? ⟨name, .array, none⟩).toList
        rw [hu]
        exact List.mem_cons_self
      · rw [← hid, TypeRef.eq_of_signature? hsignature]
        rfl
    | object _ | enumeration _ | unstructured => cases h

/-- The marshaller of a type whose name is the identifier of an array shape is that of the shape,
unless the type has a class. -/
theorem class_or_planned {cat : Catalog} (hsound : cat.Sound) {t : ExposedType} (ht : t ∈ cat.types)
    {s : ArraySignature} (hs : s.type.Spelled) (hname : s.id = t.name) {m : Planned}
    (hm : t.planned? = some m) : t.className.isSome = true ∨ m = s.planned := by
  cases hclass : t.className with
  | some className => exact .inl rfl
  | none =>
    refine .inr ?_
    obtain ⟨strategy, hstrategy, rfl⟩ := Option.map_eq_some_iff.1 hm
    -- the name of an object or enum is not spelled like an array
    cases hshape : t.shape with
    | object fields => exact (hsound.name_ne_id ht (.inl ⟨fields, hshape⟩) hs hname).elim
    | enumeration variants => exact (hsound.name_ne_id ht (.inr ⟨variants, hshape⟩) hs hname).elim
    | unstructured =>
      simp only [ExposedType.strategy?, hclass, hshape] at hstrategy
      cases hstrategy
    | array =>
      have harray : ∃ u, t.spelledShape? = some u ∧ strategy = .array u := by
        simp only [ExposedType.strategy?, hclass, hshape] at hstrategy
        obtain ⟨u, hu, rfl⟩ := Option.map_eq_some_iff.1 hstrategy
        exact ⟨u, hu, rfl⟩
      obtain ⟨u, hu, rfl⟩ := harray
      have hid := (shape_of_strategy? (hsound.types t ht) hstrategy).2
      rw [ArraySignature.eq_of_id (ExposedType.spelled_of_spelledShape? hu) hs
        (hid.trans hname.symm)]
      rfl

theorem addType (hp : Progress providers done shapes c) {cat : Catalog} {t : ExposedType}
    (ht : t.Sound) (hspelled : t.shape.Spelled)
    (hfresh : ∀ p ∈ done, p.1 ≠ t.name ∧ p.2.name ≠ t.name)
    (h : c.addType providers cat.aliasesOf t = .ok c') :
    Progress providers (done ++ cat.taken t) (shapes ++ t.shapes) c' ∧ c.Extends c' := by
  unfold Context.addType at h
  split at h
  · cases h
  · cases h
  · next c₁ strategy hselect =>
    obtain ⟨hp₁, hext₁, hstrategy, hwarranted⟩ := hp.select hspelled hselect
    obtain ⟨⟨c₂, v⟩, hadd, hbind⟩ := bind_eq_ok_iff.1 h
    have hshape : ∀ s, strategy = .array s → s ∈ shapes ++ t.shapes ∧ s.id = t.name := by
      rintro s rfl
      obtain ⟨hmem, hid⟩ := shape_of_strategy? ht hstrategy
      exact ⟨List.mem_append_right _ hmem, hid⟩
    obtain ⟨hp₂, hext₂, m, hm, hplanned, rfl⟩ :=
      hp₁.addStrategy hstrategy hfresh hwarranted hshape hadd
    obtain ⟨hp₃, hext₃⟩ := hp₂.bindAll hm hplanned hbind
    rw [List.append_assoc] at hp₃
    exact ⟨hp₃, (hext₁.trans hext₂).trans hext₃⟩

/-- By induction on the types still to come; those that have been taken stand before them. -/
theorem run {cat : Catalog} (hsound : cat.Sound) (hspelled : cat.Spelled)
    (before : List ExposedType) {types : List ExposedType}
    (hnodup : ((before ++ types).map (·.name)).Nodup)
    (hmem : ∀ t ∈ before ++ types, t ∈ cat.types)
    (hp : Progress providers (before.flatMap cat.taken) (before.flatMap (·.shapes)) c)
    (h : types.foldlM (Context.addType providers cat.aliasesOf) c = .ok c') :
    Progress providers ((before ++ types).flatMap cat.taken)
      ((before ++ types).flatMap (·.shapes)) c' ∧ c.Extends c' := by
  -- by induction on the types to come, with those taken before in front
  induction types generalizing before c with
  | nil =>
    cases h
    rw [List.append_nil]
    exact ⟨hp, .refl _⟩
  | cons t rest ih =>
    have hsplit : before ++ t :: rest = (before ++ [t]) ++ rest := by simp
    have ht : t ∈ cat.types := hmem t (List.mem_append_right _ List.mem_cons_self)
    -- no type before this one has its name, and so none has an alias of that spelling
    have hfresh : ∀ p ∈ before.flatMap cat.taken, p.1 ≠ t.name ∧ p.2.name ≠ t.name := by
      rintro ⟨id, u⟩ hmemp
      obtain ⟨hu', hdenotes⟩ := Catalog.mem_flatMap_taken.1 hmemp
      have hne : u.name ≠ t.name := by
        rw [List.map_append, List.map_cons, List.nodup_append] at hnodup
        exact hnodup.2.2 _ (List.mem_map_of_mem hu') _ List.mem_cons_self
      have hu := hmem u (List.mem_append_left _ hu')
      refine ⟨fun hid => hne ?_, hne⟩
      exact congrArg _ (hsound.eq_of_denotes hu ht hdenotes (.inl hid))
    rw [List.foldlM_cons] at h
    obtain ⟨c₁, hadd, hrest⟩ := bind_eq_ok_iff.1 h
    obtain ⟨hp₁, hext₁⟩ := hp.addType (hsound.types t ht) (hspelled t ht) hfresh hadd
    rw [hsplit] at hnodup hmem ⊢
    have hp₁' : Progress providers ((before ++ [t]).flatMap cat.taken)
        ((before ++ [t]).flatMap (·.shapes)) c₁ := by
      simpa using hp₁
    obtain ⟨hp₂, hext₂⟩ := ih _ hnodup hmem hp₁' hrest
    exact ⟨hp₂, hext₁.trans hext₂⟩

end Progress

namespace Generator

theorem ordered_perm (types : List ExposedType) : (ordered types).Perm types := by
  -- each of the two cuts is a partition
  have hderived : (types.filter (·.className.isNone)).Perm
      ((types.filter (·.className.isNone)).filter (·.shape.isEnumeration) ++
        (types.filter (·.className.isNone)).filter fun t => !t.shape.isEnumeration) :=
    (List.filter_append_perm _ _).symm
  have hclass : (types.filter (·.className.isSome) ++
      types.filter fun t => !t.className.isSome).Perm types := List.filter_append_perm _ _
  have hnone : (types.filter fun t => !t.className.isSome) =
      types.filter (·.className.isNone) := by
    congr 1
    funext t
    cases t.className <;> rfl
  rw [hnone] at hclass
  unfold ordered
  rw [List.append_assoc]
  exact (hderived.symm.append_left _).trans hclass

theorem catchAll_spelled : catchAll.type.Spelled := ⟨"any[]", rfl⟩

/-- The array shapes that a plan has been asked for: those of the types, and the one that is always
there. -/
def Asked (c : Catalog) (s : ArraySignature) : Prop :=
  (∃ t ∈ c.types, s ∈ t.shapes) ∨ s = catchAll

/-- A plan is made of a sound catalog, from its types in turn and then the array that is always
there. -/
theorem plan_eq_ok_iff {g : Generator} {package className : String} {p : Plan} :
    g.plan package className = .ok p ↔
      g.catalog.Sound ∧ ∃ made c,
        (ordered g.catalog.canonical.types).foldlM
          (Context.addType g.providers g.catalog.canonical.aliasesOf)
          (registered g.catalog.canonical) = .ok made ∧
        made.ensure catchAll.id catchAll.type = .ok c ∧
        p = c.builder.finish package className := by
  unfold plan
  constructor
  · intro h
    obtain ⟨⟨⟩, hvalid, h⟩ := bind_eq_ok_iff.1 h
    obtain ⟨made, hmade, h⟩ := bind_eq_ok_iff.1 h
    obtain ⟨c, hc, h⟩ := bind_eq_ok_iff.1 h
    exact ⟨Catalog.validate_eq_ok_iff.1 hvalid, made, c, hmade, hc, (Except.ok.inj h).symm⟩
  · rintro ⟨hsound, made, c, hmade, hc, rfl⟩
    refine bind_eq_ok_iff.2 ⟨(), Catalog.validate_eq_ok_iff.2 hsound, ?_⟩
    exact bind_eq_ok_iff.2 ⟨made, hmade, bind_eq_ok_iff.2 ⟨c, hc, rfl⟩⟩

/-- A plan is the end of a run in which every type is taken under its name and aliases, and what was
counted on has been bound. -/
theorem progress_of_plan {g : Generator} (hspelled : g.catalog.Spelled)
    {package className : String} {p : Plan} (h : g.plan package className = .ok p) :
    g.catalog.Sound ∧ ∃ done shapes c, Progress g.providers done shapes c ∧
      p = c.builder.finish package className ∧
      (∀ id t, (id, t) ∈ done ↔ t ∈ g.catalog.types ∧ g.catalog.Denotes id t) ∧
      (∀ s, s ∈ shapes ↔ Asked g.catalog s) ∧
      ∀ type, c.Resolves type → type = .any ∨ p.bindings.contains type.id = true := by
  obtain ⟨hsound, c₁, c₂, hfold, hensure, rfl⟩ := plan_eq_ok_iff.1 h
  have hperm : (ordered g.catalog.canonical.types).Perm g.catalog.types :=
    (ordered_perm _).trans (Catalog.sortByName_perm _)
  have hnodup : (([] ++ ordered g.catalog.canonical.types).map ExposedType.name).Nodup :=
    (hperm.map _).nodup_iff.2 hsound.nodup
  obtain ⟨hp₁, hext₁⟩ := (Progress.start (registered g.catalog.canonical).known).run hsound
    hspelled [] hnodup (fun t ht => hperm.mem_iff.1 ht) hfold
  obtain ⟨hp₂, hext₂, -⟩ := hp₁.ensure catchAll_spelled hensure
  have htaken : ∀ id t, (id, t) ∈ ([] ++ ordered g.catalog.canonical.types).flatMap
      g.catalog.taken ↔ t ∈ g.catalog.types ∧ g.catalog.Denotes id t := by
    intro id t
    rw [List.nil_append, Catalog.mem_flatMap_taken, hperm.mem_iff]
  -- the last request is the one for the catch-all array, which adds its shape to those asked for
  refine ⟨hsound, _, _, c₂, hp₂, rfl, htaken, fun s => ?_, fun type hresolves => ?_⟩
  · rw [List.nil_append, List.mem_append, List.mem_flatMap]
    refine or_congr ⟨?_, ?_⟩ ?_
    · rintro ⟨t, ht, hs⟩
      exact ⟨t, hperm.mem_iff.1 ht, hs⟩
    · rintro ⟨t, ht, hs⟩
      exact ⟨t, hperm.mem_iff.2 ht, hs⟩
    · exact List.mem_singleton
  · refine hresolves.imp id fun hknown => Context.contains_iff.2 ?_
    rcases Context.isKnown_iff.1 hknown with hmem | hbound
    · -- what was counted on is a name or an alias
      rw [(hext₁.trans hext₂).known] at hmem
      have hdenotes : ∃ t ∈ g.catalog.types, g.catalog.Denotes type.id t := by
        rcases List.mem_append.1 hmem with hname | halias
        · obtain ⟨t, ht, hname⟩ := List.mem_map.1 hname
          exact ⟨t, Catalog.mem_canonical.1 ht, .inl hname.symm⟩
        · obtain ⟨⟨_, target⟩, hentry, heq⟩ := List.mem_map.1 halias
          cases heq
          have htarget := (Table.mem_entries_iff _ _ _).1 hentry
          obtain ⟨t, ht, hname⟩ := List.mem_map.1 (hsound.aliases _ _ htarget).declared
          exact ⟨t, ht, .inr (hname ▸ htarget)⟩
      obtain ⟨t, ht, hid⟩ := hdenotes
      obtain ⟨m, -, -, hbinding⟩ := hp₂.ofType _ t ((htaken _ _).2 ⟨ht, hid⟩)
      exact ⟨m.variableName, hbinding⟩
    · exact hbound

end Generator

/-! ### Closed plans

`Plan.ClosedOver` is the invariant read at the end of the run, in terms of the plan and the
catalog. -/

/-- What the plan of a catalog binds. -/
structure Plan.ClosedOver (p : Plan) (c : Catalog) : Prop where
  /-- The identifiers are the names, the aliases, `any[]`, and the array types of the fields of
  objects without a class. -/
  bound : ∀ id, p.bindings.contains id = true ↔
    id ∈ c.names ∨ c.aliases.contains id = true ∨ id = "any[]" ∨
      ∃ t ∈ c.types, t.className = none ∧ ∃ fields, t.shape = .object fields ∧
        ∃ f ∈ fields, f.declared.signature?.isSome = true ∧ f.declared.id = id
  /-- An alias shares the variable of the type that it is resolved to. -/
  aliases : ∀ name target, c.aliases.get? name = some target →
    ∃ t v, c.resolve? name = some t ∧ p.bindings.get? t.name = some v ∧
      p.bindings.get? name = some v
  /-- Types do not share a variable. -/
  distinct : ∀ t ∈ c.types, ∀ u ∈ c.types, t.name ≠ u.name →
    p.bindings.get? t.name ≠ p.bindings.get? u.name
  /-- Variables differ. -/
  nodup : p.variableNames.Nodup
  /-- Identifiers are bound to variables of the plan. -/
  declared : ∀ id v, p.bindings.get? id = some v → v ∈ p.variableNames
  /-- The types of fields are bound. -/
  fields : ∀ m ∈ p.marshallers, ∀ type fields, m.strategy = .reflective type fields →
    ∀ f ∈ fields, f.declared ≠ .any → p.bindings.contains f.declared.id = true
  /-- So are the components of arrays. -/
  components : ∀ m ∈ p.marshallers, ∀ s, m.strategy = .array s →
    s.component ≠ .any → p.bindings.contains s.component.id = true

/-- No type that a marshaller of the plan declares for a part is missing in the factory. -/
structure Factory.Serves (f : Factory) (p : Plan) : Prop where
  fields : ∀ m ∈ p.marshallers, ∀ type fields, m.strategy = .reflective type fields →
    ∀ field ∈ fields, field.declared ≠ .any →
      ∀ owner, ∃ i, f.require field.declared.id owner = .ok i
  components : ∀ m ∈ p.marshallers, ∀ s, m.strategy = .array s → s.component ≠ .any →
    ∀ owner, ∃ i, f.require s.component.id owner = .ok i

theorem Strategy.exists_instantiate {providers : Providers} {c : Context} {strategy : Strategy}
    (h : strategy.Warranted providers c) : ∃ x, strategy.instantiate providers = .ok x := by
  cases strategy with
  | explicit className type =>
    obtain ⟨x, hx⟩ := Option.isSome_iff_exists.1 h
    exact ⟨x, (Providers.create_eq_ok_iff _ _ _ _).2 hx⟩
  | array s => exact ⟨_, rfl⟩
  | enumeration type variants => exact ⟨_, rfl⟩
  | reflective type fields => exact ⟨_, rfl⟩

/-- The variable is made of the identifier, taken as the name of a type or as that of an array. -/
def VariableOf (variableName id : String) : Prop :=
  variableName = Context.typeVariable id ∨
    ∃ s : ArraySignature, variableName = s.variableName ∧ id = s.id

theorem VariableOf.unique {v id id' : String} (h : VariableOf v id) (h' : VariableOf v id') :
    id = id' := by
  rcases h with hname | ⟨s, hs, rfl⟩ <;> rcases h' with hname' | ⟨t, ht, rfl⟩
  · exact Context.typeVariable_injective (hname.symm.trans hname')
  · exact absurd (hname.symm.trans ht) (typeVariable_ne_variableName _ _)
  · exact absurd (hname'.symm.trans hs) (typeVariable_ne_variableName _ _)
  · exact ArraySignature.id_eq_of_variableName (hs.symm.trans ht)

namespace Generator

variable {g : Generator} {package className : String} {p : Plan}

/-- The marshaller of a type has a variable made of the name of the type. -/
theorem variableOf_of_planned {t : ExposedType} {m : Planned} (ht : t.Sound)
    (hm : t.planned? = some m) : VariableOf m.variableName t.name := by
  rcases ExposedType.planned?_cases hm with hname | ⟨s, rfl, hs⟩
  · exact .inl hname
  · -- an array type without a class is named by the identifier of its shape
    exact .inr ⟨s, rfl, (Progress.shape_of_strategy? ht hs).2.symm⟩

section

variable {done : List (String × ExposedType)} {shapes : List ArraySignature} {c : Context}
  {id : String}

/-- The marshaller of a type is that of each of its names. -/
theorem exists_denoted (hp : Progress g.providers done shapes c)
    (hdone : ∀ id t, (id, t) ∈ done ↔ t ∈ g.catalog.types ∧ g.catalog.Denotes id t)
    {t : ExposedType} (ht : t ∈ g.catalog.types) (hid : g.catalog.Denotes id t) :
    ∃ m ∈ c.builder.marshallers, t.planned? = some m ∧
      c.builder.binding? id = some m.variableName :=
  hp.ofType id t ((hdone id t).2 ⟨ht, hid⟩)

/-- Whatever is bound is a name, an alias, or an array shape that was asked for. -/
theorem exposed_of_origin {m : Planned} (hsound : g.catalog.Sound)
    (hdone : ∀ id t, (id, t) ∈ done ↔ t ∈ g.catalog.types ∧ g.catalog.Denotes id t)
    (hshapes : ∀ s, s ∈ shapes ↔ Asked g.catalog s) (h : Origin done shapes id m) :
    id ∈ g.catalog.names ∨ g.catalog.aliases.contains id = true ∨ id = "any[]" ∨
      ∃ t ∈ g.catalog.types, t.className = none ∧ ∃ fields, t.shape = .object fields ∧
        ∃ f ∈ fields, f.declared.signature?.isSome = true ∧ f.declared.id = id := by
  -- every origin is one of the four reasons for which an identifier is exposed
  cases h with
  | type t mem planned =>
    obtain ⟨ht, rfl | hid⟩ := (hdone id t).1 mem
    · exact .inl (List.mem_map_of_mem ht)
    · exact .inr (.inl (Option.isSome_iff_exists.2 ⟨_, hid⟩))
  | shape s mem planned eq =>
    rcases (hshapes s).1 mem with ⟨t, ht, hs⟩ | rfl
    · obtain ⟨hclass, ⟨fields, hshape, f, hf, hsignature⟩ | ⟨harray, hspelled⟩⟩ :=
        ExposedType.mem_shapes.1 hs
      · refine .inr (.inr (.inr ⟨t, ht, hclass, fields, hshape, f, hf, ?_, ?_⟩))
        · rw [hsignature]
          rfl
        · rw [eq, TypeRef.eq_of_signature? hsignature]
          rfl
      · -- an exposed array is bound under its name, which is the identifier of its shape
        have hstrategy : t.strategy? = some (.array s) := by
          simp [ExposedType.strategy?, hclass, harray, hspelled]
        obtain ⟨-, hname⟩ := Progress.shape_of_strategy? (hsound.types t ht) hstrategy
        rw [eq, hname]
        exact .inl (List.mem_map_of_mem ht)
    · exact .inr (.inr (.inl eq))

/-- Names, aliases and the array shapes that are asked for are bound. -/
theorem contains_of_exposed (hp : Progress g.providers done shapes c) (hsound : g.catalog.Sound)
    (hdone : ∀ id t, (id, t) ∈ done ↔ t ∈ g.catalog.types ∧ g.catalog.Denotes id t)
    (hshapes : ∀ s, s ∈ shapes ↔ Asked g.catalog s)
    (h : id ∈ g.catalog.names ∨ g.catalog.aliases.contains id = true ∨ id = "any[]" ∨
      ∃ t ∈ g.catalog.types, t.className = none ∧ ∃ fields, t.shape = .object fields ∧
        ∃ f ∈ fields, f.declared.signature?.isSome = true ∧ f.declared.id = id) :
    c.builder.bindings.contains id = true := by
  rcases h with hname | halias | rfl | ⟨t, ht, hclass, fields, hshape, f, hf, hsignature, rfl⟩
  · obtain ⟨t, ht, rfl⟩ := List.mem_map.1 hname
    obtain ⟨m, -, -, hbinding⟩ := exists_denoted hp hdone ht (.inl rfl)
    exact Context.contains_iff.2 ⟨_, hbinding⟩
  · obtain ⟨target, htarget⟩ := Option.isSome_iff_exists.1 halias
    obtain ⟨t, ht, rfl⟩ := List.mem_map.1 (hsound.aliases _ _ htarget).declared
    obtain ⟨m, -, -, hbinding⟩ := exists_denoted hp hdone ht (.inr htarget)
    exact Context.contains_iff.2 ⟨_, hbinding⟩
  · exact hp.ofShape catchAll ((hshapes _).2 (.inr rfl))
  · obtain ⟨s, hs⟩ := Option.isSome_iff_exists.1 hsignature
    rw [TypeRef.eq_of_signature? hs]
    refine hp.ofShape s ((hshapes s).2 (.inl ⟨t, ht, ?_⟩))
    exact ExposedType.mem_shapes.2 ⟨hclass, .inl ⟨fields, hshape, f, hf, hs⟩⟩

/-- An alias is bound as the type is that it is resolved to. -/
theorem exists_resolved (hp : Progress g.providers done shapes c) (hsound : g.catalog.Sound)
    (hdone : ∀ id t, (id, t) ∈ done ↔ t ∈ g.catalog.types ∧ g.catalog.Denotes id t)
    {target : String} (halias : g.catalog.aliases.get? id = some target) :
    ∃ t v, g.catalog.resolve? id = some t ∧ c.builder.binding? t.name = some v ∧
      c.builder.binding? id = some v := by
  obtain ⟨u, hu, hname⟩ := List.mem_map.1 (hsound.aliases _ _ halias).declared
  have hfound : ∃ t, g.catalog.get? target = some t :=
    Option.isSome_iff_exists.1 (List.find?_isSome.2 ⟨u, hu, by simpa using hname⟩)
  obtain ⟨t, ht⟩ := hfound
  have htarget : t.name = target := by simpa using List.find?_some ht
  have hmem := List.mem_of_find?_eq_some ht
  -- the name and its alias denote one type, for which one marshaller is planned
  obtain ⟨m, -, hm, hself⟩ := exists_denoted hp hdone hmem (.inl rfl)
  obtain ⟨n, -, hn, hbinding⟩ := exists_denoted hp hdone hmem (.inr (htarget ▸ halias))
  rw [hm] at hn
  cases hn
  exact ⟨t, m.variableName, (Catalog.resolve?_alias halias).trans ht, hself, hbinding⟩

end

theorem closedOver_of_plan (hspelled : g.catalog.Spelled)
    (h : g.plan package className = .ok p) : p.ClosedOver g.catalog := by
  obtain ⟨hsound, done, shapes, c, hp, rfl, hdone, hshapes, hresolves⟩ :=
    progress_of_plan hspelled h
  constructor
  case bound =>
    intro id
    constructor
    · intro hbound
      obtain ⟨v, hv⟩ := Context.contains_iff.1 hbound
      obtain ⟨m, -, -, horigin⟩ := hp.ofBinding id v hv
      -- what is bound has an origin, and what is exposed has been taken or asked for
      exact exposed_of_origin hsound hdone hshapes horigin
    · exact contains_of_exposed hp hsound hdone hshapes
  case aliases =>
    intro name target halias
    exact exists_resolved hp hsound hdone halias
  case distinct =>
    intro t ht u hu hne heq
    obtain ⟨m, -, hm, hmt⟩ := exists_denoted hp hdone ht (.inl rfl)
    obtain ⟨n, -, hn, hnu⟩ := exists_denoted hp hdone hu (.inl rfl)
    -- the variable of a marshaller tells the identifier it was made for
    have hvariables := Option.some.inj (hmt.symm.trans (heq.trans hnu))
    have hname := variableOf_of_planned (hsound.types t ht) hm
    rw [hvariables] at hname
    exact hne (hname.unique (variableOf_of_planned (hsound.types u hu) hn))
  case nodup => exact hp.nodup
  case declared =>
    intro id v hv
    obtain ⟨m, hm, rfl, -⟩ := hp.ofBinding id v hv
    exact List.mem_map_of_mem hm
  case fields =>
    intro m hm type fields hstrategy f hf hany
    have hwarranted := hp.warranted m hm
    rw [hstrategy] at hwarranted
    exact (hresolves _ (hwarranted f hf)).resolve_left hany
  case components =>
    intro m hm s hstrategy hany
    have hwarranted := hp.warranted m hm
    rw [hstrategy] at hwarranted
    exact (hresolves _ hwarranted).resolve_left hany

theorem exists_factory_of_plan (hspelled : g.catalog.Spelled)
    (h : g.plan package className = .ok p) : ∃ f, Factory.ofPlan p g.providers = .ok f := by
  have hclosed := closedOver_of_plan hspelled h
  obtain ⟨-, _, _, c, hp, rfl, -⟩ := progress_of_plan hspelled h
  refine Factory.exists_ofPlan ((Plan.validate_eq_ok_iff _).2 ⟨hclosed.nodup, ?_⟩) fun m hm =>
    Strategy.exists_instantiate (hp.warranted m hm)
  rintro ⟨id, v⟩ he
  exact hclosed.declared id v ((Table.mem_entries_iff _ _ _).1 he)

/-- A bound identifier is never missing in the factory. -/
theorem exists_require {f : Factory} (hf : Factory.ofPlan p g.providers = .ok f) {id : String}
    (hid : p.bindings.contains id = true) (owner : String) : ∃ i, f.require id owner = .ok i := by
  obtain ⟨v, hv⟩ := Option.isSome_iff_exists.1 hid
  obtain ⟨i, hi⟩ := Factory.exists_lookup hf hv
  exact ⟨i, (Factory.require_eq_ok_iff _ _ _ _).2 hi⟩

/-- The plan of a catalog that is made of documents is total, unambiguous and closed, and its
factory exists and lacks nothing that its marshallers look up. -/
theorem plan_closed (hdocumented : g.catalog.Documented) (h : g.plan package className = .ok p) :
    p.ClosedOver g.catalog ∧ ∃ f, Factory.ofPlan p g.providers = .ok f ∧ f.Serves p := by
  have hclosed := closedOver_of_plan hdocumented.spelled h
  obtain ⟨f, hf⟩ := exists_factory_of_plan hdocumented.spelled h
  refine ⟨hclosed, f, hf, ?_, ?_⟩
  · intro m hm type fields hstrategy field hfield hany owner
    exact exists_require hf (hclosed.fields m hm type fields hstrategy field hfield hany) owner
  · intro m hm s hstrategy hany owner
    exact exists_require hf (hclosed.components m hm s hstrategy hany) owner

/-- An object type with an array of itself in a field, and an alias of it. -/
def knotDocument : String :=
  "\x7b\"types\":[\x7b\"name\":\"Knot\",\"kind\":\"object\",\"fields\":[" ++
    "\x7b\"name\":\"ends\",\"type\":\"Knot[][]\"\x7d]\x7d]," ++
    "\"aliases\":\x7b\"Loop\":\"Knot\"\x7d\x7d"

/-- The catalog of the document. -/
def knots : Catalog :=
  ⟨[⟨"Knot", .object [⟨"ends", .array (.named "Knot") 2, true, true⟩], none⟩],
    Table.ofList [("Loop", "Knot")]⟩

theorem parse_knotDocument : Catalog.parse .json knotDocument = .ok knots := by
  have h : (Catalog.parse .json knotDocument).toOption = some knots := by decide +kernel
  exact toOption_eq_some_iff.1 h

/-- The plan for a catalog over the built-in types. -/
def planOver (d : Catalog) : Except Error Plan := do
  let c ← Catalog.builtin.merged d
  (⟨c, Providers.builtin⟩ : Generator).plan "demo" "Factory"

theorem planOver_knots : (planOver knots).toOption.isSome = true := by decide +kernel

/-- The knots and their grid, with an alias. -/
theorem plan_closed_knots : ∃ c p, Catalog.builtin.merged knots = .ok c ∧
    (⟨c, Providers.builtin⟩ : Generator).plan "demo" "Factory" = .ok p ∧ p.ClosedOver c ∧
      ∃ f, Factory.ofPlan p Providers.builtin = .ok f ∧ f.Serves p := by
  obtain ⟨p, hp⟩ := Option.isSome_iff_exists.1 planOver_knots
  obtain ⟨c, hc, hplan⟩ := bind_eq_ok_iff.1 (toOption_eq_some_iff.1 hp)
  exact ⟨c, p, hc, hplan, plan_closed (.merged .builtin (.parse parse_knotDocument) hc) hplan⟩

end Generator
end TaggedWire
