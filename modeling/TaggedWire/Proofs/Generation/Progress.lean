import TaggedWire.Generation.Generator
import TaggedWire.Proofs.Catalog.Sound
import TaggedWire.Proofs.TypeRef.Variable

/-!
# A plan under way

What holds of the context while types are taken one after the other.  Every binding and every
marshaller has an `Origin`: a name or alias that has been taken, or an array shape that has been
asked for.  `Progress` says this, and that nothing taken or asked for is missing.  It also says that
each marshaller is warranted: its class is provided, and its parts will be found.

* `Progress.ensure`, `Progress.select`: asking for types keeps it.
* `Progress.addStrategy`, `Progress.bindAll`: so does taking names and aliases.
-/

namespace TaggedWire

/-! ### What a type leads to

What is planned for a type depends on the type alone: its strategy, the marshaller of it, and the
array shapes that are asked for on its behalf.  Spelled array shapes are told apart by their
identifiers. -/

/-- The marshaller of an array shape in a plan. -/
def ArraySignature.planned (s : ArraySignature) : Planned := ⟨s.variableName, .array s⟩

/-- The marshaller that a strategy for the named type leads to. -/
def Strategy.planned (name : String) : Strategy → Planned
  | .array s => s.planned
  | strategy => ⟨Context.typeVariable name, strategy⟩

namespace ExposedType

/-- The shape that an array type spells. -/
def spelledShape? (t : ExposedType) : Option ArraySignature :=
  (TypeRef.parse t.name).toOption.bind TypeRef.signature?

/-- The strategy for a type, if there is one. -/
def strategy? (t : ExposedType) : Option Strategy :=
  match t.className, t.shape with
  | some className, _ => some (.explicit className t.name)
  | none, .object fields => some (.reflective t.name fields)
  | none, .enumeration variants => some (.enumeration t.name variants)
  | none, .array => t.spelledShape?.map .array
  | none, .unstructured => none

/-- The marshaller that a plan has for a type. -/
def planned? (t : ExposedType) : Option Planned := t.strategy?.map (Strategy.planned t.name)

/-- The array shapes that a type without a class asks for. -/
def shapes (t : ExposedType) : List ArraySignature :=
  match t.className, t.shape with
  | none, .object fields => fields.filterMap (·.declared.signature?)
  | none, .array => t.spelledShape?.toList
  | _, _ => []

theorem mem_shapes {t : ExposedType} {s : ArraySignature} :
    s ∈ t.shapes ↔ t.className = none ∧
      ((∃ fields, t.shape = .object fields ∧ ∃ f ∈ fields, f.declared.signature? = some s) ∨
        t.shape = .array ∧ t.spelledShape? = some s) := by
  unfold shapes
  cases t.className with
  | some className => cases t.shape <;> simp
  | none => cases t.shape <;> simp

end ExposedType

theorem ArraySignature.planned_injective {s t : ArraySignature} (h : s.planned = t.planned) :
    s = t := Strategy.array.inj (congrArg Planned.strategy h)

theorem ExposedType.planned?_cases {t : ExposedType} {m : Planned} (h : t.planned? = some m) :
    m.variableName = Context.typeVariable t.name ∨
      ∃ s : ArraySignature, m = s.planned ∧ t.strategy? = some (.array s) := by
  obtain ⟨strategy, hstrategy, rfl⟩ := Option.map_eq_some_iff.1 h
  cases strategy with
  | array s => exact .inr ⟨s, rfl, hstrategy⟩
  | explicit _ _ | enumeration _ _ | reflective _ _ => exact .inl rfl

theorem TypeRef.eq_of_signature? {t : TypeRef} {s : ArraySignature} (h : t.signature? = some s) :
    t = s.type := by
  cases t with
  | array component dimensions =>
    cases h
    rfl
  | _ => cases h

theorem TypeRef.Spelled.shape {t : TypeRef} {s : ArraySignature} (ht : t.Spelled)
    (h : t.signature? = some s) : s.type.Spelled :=
  TypeRef.eq_of_signature? h ▸ ht

/-- What the name of an array type spells is spelled. -/
theorem ExposedType.spelled_of_spelledShape? {t : ExposedType} {s : ArraySignature}
    (h : t.spelledShape? = some s) : s.type.Spelled := by
  obtain ⟨type, hparse, hsignature⟩ := Option.bind_eq_some_iff.1 h
  exact TypeRef.Spelled.shape ⟨_, toOption_eq_some_iff.1 hparse⟩ hsignature

theorem ArraySignature.eq_of_id {s t : ArraySignature} (hs : s.type.Spelled) (ht : t.type.Spelled)
    (h : s.id = t.id) : s = t := by
  have htype := hs.id_injective ht h
  cases s
  cases t
  cases htype
  rfl

/-! ### The invariant

The list `done` holds the names and aliases taken so far, each with its type, and `shapes` the array
shapes asked for.  `Progress` looks at the bindings from both sides: what is bound has been taken or
asked for, and what has been taken or asked for is bound. -/

/-- Why a marshaller is bound to an identifier: a type has been taken under it, or it is the
identifier of an array shape that has been asked for. -/
inductive Origin (done : List (String × ExposedType)) (shapes : List ArraySignature)
    (id : String) (m : Planned) : Prop
  | type (t : ExposedType) (mem : (id, t) ∈ done) (planned : t.planned? = some m)
  | shape (s : ArraySignature) (mem : s ∈ shapes) (planned : m = s.planned) (eq : id = s.id)

/-- A value of the type tells its own, or the type is counted on. -/
def Context.Resolves (c : Context) (t : TypeRef) : Prop := t = .any ∨ c.isKnown t.id = true

/-- What a strategy needs is there. -/
def Strategy.Warranted (providers : Providers) (c : Context) : Strategy → Prop
  | .explicit className _ => providers.contains className = true
  | .array s => c.Resolves s.component
  | .enumeration _ _ => True
  | .reflective _ fields => ∀ f ∈ fields, c.Resolves f.declared

/-- What holds of a context when types have been taken under these identifiers and these array
shapes have been asked for. -/
structure Progress (providers : Providers) (done : List (String × ExposedType))
    (shapes : List ArraySignature) (c : Context) : Prop where
  nodup : (c.builder.marshallers.map (·.variableName)).Nodup
  ofBinding : ∀ id v, c.builder.binding? id = some v →
    ∃ m ∈ c.builder.marshallers, m.variableName = v ∧ Origin done shapes id m
  ofMarshaller : ∀ m ∈ c.builder.marshallers,
    ∃ id, c.builder.binding? id = some m.variableName ∧ Origin done shapes id m
  ofType : ∀ id t, (id, t) ∈ done →
    ∃ m ∈ c.builder.marshallers, t.planned? = some m ∧ c.builder.binding? id = some m.variableName
  ofShape : ∀ s ∈ shapes, c.builder.bindings.contains s.id = true
  ofArray : ∀ s, s.planned ∈ c.builder.marshallers → s ∈ shapes
  spelled : ∀ s ∈ shapes, s.type.Spelled
  warranted : ∀ m ∈ c.builder.marshallers, m.strategy.Warranted providers c

/-- A context that counts on the same identifiers and has at least the same bindings. -/
structure Context.Extends (c c' : Context) : Prop where
  known : c'.known = c.known
  binding : ∀ id v, c.builder.binding? id = some v → c'.builder.binding? id = some v

namespace Context

theorem Extends.refl (c : Context) : c.Extends c := ⟨rfl, fun _ _ h => h⟩

theorem Extends.trans {c c' c'' : Context} (h : c.Extends c') (h' : c'.Extends c'') :
    c.Extends c'' :=
  ⟨h'.known.trans h.known, fun id v hv => h'.binding id v (h.binding id v hv)⟩

theorem contains_iff {b : Builder} {id : String} :
    b.bindings.contains id = true ↔ ∃ v, b.binding? id = some v := Option.isSome_iff_exists

theorem isKnown_iff {c : Context} {id : String} :
    c.isKnown id = true ↔ id ∈ c.known ∨ ∃ v, c.builder.binding? id = some v := by
  rw [isKnown, Bool.or_eq_true, List.contains_iff_mem, contains_iff]

theorem Extends.resolves {c c' : Context} (h : c.Extends c') {t : TypeRef} (ht : c.Resolves t) :
    c'.Resolves t := by
  refine ht.imp id fun hknown => isKnown_iff.2 ?_
  rcases isKnown_iff.1 hknown with hmem | ⟨v, hv⟩
  · exact .inl (h.known ▸ hmem)
  · exact .inr ⟨v, h.binding _ v hv⟩

end Context

theorem Strategy.Warranted.mono {providers : Providers} {c c' : Context} {strategy : Strategy}
    (hs : strategy.Warranted providers c) (h : ∀ t, c.Resolves t → c'.Resolves t) :
    strategy.Warranted providers c' := by
  cases strategy with
  | explicit className type => exact hs
  | array s => exact h _ hs
  | enumeration type variants => trivial
  | reflective type fields =>
    intro f hf
    exact h _ (hs f hf)

theorem Context.Extends.warranted {providers : Providers} {c c' : Context} (h : c.Extends c')
    {strategy : Strategy} (hs : strategy.Warranted providers c) :
    strategy.Warranted providers c' :=
  hs.mono fun _ => h.resolves

theorem Origin.mono {done done' : List (String × ExposedType)}
    {shapes shapes' : List ArraySignature} {id : String} {m : Planned}
    (hdone : ∀ p ∈ done, p ∈ done') (hshapes : ∀ s ∈ shapes, s ∈ shapes')
    (h : Origin done shapes id m) : Origin done' shapes' id m := by
  cases h with
  | type t mem planned => exact .type t (hdone _ mem) planned
  | shape s mem planned eq => exact .shape s (hshapes _ mem) planned eq

/-! ### One more marshaller, one more binding

Whatever a step does, it binds one more identifier (`Context.Binds`) and enters one more name, alias
or array shape (`Recorded`).  `extended` is the step lemma that the ones for particular steps are
built from. -/

namespace Builder

theorem has_eq_false_iff {b : Builder} {v : String} :
    b.has v = false ↔ v ∉ b.marshallers.map (·.variableName) := by
  simp [has]

theorem binding?_add (b : Builder) (v : String) (strategy : Strategy) (id : String) :
    (b.add v strategy).binding? id = b.binding? id := by
  unfold add
  split <;> rfl

theorem marshallers_add {b : Builder} {v : String} (h : b.has v = false) (strategy : Strategy) :
    (b.add v strategy).marshallers = b.marshallers ++ [⟨v, strategy⟩] := by
  simp [add, h]

theorem bind_cases {b b' : Builder} {id v : String} (h : b.bind id v = .ok b') :
    b.binding? id = none ∧ b'.marshallers = b.marshallers ∧
      ∀ id', b'.binding? id' = if id = id' then some v else b.binding? id' := by
  obtain ⟨hnone, rfl⟩ := (bind_eq_ok_iff _ _ _ _).1 h
  exact ⟨hnone, rfl, fun id' => Table.get?_insert _ _ _ _⟩

end Builder

/-- The builder has one binding more than the context: of an identifier that was free, to a
marshaller that may be new. -/
structure Context.Binds (c : Context) (b : Builder) (id : String) (m : Planned) : Prop where
  free : c.builder.binding? id = none
  binding : ∀ id', b.binding? id' =
    if id = id' then some m.variableName else c.builder.binding? id'
  nodup : (b.marshallers.map (·.variableName)).Nodup
  mem_iff : ∀ m', m' ∈ b.marshallers ↔ m' ∈ c.builder.marshallers ∨ m' = m

namespace Context.Binds

variable {c : Context} {b : Builder} {id : String} {m : Planned}

theorem self (h : c.Binds b id m) : b.binding? id = some m.variableName := by
  rw [h.binding, if_pos rfl]

theorem grows (h : c.Binds b id m) : c.Extends { c with builder := b } := by
  refine ⟨rfl, fun id' v hid' => ?_⟩
  have hne : id ≠ id' := by
    rintro rfl
    rw [h.free] at hid'
    cases hid'
  rw [h.binding, if_neg hne, hid']

/-- The marshaller has been there. -/
theorem of_bind (hnodup : (c.builder.marshallers.map (·.variableName)).Nodup)
    (hm : m ∈ c.builder.marshallers) (h : c.builder.bind id m.variableName = .ok b) :
    c.Binds b id m ∧ b.marshallers = c.builder.marshallers := by
  obtain ⟨hnone, hmarshallers, hbinding⟩ := Builder.bind_cases h
  refine ⟨⟨hnone, hbinding, hmarshallers ▸ hnodup, fun m' => ?_⟩, hmarshallers⟩
  rw [hmarshallers]
  exact ⟨.inl, fun h => h.elim (fun h => h) fun h => h ▸ hm⟩

/-- The marshaller comes with the binding, under a variable that was free. -/
theorem of_add (hnodup : (c.builder.marshallers.map (·.variableName)).Nodup)
    (hfresh : c.builder.has m.variableName = false)
    (h : (c.builder.add m.variableName m.strategy).bind id m.variableName = .ok b) :
    c.Binds b id m := by
  obtain ⟨hnone, hmarshallers, hbinding⟩ := Builder.bind_cases h
  rw [Builder.marshallers_add hfresh] at hmarshallers
  rw [Builder.binding?_add] at hnone
  simp only [Builder.binding?_add] at hbinding
  refine ⟨hnone, hbinding, ?_, fun m' => ?_⟩
  · rw [hmarshallers, List.map_append]
    refine List.nodup_append.2 ⟨hnodup, List.nodup_cons.2 ⟨List.not_mem_nil, List.nodup_nil⟩, ?_⟩
    rintro v hv w hw rfl
    cases List.mem_singleton.1 hw
    exact Builder.has_eq_false_iff.1 hfresh hv
  · rw [hmarshallers, List.mem_append, List.mem_singleton]

end Context.Binds

/-- What has been taken and asked for once the identifier is bound to the marshaller: all that was
before, and nothing more than this binding answers for. -/
structure Recorded (done done' : List (String × ExposedType))
    (shapes shapes' : List ArraySignature) (id : String) (m : Planned) : Prop where
  keepsDone : ∀ p ∈ done, p ∈ done'
  keepsShapes : ∀ s ∈ shapes, s ∈ shapes'
  origin : Origin done' shapes' id m
  types : ∀ id' t, (id', t) ∈ done' → (id', t) ∈ done ∨ id' = id ∧ t.planned? = some m
  asked : ∀ s ∈ shapes', s ∈ shapes ∨ s.id = id ∧ s.type.Spelled
  array : ∀ s, m = s.planned → s ∈ shapes'

/-- One more type, under the identifier that is bound. -/
theorem Recorded.taken {done : List (String × ExposedType)} {shapes : List ArraySignature}
    {id : String} {m : Planned} {t : ExposedType} (hplanned : t.planned? = some m)
    (harray : ∀ s, m = s.planned → s ∈ shapes) :
    Recorded done (done ++ [(id, t)]) shapes shapes id m where
  keepsDone _ := List.mem_append_left _
  keepsShapes _ h := h
  origin := .type t (List.mem_append_right _ List.mem_cons_self) hplanned
  types id' t' h := by
    refine (List.mem_append.1 h).imp_right fun h => ?_
    cases List.mem_singleton.1 h
    exact ⟨rfl, hplanned⟩
  asked _ h := .inl h
  array := harray

namespace Progress

variable {providers : Providers} {done : List (String × ExposedType)}
  {shapes : List ArraySignature} {c c' : Context}

/-- Before anything is taken. -/
theorem start (known : List String) : Progress providers [] [] { known := known } where
  nodup := List.nodup_nil
  ofBinding _ _ h := nomatch h
  ofMarshaller _ h := nomatch h
  ofType _ _ h := nomatch h
  ofShape _ h := nomatch h
  ofArray _ h := nomatch h
  spelled _ h := nomatch h
  warranted _ h := nomatch h

/-- A shape that is bound already may be asked for again. -/
theorem again (hp : Progress providers done shapes c) {s : ArraySignature} (hs : s.type.Spelled)
    (hbound : c.builder.bindings.contains s.id = true) :
    Progress providers done (shapes ++ [s]) c where
  -- nothing is made, so only the list of shapes grows
  nodup := hp.nodup
  ofBinding id v h := by
    obtain ⟨m, hm, hv, horigin⟩ := hp.ofBinding id v h
    exact ⟨m, hm, hv, horigin.mono (fun _ h => h) fun _ => List.mem_append_left _⟩
  ofMarshaller m hm := by
    obtain ⟨id, hid, horigin⟩ := hp.ofMarshaller m hm
    exact ⟨id, hid, horigin.mono (fun _ h => h) fun _ => List.mem_append_left _⟩
  ofType := hp.ofType
  ofShape u hu := by
    rcases List.mem_append.1 hu with hu | hu
    · exact hp.ofShape u hu
    · exact List.mem_singleton.1 hu ▸ hbound
  ofArray u hu := List.mem_append_left _ (hp.ofArray u hu)
  spelled u hu := by
    rcases List.mem_append.1 hu with hu | hu
    · exact hp.spelled u hu
    · exact List.mem_singleton.1 hu ▸ hs
  warranted := hp.warranted

/-- One more binding.  What was there before is accounted for as it was, and what is new goes back
to the binding: each part of the invariant is split along this line. -/
theorem extended (hp : Progress providers done shapes c) {done' : List (String × ExposedType)}
    {shapes' : List ArraySignature} {m : Planned} {id : String} {b : Builder}
    (hbinds : c.Binds b id m) (hrecorded : Recorded done done' shapes shapes' id m)
    (hwarranted : m.strategy.Warranted providers c) :
    Progress providers done' shapes' { c with builder := b } := by
  have hext := hbinds.grows
  have hmem := hbinds.mem_iff
  constructor
  case nodup => exact hbinds.nodup
  case ofBinding =>
    intro id' v h
    -- a binding is the new one, or was there before
    by_cases heq : id = id'
    · subst heq
      cases hbinds.self.symm.trans h
      exact ⟨m, (hmem m).2 (.inr rfl), rfl, hrecorded.origin⟩
    · rw [hbinds.binding, if_neg heq] at h
      obtain ⟨m', hm', hv, horigin⟩ := hp.ofBinding id' v h
      exact ⟨m', (hmem m').2 (.inl hm'), hv, horigin.mono hrecorded.keepsDone hrecorded.keepsShapes⟩
  case ofMarshaller =>
    intro m' hm'
    rcases (hmem m').1 hm' with hm' | rfl
    · obtain ⟨id', hid', horigin⟩ := hp.ofMarshaller m' hm'
      exact ⟨id', hext.binding id' _ hid', horigin.mono hrecorded.keepsDone hrecorded.keepsShapes⟩
    · exact ⟨id, hbinds.self, hrecorded.origin⟩
  case ofType =>
    intro id' t h
    rcases hrecorded.types id' t h with hold | ⟨rfl, hplanned⟩
    · obtain ⟨m', hm', hplanned, hid'⟩ := hp.ofType id' t hold
      exact ⟨m', (hmem m').2 (.inl hm'), hplanned, hext.binding id' _ hid'⟩
    · exact ⟨m, (hmem m).2 (.inr rfl), hplanned, hbinds.self⟩
  case ofShape =>
    intro s hs
    rw [Context.contains_iff]
    -- a shape may be asked for anew although the marshaller is an old one
    rcases hrecorded.asked s hs with hold | ⟨heq, -⟩
    · obtain ⟨v, hv⟩ := Context.contains_iff.1 (hp.ofShape s hold)
      exact ⟨v, hext.binding _ v hv⟩
    · exact ⟨m.variableName, heq ▸ hbinds.self⟩
  case ofArray =>
    intro s hs
    rcases (hmem s.planned).1 hs with hs | heq
    · exact hrecorded.keepsShapes s (hp.ofArray s hs)
    · exact hrecorded.array s heq.symm
  case spelled =>
    intro s hs
    rcases hrecorded.asked s hs with hold | ⟨-, hspelled⟩
    · exact hp.spelled s hold
    · exact hspelled
  case warranted =>
    intro m' hm'
    rcases (hmem m').1 hm' with hm' | rfl
    · exact hext.warranted (hp.warranted m' hm')
    · exact hext.warranted hwarranted

/-! ### Asking for types

A type that is known already is not asked for again.  A new array is entered under its own shape,
and its component is known by then, so that it is warranted. -/

theorem contains_of_hasArray (hp : Progress providers done shapes c) {s : ArraySignature}
    (h : c.hasArray s = true) : c.builder.bindings.contains s.id = true := by
  rcases Bool.or_eq_true_iff.1 h with h | h
  · exact h
  · -- only a marshaller of the same shape can have the variable
    obtain ⟨m, hm, hv⟩ := List.any_eq_true.1 h
    have hv : m.variableName = s.variableName := of_decide_eq_true hv
    have harray : ∃ u, m = ArraySignature.planned u := by
      obtain ⟨id, -, horigin⟩ := hp.ofMarshaller m hm
      cases horigin with
      | type t _ planned =>
        rcases ExposedType.planned?_cases planned with htype | ⟨u, hu, -⟩
        · exact absurd (htype.symm.trans hv) (typeVariable_ne_variableName t.name s)
        · exact ⟨u, hu⟩
      | shape u _ planned _ => exact ⟨u, planned⟩
    obtain ⟨u, rfl⟩ := harray
    rw [← ArraySignature.id_eq_of_variableName hv]
    exact hp.ofShape u (hp.ofArray u hm)

theorem synthesize (hp : Progress providers done shapes c) {s : ArraySignature}
    (hs : s.type.Spelled) (hnew : c.hasArray s = false) (hcomponent : c.Resolves s.component)
    (h : c.synthesize s = .ok c') :
    Progress providers done (shapes ++ [s]) c' ∧ c.Extends c' := by
  obtain ⟨b, hbind, hc'⟩ := bind_eq_ok_iff.1 h
  cases hc'
  have hmem : s ∈ shapes ++ [s] := List.mem_append_right _ List.mem_cons_self
  have hbinds : c.Binds b s.id s.planned := .of_add hp.nodup (Bool.or_eq_false_iff.1 hnew).2 hbind
  have hrecorded : Recorded done done shapes (shapes ++ [s]) s.id s.planned := by
    refine ⟨fun _ h => h, fun _ => List.mem_append_left _, .shape s hmem rfl rfl,
      fun _ _ h => .inl h, fun u hu => ?_, fun u hu => ?_⟩
    · refine (List.mem_append.1 hu).imp id ?_
      intro hu
      cases List.mem_singleton.1 hu
      exact ⟨rfl, hs⟩
    · exact ArraySignature.planned_injective hu ▸ hmem
  exact ⟨hp.extended hbinds hrecorded hcomponent, hbinds.grows⟩

/-- A type that is no array only has to be counted on. -/
theorem ensure_of_signature?_eq_none {owner : String} {t : TypeRef} (ht : t.signature? = none)
    (h : c.ensure owner t = .ok c') : c' = c ∧ c.Resolves t := by
  cases t with
  | any =>
    cases h
    exact ⟨rfl, .inl rfl⟩
  | array component dimensions => cases ht
  | _ =>
    unfold Context.ensure at h
    split at h
    · next hknown =>
      cases h
      exact ⟨rfl, .inr hknown⟩
    · cases h

/-- A type that is ensured can be resolved from then on, and asks for its shape if it is an array.
-/
theorem ensure (hp : Progress providers done shapes c) {owner : String} {t : TypeRef}
    (ht : t.Spelled) (h : c.ensure owner t = .ok c') :
    Progress providers done (shapes ++ t.signature?.toList) c' ∧ c.Extends c' ∧
      c'.Resolves t := by
  cases hsignature : t.signature? with
  | none =>
    obtain ⟨rfl, hresolves⟩ := ensure_of_signature?_eq_none hsignature h
    rw [Option.toList_none, List.append_nil]
    exact ⟨hp, .refl _, hresolves⟩
  | some s =>
    have hs := ht.shape hsignature
    obtain rfl := TypeRef.eq_of_signature? hsignature
    -- An array that is there is left alone.  For a new one the component comes first, and as
    -- arrays are flat that makes nothing.
    have hstep : Progress providers done (shapes ++ [s]) c' ∧ c.Extends c' := by
      unfold ArraySignature.type Context.ensure at h
      split at h
      · next hhas =>
        cases h
        exact ⟨hp.again hs (hp.contains_of_hasArray hhas), .refl _⟩
      · next hhas =>
        obtain ⟨c₁, hcomponent, hmake⟩ := bind_eq_ok_iff.1 h
        obtain ⟨rfl, hresolves⟩ := ensure_of_signature?_eq_none hs.flat.2 hcomponent
        exact hp.synthesize hs (Bool.not_eq_true _ ▸ hhas) hresolves hmake
    obtain ⟨hp', hext⟩ := hstep
    refine ⟨hp', hext, .inr (Context.isKnown_iff.2 (.inr ?_))⟩
    exact Context.contains_iff.1 (hp'.ofShape s (List.mem_append_right _ List.mem_cons_self))

theorem ensureFields (hp : Progress providers done shapes c) {type : String} {fields : List Field}
    (hfields : ∀ f ∈ fields, f.declared.Spelled) (h : c.ensureFields type fields = (c', .ok ())) :
    Progress providers done (shapes ++ fields.filterMap (·.declared.signature?)) c' ∧
      c.Extends c' ∧ ∀ f ∈ fields, c'.Resolves f.declared := by
  induction fields generalizing c shapes with
  | nil =>
    cases h
    rw [List.filterMap_nil, List.append_nil]
    exact ⟨hp, .refl _, fun _ h => absurd h List.not_mem_nil⟩
  | cons f fs ih =>
    obtain ⟨hf, hfs⟩ := List.forall_mem_cons.1 hfields
    unfold Context.ensureFields at h
    split at h
    · next c₁ hensure =>
      obtain ⟨hp₁, hext₁, hresolves⟩ := hp.ensure hf hensure
      obtain ⟨hp₂, hext₂, hrest⟩ := ih hp₁ hfs h
      have hshapes : (f :: fs).filterMap (·.declared.signature?) =
          f.declared.signature?.toList ++ fs.filterMap (·.declared.signature?) := by
        rw [List.filterMap_cons]
        cases f.declared.signature? <;> rfl
      -- the first field resolves still: what comes later only extends the context
      rw [hshapes, ← List.append_assoc]
      exact ⟨hp₂, hext₁.trans hext₂, List.forall_mem_cons.2 ⟨hext₂.resolves hresolves, hrest⟩⟩
    · cases h

theorem selectArray (hp : Progress providers done shapes c) {t : ExposedType}
    {strategy : Strategy} (h : c.selectArray t.name = (c', .ok (some strategy))) :
    ∃ s, strategy = .array s ∧ t.spelledShape? = some s ∧
      Progress providers done (shapes ++ [s]) c' ∧ c.Extends c' := by
  unfold Context.selectArray at h
  split at h
  · cases h
  · next type hparse =>
    split at h
    · cases h
    · next s hsignature =>
      have hs : s.type.Spelled := TypeRef.Spelled.shape ⟨t.name, hparse⟩ hsignature
      have hshape : t.spelledShape? = some s := by
        rw [ExposedType.spelledShape?, hparse]
        exact hsignature
      split at h
      · next c₁ hensure =>
        cases h
        obtain ⟨hp', hext, -⟩ := hp.ensure hs hensure
        exact ⟨s, rfl, hshape, hp', hext⟩
      · cases h

/-- The marshaller of an array shape is there when its strategy is chosen; the other strategies are
warranted. -/
theorem select (hp : Progress providers done shapes c) {t : ExposedType}
    (hspelled : t.shape.Spelled) {strategy : Strategy}
    (h : c.select providers t = (c', .ok (some strategy))) :
    Progress providers done (shapes ++ t.shapes) c' ∧ c.Extends c' ∧
      t.strategy? = some strategy ∧
        (strategy.Warranted providers c' ∨ ∃ s, strategy = .array s) := by
  obtain ⟨name, shape, className⟩ := t
  -- by the class, and without one by the shape; only fields and arrays ask for anything
  cases className with
  | some className =>
    unfold Context.select at h
    simp only at h
    split at h
    · next hprovided =>
      cases h
      rw [show ExposedType.shapes ⟨name, shape, some className⟩ = [] by cases shape <;> rfl,
        List.append_nil]
      exact ⟨hp, .refl _, by cases shape <;> rfl, .inl hprovided⟩
    · cases h
  | none =>
    cases shape with
    | array =>
      obtain ⟨s, rfl, hshape, hp', hext⟩ := hp.selectArray (t := ⟨name, .array, none⟩) h
      have hshapes : ExposedType.shapes ⟨name, .array, none⟩ = [s] := by
        simp [ExposedType.shapes, hshape]
      rw [hshapes]
      refine ⟨hp', hext, ?_, .inr ⟨s, rfl⟩⟩
      simp [ExposedType.strategy?, hshape]
    | enumeration variants =>
      cases h
      rw [show ExposedType.shapes ⟨name, .enumeration variants, none⟩ = [] from rfl,
        List.append_nil]
      exact ⟨hp, .refl _, rfl, .inl trivial⟩
    | object fields =>
      unfold Context.select at h
      simp only at h
      split at h
      · next c₁ hfields =>
        cases h
        obtain ⟨hp', hext, hresolve⟩ := hp.ensureFields hspelled hfields
        exact ⟨hp', hext, rfl, .inl hresolve⟩
      · cases h
    | unstructured => cases h

/-! ### Taking a type

The identifier of a type that is taken may be bound to its marshaller already (an exposed array that
a field has asked for), or the marshaller may be there and the identifier free (an alias), or
neither may be there.  The three lemmas `taken`, `bound` and `addStrategy` are for these. -/

/-- A type is taken under an identifier that is bound to its marshaller already. -/
theorem taken (hp : Progress providers done shapes c) {t : ExposedType} {m : Planned}
    {id : String} (hm : m ∈ c.builder.marshallers) (hplanned : t.planned? = some m)
    (hbound : c.builder.binding? id = some m.variableName) :
    Progress providers (done ++ [(id, t)]) shapes c where
  nodup := hp.nodup
  ofBinding id' v h := by
    obtain ⟨m', hm', hv, horigin⟩ := hp.ofBinding id' v h
    exact ⟨m', hm', hv, horigin.mono (fun _ => List.mem_append_left _) fun _ h => h⟩
  ofMarshaller m' hm' := by
    obtain ⟨id', hid', horigin⟩ := hp.ofMarshaller m' hm'
    exact ⟨id', hid', horigin.mono (fun _ => List.mem_append_left _) fun _ h => h⟩
  ofType id' t' h := by
    rcases List.mem_append.1 h with h | h
    · exact hp.ofType id' t' h
    · cases List.mem_singleton.1 h
      exact ⟨m, hm, hplanned, hbound⟩
  ofShape := hp.ofShape
  ofArray := hp.ofArray
  spelled := hp.spelled
  warranted := hp.warranted

/-- A type is taken under an identifier that is now bound to its marshaller. -/
theorem bound (hp : Progress providers done shapes c) {t : ExposedType} {m : Planned}
    {id : String} {b : Builder} (hm : m ∈ c.builder.marshallers) (hplanned : t.planned? = some m)
    (hbind : c.builder.bind id m.variableName = .ok b) :
    Progress providers (done ++ [(id, t)]) shapes { c with builder := b } ∧
      c.Extends { c with builder := b } ∧ b.marshallers = c.builder.marshallers := by
  obtain ⟨hbinds, hmarshallers⟩ := Context.Binds.of_bind hp.nodup hm hbind
  have hrecorded : Recorded done (done ++ [(id, t)]) shapes shapes id m :=
    .taken hplanned fun s hs => hp.ofArray s (hs ▸ hm)
  exact ⟨hp.extended hbinds hrecorded (hp.warranted m hm), hbinds.grows, hmarshallers⟩

/-- Further identifiers of a type are bound to the marshaller it has. -/
theorem bindAll (hp : Progress providers done shapes c) {t : ExposedType} {m : Planned}
    (hm : m ∈ c.builder.marshallers) (hplanned : t.planned? = some m) {ids : List String}
    (h : c.bindAll m.variableName ids = .ok c') :
    Progress providers (done ++ ids.map (·, t)) shapes c' ∧ c.Extends c' := by
  obtain ⟨b, hfold, hc'⟩ := bind_eq_ok_iff.1 h
  cases hc'
  clear h
  -- by induction on the identifiers, each of which is taken by `bound`
  induction ids generalizing c done with
  | nil =>
    cases hfold
    rw [List.map_nil, List.append_nil]
    exact ⟨hp, .refl _⟩
  | cons id rest ih =>
    rw [List.foldlM_cons] at hfold
    obtain ⟨b₁, hbind, hrest⟩ := bind_eq_ok_iff.1 hfold
    obtain ⟨hp₁, hext₁, hmarshallers⟩ := hp.bound hm hplanned hbind
    obtain ⟨hp₂, hext₂⟩ := ih (c := { c with builder := b₁ }) hp₁ (hmarshallers ▸ hm) hrest
    rw [List.append_assoc] at hp₂
    exact ⟨hp₂, hext₁.trans hext₂⟩

/-- The name of an exposed array that has not been taken is bound already, to the marshaller of the
shape. -/
theorem addStrategy_array (hp : Progress providers done shapes c) {t : ExposedType}
    {s : ArraySignature} (hplanned : t.planned? = some s.planned)
    (hfresh : ∀ p ∈ done, p.1 ≠ t.name) (hs : s ∈ shapes) (hid : s.id = t.name) {v : String}
    (h : c.addStrategy t.name (.array s) = .ok (c', v)) :
    Progress providers (done ++ [(t.name, t)]) shapes c' ∧ c.Extends c' ∧
      ∃ m ∈ c'.builder.marshallers, t.planned? = some m ∧ v = m.variableName := by
  unfold Context.addStrategy at h
  dsimp only at h
  split at h
  · next hbinding =>
    cases h
    obtain ⟨m, hm, hv, horigin⟩ := hp.ofBinding _ _ hbinding
    -- The binding may not be that of a type done before, so it is that of the shape.
    have hself : m = s.planned := by
      cases horigin with
      | type u mem planned => exact absurd hid (hfresh _ mem)
      | shape u mem planned eq =>
        rw [planned, ArraySignature.eq_of_id (hp.spelled s hs) (hp.spelled u mem) eq]
    subst hself
    rw [hid, ← hv] at hbinding
    exact ⟨hp.taken hm hplanned hbinding, .refl _, _, hm, hplanned, hv.symm⟩
  · cases h

/-- The variable of a type that has not been taken is new: no other type has it, and no array
shape. -/
theorem has_typeVariable (hp : Progress providers done shapes c) {name : String}
    (hfresh : ∀ p ∈ done, p.2.name ≠ name) :
    c.builder.has (Context.typeVariable name) = false := by
  apply Builder.has_eq_false_iff.2
  intro hv
  obtain ⟨m, hmem, hv⟩ := List.mem_map.1 hv
  obtain ⟨id, -, horigin⟩ := hp.ofMarshaller m hmem
  cases horigin with
  | type u mem planned =>
    rcases ExposedType.planned?_cases planned with hu | ⟨s, rfl, -⟩
    · exact hfresh _ mem (Context.typeVariable_injective (hu.symm.trans hv))
    · exact typeVariable_ne_variableName _ s hv.symm
  | shape s _ planned _ => exact typeVariable_ne_variableName _ s (planned ▸ hv).symm

/-- The name of a type that has not been taken is bound to its marshaller. -/
theorem addStrategy (hp : Progress providers done shapes c) {t : ExposedType}
    {strategy : Strategy} (hstrategy : t.strategy? = some strategy)
    (hfresh : ∀ p ∈ done, p.1 ≠ t.name ∧ p.2.name ≠ t.name)
    (hwarranted : strategy.Warranted providers c ∨ ∃ s, strategy = .array s)
    (hshape : ∀ s, strategy = .array s → s ∈ shapes ∧ s.id = t.name) {v : String}
    (h : c.addStrategy t.name strategy = .ok (c', v)) :
    Progress providers (done ++ [(t.name, t)]) shapes c' ∧ c.Extends c' ∧
      ∃ m ∈ c'.builder.marshallers, t.planned? = some m ∧ v = m.variableName := by
  have hplanned : t.planned? = some (strategy.planned t.name) := by
    rw [ExposedType.planned?, hstrategy]
    rfl
  -- an array has its marshaller already, as its shape does; any other strategy gets one
  by_cases harray : ∃ s, strategy = .array s
  · obtain ⟨s, rfl⟩ := harray
    obtain ⟨hs, hid⟩ := hshape s rfl
    exact hp.addStrategy_array hplanned (fun p hp => (hfresh p hp).1) hs hid h
  -- what is planned for other strategies has the variable of the type
  · have hm : strategy.planned t.name = ⟨Context.typeVariable t.name, strategy⟩ := by
      cases strategy with
      | array s => exact (harray ⟨s, rfl⟩).elim
      | explicit _ _ | enumeration _ _ | reflective _ _ => rfl
    rw [hm] at hplanned
    have hnew := hp.has_typeVariable fun p hp => (hfresh p hp).2
    unfold Context.addStrategy at h
    split at h
    · next s => exact (harray ⟨s, rfl⟩).elim
    · obtain ⟨b, hbind, hc'⟩ := bind_eq_ok_iff.1 h
      cases hc'
      have hmem : (t.name, t) ∈ done ++ [(t.name, t)] :=
        List.mem_append_right _ List.mem_cons_self
      have hbinds : c.Binds b t.name ⟨Context.typeVariable t.name, strategy⟩ :=
        .of_add hp.nodup hnew hbind
      have hp' := hp.extended hbinds
        (.taken hplanned fun s hs => (harray ⟨s, congrArg Planned.strategy hs⟩).elim)
        (hwarranted.resolve_right harray)
      obtain ⟨m, hm, hm', hv⟩ := hp'.ofType t.name t hmem
      rw [hplanned] at hm'
      cases hm'
      exact ⟨hp', hbinds.grows, _, hm, hplanned, rfl⟩

end Progress
end TaggedWire
