import TaggedWire.Proofs.Generation.Progress

/-!
# Requests to a context, one after the other

A request that fails has not changed the context, or so it seems: `Context.ensure` returns none.
Here the same requests change a context in place, check by check and entry by entry, and what they
have done by the time they fail stays.  For types that have a spelling both come to the same, so
nothing has to be taken back.

* `ensureInPlace_eq`, `addArrayInPlace_eq`, `selectInPlace_eq`: what the requests leave.
* `Progress.request`: what one request keeps, whether it fails or not.
* `requests_shapes`: after any requests there is one marshaller for each array shape asked for.
-/

namespace TaggedWire

namespace Context

/-! ### In place

The same requests as operations that change the context as they go.  They are built from what the
builder does in place, and an error leaves them where it occurs. -/

/-- What a call of the builder does to the context. -/
def onBuilder {α : Type} (call : EStateM Error Builder α) : EStateM Error Context α := fun c =>
  match call c.builder with
  | .ok a b => .ok a { c with builder := b }
  | .error e b => .error e { c with builder := b }

/-- Add a marshaller to the plan. -/
def addInPlace (v : String) (strategy : Strategy) : EStateM Error Context Unit := do
  let _ ← onBuilder (Builder.addInPlace v strategy)

/-- Bind an identifier in the plan. -/
def bindInPlace (id v : String) : EStateM Error Context Unit :=
  onBuilder (Builder.bindInPlace id v)

/-- Make a marshaller for an array shape unless its identifier is bound or its variable is taken,
and tell its variable. -/
def shapeInPlace (ensureComponent : EStateM Error Context Unit) (s : ArraySignature) :
    EStateM Error Context String := do
  match (← get).builder.binding? s.id with
  | some v => return v
  | none =>
    if (← get).builder.has s.variableName then return s.variableName
    else
      ensureComponent
      addInPlace s.variableName (.array s)
      bindInPlace s.id s.variableName
      return s.variableName

/-- See to it that values of a type can be written and read. -/
def ensureInPlace (owner : String) : TypeRef → EStateM Error Context Unit
  | .any => return
  | .array component dimensions => do
    let _ ← shapeInPlace (ensureInPlace owner component) ⟨component, dimensions⟩
  | type => do
    if (← get).isKnown type.id then return
    else throw (.unknownNested owner type.id)

/-- See to it that there is a marshaller for an array shape, and tell its variable. -/
def addArrayInPlace (owner : String) (s : ArraySignature) : EStateM Error Context String :=
  shapeInPlace (ensureInPlace owner s.component) s

/-- The strategy for an exposed type, if there is one. -/
def selectInPlace (providers : Providers) (t : ExposedType) :
    EStateM Error Context (Option Strategy) := do
  match t.className with
  | some className =>
    if providers.contains className then return some (.explicit className t.name)
    else throw (.unknownClass className t.name)
  | none =>
    match t.shape with
    | .array =>
      match TypeRef.parse t.name with
      | .error e => throw e
      | .ok type =>
        match type.signature? with
        | none => throw (.noMarshaller t.name)
        | some s =>
          let _ ← addArrayInPlace t.name s
          return some (.array s)
    | .enumeration variants => return some (.enumeration t.name variants)
    | .object fields =>
      forM fields fun f => ensureInPlace s!"{t.name}.{f.name}" f.declared
      return some (.reflective t.name fields)
    | .unstructured => return none

/-- What a request comes to that leaves the context alone when it fails. -/
def unlessFailed {α : Type} (c : Context) :
    Except Error (Context × α) → EStateM.Result Error Context α
  | .ok (c', a) => .ok a c'
  | .error e => .error e c

theorem get_bind {α : Type} (f : Context → EStateM Error Context α) (c : Context) :
    (get >>= f) c = f c c := rfl

theorem inPlace_bind {α β : Type} (x : EStateM Error Context α) (f : α → EStateM Error Context β)
    (c : Context) : (x >>= f) c =
      match x c with
      | .ok a c => f a c
      | .error e c => .error e c := by
  show EStateM.bind x f c = _
  unfold EStateM.bind
  cases x c <;> rfl

theorem addInPlace_eq (v : String) (strategy : Strategy) (c : Context) :
    addInPlace v strategy c = .ok () { c with builder := c.builder.add v strategy } := by
  rw [addInPlace, inPlace_bind, onBuilder, Builder.addInPlace_eq]
  rfl

theorem bindInPlace_eq (id v : String) (c : Context) : bindInPlace id v c =
    match c.builder.bind id v with
    | .ok b => .ok () { c with builder := b }
    | .error e => .error e c := by
  rw [bindInPlace, onBuilder, Builder.bindInPlace_eq]
  cases c.builder.bind id v <;> rfl

/-- An identifier that is bound or whose variable is taken keeps the context.  For any other shape
what is done depends on the component. -/
theorem shapeInPlace_eq (ensureComponent : EStateM Error Context Unit) (s : ArraySignature)
    (c : Context) : shapeInPlace ensureComponent s c =
      match c.builder.binding? s.id with
      | some v => .ok v c
      | none =>
        if c.builder.has s.variableName then .ok s.variableName c
        else
          match ensureComponent c with
          | .error e c => .error e c
          | .ok _ c =>
            match (c.builder.add s.variableName (.array s)).bind s.id s.variableName with
            | .ok b => .ok s.variableName { c with builder := b }
            | .error e =>
              .error e { c with builder := c.builder.add s.variableName (.array s) } := by
  rw [shapeInPlace, get_bind]
  -- the order of the checks: the identifier, the variable, the component, and then the entries
  cases c.builder.binding? s.id with
  | some v => rfl
  | none =>
    dsimp only
    rw [get_bind]
    split
    · rfl
    · rw [inPlace_bind]
      cases ensureComponent c with
      | error e c => rfl
      | ok _ c =>
        dsimp only
        rw [inPlace_bind, addInPlace_eq]
        dsimp only
        rw [inPlace_bind, bindInPlace_eq]
        dsimp only
        cases (c.builder.add s.variableName (.array s)).bind s.id s.variableName <;> rfl

/-! ### Nothing to take back

An array that is asked for can fail at its component only.  This comes before anything has been
entered, and after it the identifier of the array is free, so that it can be bound. -/

theorem ensureInPlace_of_plain {owner : String} {t : TypeRef} (ht : t.signature? = none)
    (c : Context) : ensureInPlace owner t c =
      match c.ensure owner t with
      | .ok _ => .ok () c
      | .error e => .error e c := by
  cases t with
  | array _ _ => cases ht
  | any => rfl
  | _ =>
    rw [ensureInPlace, get_bind, Context.ensure]
    split <;> rfl
    all_goals nofun

theorem hasArray_eq_false_iff {c : Context} {s : ArraySignature} : c.hasArray s = false ↔
    c.builder.binding? s.id = none ∧ c.builder.has s.variableName = false := by
  rw [hasArray, Bool.or_eq_false_iff, ← Bool.not_eq_true, contains_iff,
    ← Option.ne_none_iff_exists', not_not]

/-- Once the component is there nothing can fail, and the identifier of a new shape is bound to the
variable of the shape. -/
theorem synthesize_eq {c : Context} {s : ArraySignature} (hnew : c.hasArray s = false) : ∃ b,
    (c.builder.add s.variableName (.array s)).bind s.id s.variableName = .ok b ∧
      c.synthesize s = .ok { c with builder := b } ∧ b.binding? s.id = some s.variableName := by
  have hnone : (c.builder.add s.variableName (.array s)).binding? s.id = none := by
    rw [Builder.binding?_add]
    exact (hasArray_eq_false_iff.1 hnew).1
  have hbind := (Builder.bind_eq_ok_iff _ _ s.id s.variableName).2 ⟨hnone, rfl⟩
  obtain ⟨-, -, hbinding⟩ := Builder.bind_cases hbind
  refine ⟨_, hbind, bind_eq_ok_iff.2 ⟨_, hbind, rfl⟩, ?_⟩
  rw [hbinding, if_pos rfl]

theorem ensure_of_hasArray {c : Context} {s : ArraySignature} (h : c.hasArray s = true)
    (owner : String) : c.ensure owner s.type = .ok c := by
  rw [ArraySignature.type, Context.ensure, if_pos h]

theorem ensure_of_not_hasArray {c : Context} {s : ArraySignature} (h : c.hasArray s = false)
    (owner : String) : c.ensure owner s.type =
      (c.ensure owner s.component >>= fun c => c.synthesize s) := by
  rw [ArraySignature.type, Context.ensure, if_neg (Bool.eq_false_iff.1 h)]

theorem hasArray_of_binding {c : Context} {s : ArraySignature} {v : String}
    (h : c.builder.binding? s.id = some v) : c.hasArray s = true := by
  rw [hasArray, contains_iff.2 ⟨v, h⟩, Bool.true_or]

/-- Asking for a shape that has a marshaller changes nothing. -/
theorem addArray_of_hasArray {c : Context} {s : ArraySignature} (h : c.hasArray s = true)
    (owner : String) :
    c.addArray owner s = .ok (c, (c.builder.binding? s.id).getD s.variableName) := by
  rw [addArray, ensure_of_hasArray h]
  rfl

theorem addArray_of_binding {c : Context} {s : ArraySignature} {v : String}
    (h : c.builder.binding? s.id = some v) (owner : String) : c.addArray owner s = .ok (c, v) := by
  rw [addArray_of_hasArray (hasArray_of_binding h), h]
  rfl

/-- A shape whose component is no array fails before anything is added. -/
theorem addArrayInPlace_eq {s : ArraySignature} (hs : s.type.Flat) (owner : String) (c : Context) :
    addArrayInPlace owner s c = unlessFailed c (c.addArray owner s) := by
  rw [addArrayInPlace, shapeInPlace_eq]
  cases hbinding : c.builder.binding? s.id with
  | some v =>
    rw [addArray_of_binding hbinding]
    rfl
  | none =>
    dsimp only
    split
    · next hvariable =>
      have hhas : c.hasArray s = true := by rw [hasArray, hvariable, Bool.or_true]
      rw [addArray_of_hasArray hhas, hbinding]
      rfl
    · next hvariable =>
      have hnew := hasArray_eq_false_iff.2 ⟨hbinding, Bool.not_eq_true _ ▸ hvariable⟩
      -- Neither is there.  The component asks for nothing, as it is no array, and what is left
      -- is the same entry and the same binding on both sides.
      rw [addArray, ensure_of_not_hasArray hnew, ensureInPlace_of_plain hs.2]
      cases hcomponent : c.ensure owner s.component with
      | error e => rfl
      | ok c₁ =>
        obtain ⟨rfl, -⟩ := Progress.ensure_of_signature?_eq_none hs.2 hcomponent
        obtain ⟨b, hbind, hsynthesize, hself⟩ := synthesize_eq hnew
        dsimp only
        rw [hbind]
        show _ = unlessFailed c₁ (c₁.synthesize s >>= _)
        rw [hsynthesize]
        show _ = EStateM.Result.ok ((b.binding? s.id).getD s.variableName) _
        rw [hself]
        rfl

/-- Asking in place is asking, and keeping the context where the answer is an error. -/
theorem ensureInPlace_eq {t : TypeRef} (ht : t.Flat) (owner : String) (c : Context) :
    ensureInPlace owner t c = unlessFailed c ((c.ensure owner t).map (·, ())) := by
  cases hsignature : t.signature? with
  | none =>
    rw [ensureInPlace_of_plain hsignature]
    cases hensure : c.ensure owner t with
    | error e => rfl
    | ok c₁ =>
      obtain ⟨rfl, -⟩ := Progress.ensure_of_signature?_eq_none hsignature hensure
      rfl
  | some s =>
    obtain rfl := TypeRef.eq_of_signature? hsignature
    show (addArrayInPlace owner s >>= fun _ => pure ()) c = _
    rw [inPlace_bind, addArrayInPlace_eq ht, addArray]
    cases c.ensure owner s.type <;> rfl

theorem fieldsInPlace_eq {fields : List Field} (h : ∀ f ∈ fields, f.declared.Flat) (type : String)
    (c : Context) :
    (forM fields fun f => ensureInPlace s!"{type}.{f.name}" f.declared) c =
      match c.ensureFields type fields with
      | (c, .ok ()) => .ok () c
      | (c, .error e) => .error e c := by
  induction fields generalizing c with
  | nil => rfl
  | cons f fs ih =>
    obtain ⟨hf, hfs⟩ := List.forall_mem_cons.1 h
    rw [List.forM_cons, inPlace_bind, ensureInPlace_eq hf, ensureFields]
    cases c.ensure s!"{type}.{f.name}" f.declared with
    | error e => rfl
    | ok c => exact ih hfs c

/-- When a field fails, what was made for the fields before it stays. -/
theorem selectInPlace_eq {t : ExposedType} (ht : t.shape.Spelled) (providers : Providers)
    (c : Context) : selectInPlace providers t c =
      match c.select providers t with
      | (c, .ok strategy) => .ok strategy c
      | (c, .error e) => .error e c := by
  -- a class and a shape without parts touch nothing, the others ask for what they are made of
  obtain ⟨name, shape, className⟩ := t
  cases className with
  | some className =>
    simp only [selectInPlace, select]
    split <;> rfl
  | none =>
    cases shape with
    | enumeration _ | unstructured => rfl
    | object fields =>
      simp only [selectInPlace, select]
      rw [inPlace_bind, fieldsInPlace_eq fun f hf => (ht f hf).flat]
      obtain ⟨c', _ | _⟩ := c.ensureFields name fields <;> rfl
    | array =>
      simp only [selectInPlace, select, selectArray]
      cases hparse : TypeRef.parse name with
      | error e => rfl
      | ok type =>
        dsimp only
        cases hsignature : type.signature? with
        | none => rfl
        | some s =>
          have hflat : s.type.Flat := (TypeRef.Spelled.shape ⟨name, hparse⟩ hsignature).flat
          dsimp only
          rw [inPlace_bind, addArrayInPlace_eq hflat, addArray]
          cases c.ensure name s.type <;> rfl

/-! ### Requests

`request` is one step of a context and `requests` a run of them.  A step that fails counts as well:
the context it leaves is the one that goes on, and `Progress` holds of that. -/

/-- A request to a context. -/
inductive Request where
  | register (id : String)
  | ensure (owner : String) (type : TypeRef)
  | addArray (owner : String) (s : ArraySignature)
  | select (t : ExposedType)

/-- The types that a request is about have spellings. -/
def Request.Spelled : Request → Prop
  | register _ => True
  | ensure _ type => type.Spelled
  | addArray _ s => s.type.Spelled
  | select t => t.shape.Spelled

/-- The context at the end, whether in success or failure. -/
def left {α : Type} : EStateM.Result Error Context α → Context
  | .ok _ c => c
  | .error _ c => c

/-- The context that a request leaves. -/
def request (providers : Providers) (c : Context) : Request → Context
  | .register id => c.register id
  | .ensure owner type => left (ensureInPlace owner type c)
  | .addArray owner s => left (addArrayInPlace owner s c)
  | .select t => left (selectInPlace providers t c)

/-- The context that requests leave, one after the other. -/
def requests (providers : Providers) (c : Context) (rs : List Request) : Context :=
  rs.foldl (request providers) c

/-- The array shapes that have a marshaller. -/
def arrays (c : Context) : List ArraySignature :=
  c.builder.marshallers.filterMap fun m =>
    match m.strategy with
    | .array s => some s
    | _ => none

/-- What is bound stays bound as it is. -/
def Keeps (c c' : Context) : Prop :=
  ∀ id v, c.builder.binding? id = some v → c'.builder.binding? id = some v

theorem Keeps.refl (c : Context) : c.Keeps c := fun _ _ h => h

theorem Keeps.trans {c c' c'' : Context} (h : c.Keeps c') (h' : c'.Keeps c'') : c.Keeps c'' :=
  fun id v hv => h' id v (h id v hv)

end Context

namespace Progress

variable {providers : Providers} {done : List (String × ExposedType)}
  {shapes : List ArraySignature} {c c' : Context}

theorem register (hp : Progress providers done shapes c) (id : String) :
    Progress providers done shapes (c.register id) := by
  have hresolves : ∀ t, c.Resolves t → (c.register id).Resolves t := by
    intro t ht
    refine ht.imp_right fun hknown => Context.isKnown_iff.2 ?_
    exact (Context.isKnown_iff.1 hknown).imp_left (List.mem_cons_of_mem id)
  exact { hp with warranted := fun m hm => (hp.warranted m hm).mono hresolves }

/-- The fields of a type are resolved as far as that goes. -/
theorem left_ensureFields (hp : Progress providers done shapes c) (type : String)
    {fields : List Field} (h : ∀ f ∈ fields, f.declared.Spelled) :
    ∃ more, Progress providers done more (c.ensureFields type fields).1 ∧
      c.Keeps (c.ensureFields type fields).1 := by
  -- by induction on the fields; the run stops at the first that fails, and there nothing changes
  induction fields generalizing c shapes with
  | nil => exact ⟨shapes, hp, .refl c⟩
  | cons f fs ih =>
    obtain ⟨hf, hfs⟩ := List.forall_mem_cons.1 h
    rw [Context.ensureFields]
    split
    · next c₁ hensure =>
      obtain ⟨hp₁, hext, -⟩ := hp.ensure hf hensure
      obtain ⟨more, hp₂, hkeeps⟩ := ih hp₁ hfs
      exact ⟨more, hp₂, Context.Keeps.trans hext.binding hkeeps⟩
    · exact ⟨shapes, hp, .refl c⟩

theorem left_select (hp : Progress providers done shapes c) {t : ExposedType}
    (ht : t.shape.Spelled) : ∃ more, Progress providers done more (c.select providers t).1 ∧
      c.Keeps (c.select providers t).1 := by
  obtain ⟨name, shape, className⟩ := t
  cases className with
  | some className =>
    simp only [Context.select]
    split <;> exact ⟨shapes, hp, .refl c⟩
  | none =>
    cases shape with
    | enumeration _ | unstructured => exact ⟨shapes, hp, .refl c⟩
    | object fields =>
      -- what is left does not depend on whether all of the fields were found
      have hleft : (c.select providers ⟨name, .object fields, none⟩).1 =
          (c.ensureFields name fields).1 := by
        simp only [Context.select]
        obtain ⟨c', _ | _⟩ := c.ensureFields name fields <;> rfl
      rw [hleft]
      exact hp.left_ensureFields name ht
    | array =>
      simp only [Context.select, Context.selectArray]
      cases hparse : TypeRef.parse name with
      | error e => exact ⟨shapes, hp, .refl c⟩
      | ok type =>
        dsimp only
        cases hsignature : type.signature? with
        | none => exact ⟨shapes, hp, .refl c⟩
        | some s =>
          dsimp only
          split
          · next c₁ hensure =>
            obtain ⟨hp₁, hext, -⟩ :=
              hp.ensure (TypeRef.Spelled.shape ⟨name, hparse⟩ hsignature) hensure
            exact ⟨_, hp₁, hext.binding⟩
          · exact ⟨shapes, hp, .refl c⟩

/-- Each request leaves a plan under way, whether it fails or not. -/
theorem request (hp : Progress providers done shapes c) {r : Context.Request} (hr : r.Spelled) :
    ∃ more, Progress providers done more (c.request providers r) ∧
      c.Keeps (c.request providers r) := by
  -- a request that fails leaves the context as it was, but for choosing a strategy
  cases r with
  | register id => exact ⟨shapes, hp.register id, .refl c⟩
  | ensure owner type =>
    rw [Context.request, Context.ensureInPlace_eq hr.flat]
    cases hensure : c.ensure owner type with
    | error e => exact ⟨shapes, hp, .refl c⟩
    | ok c₁ =>
      obtain ⟨hp₁, hext, -⟩ := hp.ensure hr hensure
      exact ⟨_, hp₁, hext.binding⟩
  | addArray owner s =>
    rw [Context.request, Context.addArrayInPlace_eq hr.flat, Context.addArray]
    cases hensure : c.ensure owner s.type with
    | error e => exact ⟨shapes, hp, .refl c⟩
    | ok c₁ =>
      obtain ⟨hp₁, hext, -⟩ := hp.ensure hr hensure
      exact ⟨_, hp₁, hext.binding⟩
  -- fields before the one that fails may have made arrays
  | select t =>
    have hleft : c.request providers (.select t) = (c.select providers t).1 := by
      rw [Context.request, Context.selectInPlace_eq hr]
      obtain ⟨c', _ | _⟩ := c.select providers t <;> rfl
    rw [hleft]
    exact hp.left_select hr

theorem requests (hp : Progress providers done shapes c) {rs : List Context.Request}
    (h : ∀ r ∈ rs, r.Spelled) : ∃ more, Progress providers done more (c.requests providers rs) ∧
      c.Keeps (c.requests providers rs) := by
  induction rs generalizing c shapes with
  | nil => exact ⟨shapes, hp, .refl c⟩
  | cons r rs ih =>
    obtain ⟨hr, hrs⟩ := List.forall_mem_cons.1 h
    obtain ⟨_, hp₁, hkeeps₁⟩ := hp.request hr
    obtain ⟨more, hp₂, hkeeps₂⟩ := ih hp₁ hrs
    exact ⟨more, hp₂, hkeeps₁.trans hkeeps₂⟩

/-! ### Only array shapes

When no type has been taken, all that a context holds comes from the array shapes asked for. -/

/-- While no type has been taken, all marshallers are those of array shapes. -/
theorem shape_of_mem (hp : Progress providers [] shapes c) {m : Planned}
    (hm : m ∈ c.builder.marshallers) :
    ∃ s ∈ shapes, m = s.planned ∧ c.builder.binding? s.id = some s.variableName := by
  obtain ⟨id, hid, horigin⟩ := hp.ofMarshaller m hm
  cases horigin with
  | type t mem _ => cases mem
  | shape s mem planned eq =>
    subst planned eq
    exact ⟨s, mem, rfl, hid⟩

theorem shape_of_binding (hp : Progress providers [] shapes c) {id v : String}
    (h : c.builder.binding? id = some v) :
    ∃ s ∈ shapes, id = s.id ∧ v = s.variableName ∧ s.planned ∈ c.builder.marshallers := by
  obtain ⟨m, hm, hv, horigin⟩ := hp.ofBinding id v h
  cases horigin with
  | type t mem _ => cases mem
  | shape s mem planned eq =>
    subst planned
    exact ⟨s, mem, eq, hv.symm, hm⟩

theorem marshallers_eq (hp : Progress providers [] shapes c) :
    c.builder.marshallers = c.arrays.map ArraySignature.planned := by
  have hall : ∀ m ∈ c.builder.marshallers, ∃ s, m = ArraySignature.planned s := by
    intro m hm
    obtain ⟨s, -, hs, -⟩ := hp.shape_of_mem hm
    exact ⟨s, hs⟩
  unfold Context.arrays
  -- only that each of them is an array matters for the induction
  generalize c.builder.marshallers = ms at hall ⊢
  induction ms with
  | nil => rfl
  | cons m ms ih =>
    obtain ⟨⟨s, rfl⟩, hms⟩ := List.forall_mem_cons.1 hall
    rw [List.filterMap_cons]
    exact congrArg (s.planned :: ·) (ih hms)

theorem nodup_arrays (hp : Progress providers [] shapes c) : c.arrays.Nodup := by
  have hnodup := hp.nodup
  rw [hp.marshallers_eq, List.map_map] at hnodup
  exact hnodup.of_map

/-- The identifier of a shape can be bound to no other variable. -/
theorem binding_shape (hp : Progress providers [] shapes c) {s : ArraySignature}
    (hs : s.type.Spelled) {v : String} (h : c.builder.binding? s.id = some v) :
    v = s.variableName := by
  obtain ⟨u, hu, hid, hv, -⟩ := hp.shape_of_binding h
  rw [hv, ArraySignature.eq_of_id hs (hp.spelled u hu) hid]

/-- What a shape comes to that is asked for: its own variable, to which its identifier is bound. -/
theorem of_addArray (hp : Progress providers [] shapes c) {s : ArraySignature}
    (hs : s.type.Spelled) {owner v : String} (h : c.addArray owner s = .ok (c', v)) :
    (∃ more, Progress providers [] more c') ∧ v = s.variableName ∧
      c'.builder.binding? s.id = some s.variableName := by
  obtain ⟨c₁, hensure, heq⟩ := bind_eq_ok_iff.1 h
  cases heq
  obtain ⟨hp', -, -⟩ := hp.ensure hs hensure
  have hmem : s ∈ shapes ++ s.type.signature?.toList := List.mem_append_right _ List.mem_cons_self
  obtain ⟨v, hv⟩ := Context.contains_iff.1 (hp'.ofShape s hmem)
  obtain rfl := hp'.binding_shape hs hv
  refine ⟨⟨_, hp'⟩, ?_, hv⟩
  rw [hv]
  rfl

end Progress

namespace Context

/-- After any requests for types that have spellings, failed ones among them, no shape has two
marshallers; each has the variable of its shape, to which the identifier of the shape is bound and
no other; and all that is bound is bound to a marshaller.  Asking for a shape again gives the same
variable at any later time and changes nothing.  Asking for types in place is asking for them with a
context that is put back upon failure, so failing leaves all as it was. -/
theorem requests_shapes (providers : Providers) {rs : List Request} (h : ∀ r ∈ rs, r.Spelled)
    {c : Context} (hc : requests providers {} rs = c) :
    c.arrays.Nodup ∧
    (∀ m s, m ∈ c.builder.marshallers → m.strategy = .array s → m.variableName = s.variableName ∧
      ∀ id, c.builder.binding? id = some m.variableName ↔ id = s.id) ∧
    (∀ id v, c.builder.binding? id = some v → c.builder.has v = true) ∧
    (∀ s owner v c', s.type.Spelled → c.addArray owner s = .ok (c', v) →
      v = s.variableName ∧ ∀ more, (∀ r ∈ more, r.Spelled) → ∀ owner',
        (requests providers c' more).addArray owner' s = .ok (requests providers c' more, v)) ∧
    (∀ s owner, s.type.Spelled →
      addArrayInPlace owner s c = unlessFailed c (c.addArray owner s) ∧
      ∀ e c', addArrayInPlace owner s c = .error e c' → c' = c) ∧
    (∀ t owner, t.Spelled →
      ensureInPlace owner t c = unlessFailed c ((c.ensure owner t).map (·, ())) ∧
      ∀ e c', ensureInPlace owner t c = .error e c' → c' = c) := by
  have hstart : Progress providers [] [] {} := .start []
  -- All of it is read off the invariant, which holds after any run from the empty context.
  obtain ⟨shapes, hp, -⟩ := hstart.requests h
  rw [hc] at hp
  have hfailed : ∀ {α : Type} (x : Except Error (Context × α)) (e : Error) (c' : Context),
      unlessFailed c x = .error e c' → c' = c := by
    intro α x e c' h
    cases x with
    | ok _ => cases h
    | error _ =>
      cases h
      rfl
  refine ⟨hp.nodup_arrays, ?_, ?_, ?_, ?_, ?_⟩
  · intro m s hm hstrategy
    obtain ⟨u, hu, rfl, hbinding⟩ := hp.shape_of_mem hm
    cases hstrategy
    refine ⟨rfl, fun id => ⟨fun hid => ?_, fun hid => hid ▸ hbinding⟩⟩
    obtain ⟨w, -, rfl, hv, -⟩ := hp.shape_of_binding hid
    exact ArraySignature.id_eq_of_variableName hv.symm
  · intro id v hid
    obtain ⟨s, -, -, rfl, hm⟩ := hp.shape_of_binding hid
    exact List.any_eq_true.2 ⟨s.planned, hm, decide_eq_true rfl⟩
  · intro s owner v c' hs hasked
    obtain ⟨⟨_, hp'⟩, rfl, hbinding⟩ := hp.of_addArray hs hasked
    refine ⟨rfl, fun more hmore owner' => ?_⟩
    -- what is bound stays bound, whatever is asked for in between
    obtain ⟨-, -, hkeeps⟩ := hp'.requests hmore
    exact addArray_of_binding (hkeeps _ _ hbinding) owner'
  · intro s owner hs
    have heq := addArrayInPlace_eq hs.flat owner c
    exact ⟨heq, fun e c' h => hfailed _ e c' (heq ▸ h)⟩
  · intro t owner ht
    have heq := ensureInPlace_eq ht.flat owner c
    exact ⟨heq, fun e c' h => hfailed _ e c' (heq ▸ h)⟩

/-- Arrays of a type that is counted on and of one that is not, also in the fields of a type. -/
def mixedRequests : List Request :=
  [.register "i64", .ensure "Grid" (.array (.primitive .i64) 2),
    .addArray "Grid" ⟨.named "Lost", 1⟩,
    .select ⟨"Row", .object [⟨"cells", .array (.primitive .i64) 1, true, true⟩,
      ⟨"rest", .named "Lost", true, true⟩], none⟩]

theorem mixedRequests_spelled : ∀ r ∈ mixedRequests, r.Spelled := by
  have hlost : (TypeRef.array (.named "Lost") 1).Spelled := ⟨"Lost[]", by decide⟩
  have hfields : ∀ f ∈ [Field.mk "cells" (.array (.primitive .i64) 1) true true,
      ⟨"rest", .named "Lost", true, true⟩], f.declared.Spelled :=
    List.forall_mem_cons.2 ⟨⟨"i64[]", by decide⟩, List.forall_mem_singleton.2 ⟨"Lost", by decide⟩⟩
  refine List.forall_mem_cons.2 ⟨trivial, List.forall_mem_cons.2 ⟨⟨"i64[][]", by decide⟩, ?_⟩⟩
  exact List.forall_mem_cons.2 ⟨hlost, List.forall_mem_singleton.2 hfields⟩

/-- The shape of the field that was resolved has stayed, and can be asked for at any later time; the
shape whose elements have no marshaller fails again and changes nothing. -/
theorem requests_shapes_mixed : ∃ c, requests Providers.builtin {} mixedRequests = c ∧
    c.arrays = [⟨.primitive .i64, 2⟩, ⟨.primitive .i64, 1⟩] ∧ c.arrays.Nodup ∧
    (∀ more, (∀ r ∈ more, Request.Spelled r) → ∀ owner,
      (requests Providers.builtin c more).addArray owner ⟨.primitive .i64, 1⟩ =
        .ok (requests Providers.builtin c more, "arr_i64_d1")) ∧
    addArrayInPlace "Grid" ⟨.named "Lost", 1⟩ c = .error (.unknownNested "Grid" "Lost") c := by
  obtain ⟨hnodup, -, -, hagain, hfails, -⟩ :=
    requests_shapes Providers.builtin mixedRequests_spelled rfl
  refine ⟨_, rfl, by decide +kernel, hnodup, ?_, ?_⟩
  · have hasked : (requests Providers.builtin {} mixedRequests).addArray "Row"
        ⟨.primitive .i64, 1⟩ =
          .ok (requests Providers.builtin {} mixedRequests, "arr_i64_d1") := by decide +kernel
    exact (hagain _ _ _ _ ⟨"i64[]", by decide⟩ hasked).2
  · rw [(hfails _ _ ⟨"Lost[]", by decide⟩).1]
    have hfailed : (requests Providers.builtin {} mixedRequests).addArray "Grid"
        ⟨.named "Lost", 1⟩ = .error (.unknownNested "Grid" "Lost") := by decide +kernel
    rw [hfailed]
    rfl

end Context

end TaggedWire
