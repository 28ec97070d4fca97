import TaggedWire.Proofs.Generation.Closed

/-!
# When a plan can be made

A plan can be made of a catalog exactly when nothing that it needs is missing: the catalog is sound,
the classes it names are provided, what has no structure has a class, and what fields and arrays
refer to is there.  The order in which types are taken, and in which arrays are made for them, does
not matter for that.

* `blames_of_plan_eq_error`: what goes wrong with a plan has one of four causes.
* `plan_exists_iff`: when there is a plan, and what an error of it tells.
-/

namespace TaggedWire

/-- The innermost component of an array; another type is its own. -/
def TypeRef.base : TypeRef → TypeRef
  | .array component _ => component.base
  | type => type

theorem TypeRef.base_of_plain {t : TypeRef} (h : t.signature? = none) : t.base = t := by
  cases t with
  | array _ _ => cases h
  | _ => rfl

theorem TypeRef.base_array {s : ArraySignature} (h : s.type.Flat) : s.type.base = s.component :=
  TypeRef.base_of_plain h.2

namespace Catalog

/-- The identifier is the name of a type or an alias. -/
def Knows (c : Catalog) (id : String) : Prop := id ∈ c.names ∨ c.aliases.contains id = true

/-- Values of the type can be written and read: they tell their own type, the type is known, or it
is an array type that has a class or whose component can be told or is known. -/
def Resolvable (c : Catalog) : TypeRef → Prop
  | .any => True
  | .array component dimensions =>
    (∃ t ∈ c.types, t.name = (TypeRef.array component dimensions).id ∧
      t.className.isSome = true) ∨ component = .any ∨ c.Knows component.id
  | type => c.Knows type.id

/-- On behalf of its owner a type is referred to: by the field of an object, or by the name of an
array type, where these have no class. -/
inductive Refers (c : Catalog) : String → TypeRef → Prop
  | field {t : ExposedType} {fields : List Field} {f : Field} (mem : t ∈ c.types)
    (plain : t.className = none) (shape : t.shape = .object fields) (declared : f ∈ fields) :
    Refers c s!"{t.name}.{f.name}" f.declared
  | array {t : ExposedType} {type : TypeRef} (mem : t ∈ c.types) (plain : t.className = none)
    (shape : t.shape = .array) (spelled : TypeRef.parse t.name = .ok type) : Refers c t.name type

variable {c : Catalog}

theorem Refers.spelled (hc : c.Spelled) {owner : String} {type : TypeRef}
    (h : c.Refers owner type) : type.Spelled := by
  cases h with
  | field mem plain shape declared =>
    have hspelled := hc _ mem
    rw [shape] at hspelled
    exact hspelled _ declared
  | array mem plain shape spelled => exact ⟨_, spelled⟩

theorem resolvable_of_plain {type : TypeRef} (h : type.signature? = none) :
    c.Resolvable type ↔ type = .any ∨ c.Knows type.id := by
  cases type with
  | any => exact iff_of_true trivial (.inl rfl)
  | array _ _ => cases h
  | _ =>
    constructor
    · exact .inr
    · rintro (h | h)
      · cases h
      · exact h

theorem resolvable_of_component {s : ArraySignature} (h : s.component = .any ∨
    c.Knows s.component.id) : c.Resolvable s.type := .inr h

/-- What is missing where a type cannot be resolved is its base. -/
theorem not_knows_base {type : TypeRef} (hflat : type.Flat) (h : ¬ c.Resolvable type) :
    type.base ≠ .any ∧ ¬ c.Knows type.base.id := by
  cases hsignature : type.signature? with
  | none =>
    rw [TypeRef.base_of_plain hsignature, ← not_or, ← resolvable_of_plain hsignature]
    exact h
  | some s =>
    obtain rfl := TypeRef.eq_of_signature? hsignature
    rw [TypeRef.base_array hflat, ← not_or]
    exact fun hcomponent => h (resolvable_of_component hcomponent)

/-- A name or an alias denotes a type. -/
theorem knows_iff (hsound : c.Sound) {id : String} :
    c.Knows id ↔ ∃ t ∈ c.types, c.Denotes id t := by
  constructor
  · rintro (hname | halias)
    · obtain ⟨t, ht, rfl⟩ := List.mem_map.1 hname
      exact ⟨t, ht, .inl rfl⟩
    · obtain ⟨target, htarget⟩ := Option.isSome_iff_exists.1 halias
      obtain ⟨t, ht, rfl⟩ := List.mem_map.1 (hsound.aliases _ _ htarget).declared
      exact ⟨t, ht, .inr htarget⟩
  · rintro ⟨t, ht, rfl | halias⟩
    · exact .inl (List.mem_map_of_mem ht)
    · exact .inr (Option.isSome_iff_exists.2 ⟨_, halias⟩)

theorem nodup_aliasesOf (c : Catalog) (name : String) : (c.aliasesOf name).Nodup :=
  c.aliases.nodup_entries.sublist (List.Sublist.map _ List.filter_sublist)

end Catalog

/-! ### What can go wrong

`Derivable` says that nothing is missing, and `Blames` which errors tell of something that is.
One refutes the other, so it is enough to show that every error of a plan blames the catalog or
its providers. -/

namespace Generator

/-- Nothing that a plan needs is missing. -/
structure Derivable (g : Generator) : Prop where
  valid : g.catalog.validate = .ok ()
  provided : ∀ t ∈ g.catalog.types, ∀ className, t.className = some className →
    g.providers.contains className = true
  structured : ∀ t ∈ g.catalog.types, t.shape = .unstructured → t.className.isSome = true
  resolvable : ∀ owner type, g.catalog.Refers owner type → g.catalog.Resolvable type

/-- The error has a cause in the catalog or in the classes that are provided. -/
inductive Blames (g : Generator) : Error → Prop
  | invalid {e : Error} (h : g.catalog.validate = .error e) : Blames g e
  | unknownClass {t : ExposedType} {className : String} (mem : t ∈ g.catalog.types)
    (declared : t.className = some className) (missing : g.providers.contains className = false) :
    Blames g (.unknownClass className t.name)
  | noMarshaller {t : ExposedType} (mem : t ∈ g.catalog.types) (plain : t.className = none)
    (shape : t.shape = .unstructured) : Blames g (.noMarshaller t.name)
  | unknownNested {owner : String} {type : TypeRef} (refers : g.catalog.Refers owner type)
    (missing : ¬ g.catalog.Resolvable type) : Blames g (.unknownNested owner type.base.id)

/-- Where nothing is missing there is nothing to blame. -/
theorem Derivable.not_blames {g : Generator} (h : g.Derivable) {e : Error} : ¬ g.Blames e := by
  intro hblames
  cases hblames with
  | invalid herror =>
    rw [h.valid] at herror
    cases herror
  | unknownClass mem declared missing =>
    rw [h.provided _ mem _ declared] at missing
    cases missing
  | noMarshaller mem plain shape =>
    have hclass := h.structured _ mem shape
    rw [plain] at hclass
    cases hclass
  | unknownNested refers missing => exact missing (h.resolvable _ _ refers)

end Generator

/-! ### Errors of a catalog

The check of a catalog has errors of its own.  None of them can be mistaken for what the making of
a plan answers, which is what the remarks on `duplicateBinding` and `unknownNested` come down to. -/

/-- The error says that a catalog is not sound. -/
def Error.IsFault : Error → Prop
  | .invalidCatalog _ _ | .invalidAlias _ _ _ => True
  | _ => False

namespace ExposedType

variable {t : ExposedType} {e : Error}

theorem isFault_of_checkFields {seen names : List String}
    (h : t.checkFields seen names = .error e) : e.IsFault := by
  induction names generalizing seen with
  | nil => cases h
  | cons name rest ih =>
    unfold checkFields at h
    split at h
    · cases h
      trivial
    · split at h
      · cases h
        trivial
      · split at h
        · cases h
          trivial
        · exact ih h

theorem isFault_of_checkVariants {seen names : List String}
    (h : t.checkVariants seen names = .error e) : e.IsFault := by
  induction names generalizing seen with
  | nil => cases h
  | cons name rest ih =>
    unfold checkVariants at h
    split at h
    · cases h
      trivial
    · exact ih h

theorem isFault_of_check (h : t.check = .error e) : e.IsFault := by
  -- the four checks in their order: name, shape, class, parts
  unfold check at h
  rcases bind_eq_error_iff.1 h with hname | ⟨parsed, -, h⟩
  · unfold checkName at hname
    split at hname
    · cases hname
      trivial
    · split at hname <;> cases hname
      trivial
  rcases bind_eq_error_iff.1 h with hshape | ⟨⟨⟩, -, h⟩
  · unfold checkShape at hshape
    split at hshape <;> cases hshape <;> trivial
  rcases bind_eq_error_iff.1 h with hclass | ⟨⟨⟩, -, h⟩
  · unfold checkClass at hclass
    split at hclass
    · split at hclass <;> cases hclass
      trivial
    · cases hclass
  split at h
  · exact isFault_of_checkFields h
  · exact isFault_of_checkVariants h
  · cases h
  · cases h

end ExposedType

theorem Catalog.isFault_of_checkTypes {seen : List String} {types : List ExposedType} {e : Error}
    (h : checkTypes seen types = .error e) : e.IsFault := by
  induction types generalizing seen with
  | nil => cases h
  | cons t rest ih =>
    rcases bind_eq_error_iff.1 h with hcheck | ⟨⟨⟩, -, h⟩
    · exact ExposedType.isFault_of_check hcheck
    · split at h
      · cases h
        trivial
      · exact ih h

theorem Catalog.isFault_of_checkAlias {names : List String} {name target : String} {e : Error}
    (h : checkAlias names name target = .error e) : e.IsFault := by
  unfold checkAlias at h
  simp only at h
  split at h
  · cases h
    trivial
  · split at h
    · cases h
      trivial
    · cases h
      trivial
    · split at h
      · cases h
        trivial
      · split at h <;> cases h
        trivial

theorem Catalog.isFault_of_validate {c : Catalog} {e : Error} (h : c.validate = .error e) :
    e.IsFault := by
  rcases bind_eq_error_iff.1 h with htypes | ⟨⟨⟩, -, haliases⟩
  · exact isFault_of_checkTypes htypes
  · obtain ⟨_, -, halias⟩ := exists_of_forM_eq_error haliases
    exact isFault_of_checkAlias halias

/-! ### What is missing for a type

A request for a field or an array fails on a type that is not known.  When all names are known and
all classes are bound (`CountsOn`), this is what the catalog does not hold: here the order in which
types are taken stops to matter. -/

namespace Context

variable {c c' : Context} {cat : Catalog}

/-- The context counts on all names and aliases of the catalog, and has bound the types with a
class. -/
structure CountsOn (c : Context) (cat : Catalog) : Prop where
  known : ∀ id, cat.Knows id → c.isKnown id = true
  classes : ∀ t ∈ cat.types, t.className.isSome = true → c.builder.bindings.contains t.name = true

theorem CountsOn.extends (h : c.CountsOn cat) (hext : c.Extends c') : c'.CountsOn cat := by
  constructor
  · intro id hid
    refine isKnown_iff.2 ?_
    rcases isKnown_iff.1 (h.known id hid) with hmem | ⟨v, hv⟩
    · exact .inl (hext.known ▸ hmem)
    · exact .inr ⟨v, hext.binding id v hv⟩
  · intro t ht hclass
    obtain ⟨v, hv⟩ := contains_iff.1 (h.classes t ht hclass)
    exact contains_iff.2 ⟨v, hext.binding _ v hv⟩

theorem ensure_plain_eq_error {owner : String} {type : TypeRef} {e : Error}
    (hplain : type.signature? = none) (h : c.ensure owner type = .error e) :
    e = .unknownNested owner type.id ∧ type ≠ .any ∧ c.isKnown type.id = false := by
  cases type with
  | any => cases h
  | array _ _ => cases hplain
  | _ =>
    unfold ensure at h
    split at h
    · cases h
    · next hknown =>
      cases h
      refine ⟨rfl, ?_, Bool.not_eq_true _ ▸ hknown⟩
      intro hany
      cases hany

/-- A new array shape can always be bound. -/
theorem synthesize_ne_error {s : ArraySignature} {e : Error} (hnew : c.hasArray s = false) :
    c.synthesize s ≠ .error e := by
  intro h
  have hfree : (c.builder.add s.variableName (.array s)).bindings.contains s.id = false := by
    unfold Builder.add
    split <;> exact (Bool.or_eq_false_iff.1 hnew).1
  rcases bind_eq_error_iff.1 h with hbind | ⟨b, -, h⟩
  · unfold Builder.bind at hbind
    rw [hfree] at hbind
    cases hbind
  · cases h

/-- Arrays whose elements tell their own types can always be seen to. -/
theorem ensure_array_any_ne_error {owner : String} {dimensions : Nat} {e : Error} :
    c.ensure owner (.array .any dimensions) ≠ .error e := by
  intro h
  unfold ensure at h
  split at h
  · cases h
  · next hhas => exact synthesize_ne_error (Bool.not_eq_true _ ▸ hhas) h

/-- What cannot be seen to is a type that cannot be resolved; the error tells its base. -/
theorem CountsOn.unresolvable (hc : c.CountsOn cat) {owner : String} {type : TypeRef} {e : Error}
    (hflat : type.Flat) (h : c.ensure owner type = .error e) :
    e = .unknownNested owner type.base.id ∧ ¬ cat.Resolvable type := by
  have hunknown : ∀ u : TypeRef, c.isKnown u.id = false → ¬ cat.Knows u.id := by
    intro u hu hknows
    rw [hc.known _ hknows] at hu
    cases hu
  cases hsignature : type.signature? with
  | none =>
    obtain ⟨rfl, hany, hknown⟩ := ensure_plain_eq_error hsignature h
    rw [TypeRef.base_of_plain hsignature, Catalog.resolvable_of_plain hsignature, not_or]
    exact ⟨rfl, hany, hunknown _ hknown⟩
  | some s =>
    obtain rfl := TypeRef.eq_of_signature? hsignature
    unfold ArraySignature.type ensure at h
    split at h
    · cases h
    · next hhas =>
      have hnew : c.hasArray s = false := Bool.not_eq_true _ ▸ hhas
      rcases bind_eq_error_iff.1 h with hcomponent | ⟨c₁, hcomponent, hmake⟩
      -- The component is missing.  The array could still have been meant by its own name: then it
      -- has a class, and its identifier would be bound by now.
      · obtain ⟨rfl, hany, hknown⟩ := ensure_plain_eq_error hflat.2 hcomponent
        refine ⟨by rw [TypeRef.base_array hflat], ?_⟩
        rintro (⟨t, ht, hname, hclass⟩ | hresolved | hknows)
        · have hbound := hc.classes t ht hclass
          rw [hname] at hbound
          have hfree : c.builder.bindings.contains s.id = false := (Bool.or_eq_false_iff.1 hnew).1
          exact Bool.false_ne_true (hfree.symm.trans hbound)
        · exact hany hresolved
        · exact hunknown _ hknown hknows
      -- The component is there, and with it the array can be made.
      · obtain ⟨rfl, -⟩ := Progress.ensure_of_signature?_eq_none hflat.2 hcomponent
        exact (synthesize_ne_error hnew hmake).elim

/-- Identifiers that differ and are all free can be bound one after the other. -/
theorem exists_bindAll {v : String} {ids : List String} (hnodup : ids.Nodup)
    (hfree : ∀ id ∈ ids, c.builder.binding? id = none) : ∃ c', c.bindAll v ids = .ok c' := by
  have hfold : ∀ b : Builder, (∀ id ∈ ids, b.binding? id = none) →
      ∃ b', ids.foldlM (fun b id => b.bind id v) b = .ok b' := by
    clear hfree
    -- by induction on the identifiers; those still to come stay free, as none is listed twice
    induction ids with
    | nil =>
      intro b _
      exact ⟨b, rfl⟩
    | cons id rest ih =>
      intro b hfree
      obtain ⟨hnotMem, hnodup⟩ := List.nodup_cons.1 hnodup
      obtain ⟨hid, hrest⟩ := List.forall_mem_cons.1 hfree
      have hbind := (Builder.bind_eq_ok_iff b _ id v).2 ⟨hid, rfl⟩
      obtain ⟨-, -, hbinding⟩ := Builder.bind_cases hbind
      obtain ⟨b', hb'⟩ := ih hnodup _ fun id' hid' => by
        have hne : id ≠ id' := by
          rintro rfl
          exact hnotMem hid'
        rw [hbinding, if_neg hne, hrest id' hid']
      exact ⟨b', by rw [List.foldlM_cons]; exact bind_eq_ok_iff.2 ⟨_, hbind, hb'⟩⟩
  obtain ⟨b, hb⟩ := hfold c.builder hfree
  exact ⟨_, bind_eq_ok_iff.2 ⟨b, hb, rfl⟩⟩

end Context

/-! ### What goes wrong with a type

A type can fail when its strategy is selected.  Once it is selected, nothing fails any more: the
identifiers of the type are free, as long as `Progress` holds before it. -/

namespace Progress

variable {g : Generator} {done : List (String × ExposedType)} {shapes : List ArraySignature}
  {c c' : Context} {t : ExposedType} {e : Error}

theorem exists_of_ensureFields_eq_error (hp : Progress g.providers done shapes c) {type : String}
    {fields : List Field} (hfields : ∀ f ∈ fields, f.declared.Spelled)
    (h : c.ensureFields type fields = (c', .error e)) :
    ∃ f ∈ fields, ∃ c₁, c.Extends c₁ ∧ c₁.ensure s!"{type}.{f.name}" f.declared = .error e := by
  induction fields generalizing c shapes with
  | nil => cases h
  | cons f fs ih =>
    obtain ⟨hf, hfs⟩ := List.forall_mem_cons.1 hfields
    unfold Context.ensureFields at h
    split at h
    · next c₁ hensure =>
      -- What was made for the first field stays, also when a later one fails.
      obtain ⟨hp₁, hext₁, -⟩ := hp.ensure hf hensure
      obtain ⟨f', hf', c₂, hext₂, he⟩ := ih hp₁ hfs h
      exact ⟨f', List.mem_cons_of_mem _ hf', c₂, hext₁.trans hext₂, he⟩
    · next e' hensure =>
      cases h
      exact ⟨f, List.mem_cons_self, _, .refl _, hensure⟩

theorem blames_of_selectArray (hsound : g.catalog.Sound) (ht : t ∈ g.catalog.types)
    (hplain : t.className = none) (hshape : t.shape = .array) (hcounts : c.CountsOn g.catalog)
    (h : c.selectArray t.name = (c', .error e)) : g.Blames e := by
  obtain ⟨parsed, hparse, -, hfits⟩ := (hsound.types t ht).named
  unfold Context.selectArray at h
  split at h
  · next e' herror =>
    rw [hparse] at herror
    cases herror
  · next type htype =>
    obtain rfl := Except.ok.inj (hparse.symm.trans htype)
    split at h
    · next hnone =>
      -- an array shape goes with the name of an array only
      rw [hshape] at hfits
      cases parsed with
      | array _ _ => cases hnone
      | _ => exact hfits.elim
    · next s hsignature =>
      split at h
      · cases h
      · next e' hensure =>
        cases h
        obtain rfl := TypeRef.eq_of_signature? hsignature
        obtain ⟨rfl, hmissing⟩ := hcounts.unresolvable (TypeRef.Spelled.flat ⟨_, hparse⟩) hensure
        exact .unknownNested (.array ht hplain hshape hparse) hmissing

/-- A strategy cannot be chosen for want of a class, or of what a field or an array refers to. -/
theorem blames_of_select (hp : Progress g.providers done shapes c) (hsound : g.catalog.Sound)
    (hspelled : g.catalog.Spelled) (ht : t ∈ g.catalog.types)
    (hcounts : t.className = none → c.CountsOn g.catalog)
    (h : c.select g.providers t = (c', .error e)) : g.Blames e := by
  unfold Context.select at h
  split at h
  -- a class that is not provided
  · next className hclass =>
    split at h
    · cases h
    · next hmissing =>
      cases h
      exact .unknownClass ht hclass (Bool.not_eq_true _ ▸ hmissing)
  · next hplain =>
    split at h
    · next hshape => exact blames_of_selectArray hsound ht hplain hshape (hcounts hplain) h
    · cases h
    · next fields hshape =>
      have hfields := hspelled t ht
      rw [hshape] at hfields
      split at h
      · cases h
      -- the first field that fails, in a context with the arrays of those before it
      · next c₁ e' herror =>
        cases h
        obtain ⟨f, hf, c₂, hext, hensure⟩ := hp.exists_of_ensureFields_eq_error hfields herror
        obtain ⟨rfl, hmissing⟩ :=
          ((hcounts hplain).extends hext).unresolvable (hfields f hf).flat hensure
        exact .unknownNested (.field ht hplain hshape hf) hmissing
    · cases h

/-- There is no strategy for a type without class and structure. -/
theorem unstructured_of_select (h : c.select g.providers t = (c', .ok none)) :
    t.className = none ∧ t.shape = .unstructured := by
  unfold Context.select at h
  split at h
  · split at h <;> cases h
  · next hplain =>
    split at h
    · unfold Context.selectArray at h
      split at h
      · cases h
      · split at h
        · cases h
        · split at h <;> cases h
    · cases h
    · split at h <;> cases h
    · next hshape => exact ⟨hplain, hshape⟩

/-- The name of a type that has not been taken can be bound, unless its array marshaller is bound
there already. -/
theorem addStrategy_ne_error (hp : Progress g.providers done shapes c) {strategy : Strategy}
    (hfresh : ∀ p ∈ done, p.1 ≠ t.name)
    (hshape : ∀ s, strategy = .array s → s ∈ shapes)
    (hname : (∀ s, strategy ≠ .array s) → ∀ s ∈ shapes, s.id ≠ t.name) :
    c.addStrategy t.name strategy ≠ .error e := by
  intro h
  unfold Context.addStrategy at h
  split at h
  · next s =>
    obtain ⟨v, hv⟩ := Context.contains_iff.1 (hp.ofShape s (hshape s rfl))
    rw [hv] at h
    cases h
  · next hplain =>
    rcases bind_eq_error_iff.1 h with hbind | ⟨b, -, h⟩
    · unfold Builder.bind at hbind
      split at hbind
      · next hbound =>
        -- The name is bound already, but a type done before has another name, and so has an
        -- array asked for.
        obtain ⟨v, hv⟩ := Context.contains_iff.1 hbound
        rw [Builder.binding?_add] at hv
        obtain ⟨m, -, -, horigin⟩ := hp.ofBinding _ v hv
        cases horigin with
        | type u mem planned => exact hfresh _ mem rfl
        | shape s mem planned eq => exact hname (fun s hs => hplain s hs) s mem eq.symm
      · cases hbind
    · cases h

/-- The aliases of a type whose name has just been taken can be bound. -/
theorem aliases_free (hp : Progress g.providers (done ++ [(t.name, t)]) shapes c)
    (hsound : g.catalog.Sound) (ht : t ∈ g.catalog.types)
    (hdone : ∀ p ∈ done, p.2 ∈ g.catalog.types ∧ g.catalog.Denotes p.1 p.2)
    (hfresh : ∀ p ∈ done, p.2.name ≠ t.name) :
    ∀ id ∈ g.catalog.aliasesOf t.name, c.builder.binding? id = none := by
  intro id hid
  have halias := Catalog.mem_aliasesOf.1 hid
  cases hbound : c.builder.binding? id with
  | none => rfl
  | some v =>
    exfalso
    obtain ⟨m, -, -, horigin⟩ := hp.ofBinding id v hbound
    cases horigin with
    | type u mem planned =>
      rcases List.mem_append.1 mem with mem | mem
      -- an earlier type: an alias denotes one type only
      · obtain ⟨hu, hdenotes⟩ := hdone _ mem
        exact hfresh _ mem (congrArg _ (hsound.eq_of_denotes hu ht hdenotes (.inr halias)))
      -- the type itself: an alias is never the name of a type
      · cases List.mem_singleton.1 mem
        exact (hsound.aliases _ _ halias).fresh (List.mem_map_of_mem ht)
    -- an array: an alias is never spelled like one
    | shape s mem planned eq => exact hsound.alias_ne_id halias (hp.spelled s mem) eq.symm

/-- A type cannot be taken for want of a class, of structure, or of what it refers to; that an
identifier is bound twice does not occur. -/
theorem blames_of_addType (hp : Progress g.providers done shapes c) (hsound : g.catalog.Sound)
    (hspelled : g.catalog.Spelled) (ht : t ∈ g.catalog.types)
    (hdone : ∀ p ∈ done, p.2 ∈ g.catalog.types ∧ g.catalog.Denotes p.1 p.2)
    (hfresh : ∀ p ∈ done, p.1 ≠ t.name ∧ p.2.name ≠ t.name)
    (hclass : t.className.isSome = true → shapes = [])
    (hcounts : t.className = none → c.CountsOn g.catalog)
    (h : c.addType g.providers g.catalog.aliasesOf t = .error e) : g.Blames e := by
  unfold Context.addType at h
  split at h
  · next herror =>
    cases h
    exact hp.blames_of_select hsound hspelled ht hcounts herror
  · next hnone =>
    cases h
    obtain ⟨hplain, hshape⟩ := unstructured_of_select hnone
    exact .noMarshaller ht hplain hshape
  · next c₁ strategy hselect =>
    -- From here on every step succeeds: first the one for the name of the type, then its aliases.
    exfalso
    obtain ⟨hp₁, -, hstrategy, hwarranted⟩ := hp.select (hspelled t ht) hselect
    have hshape : ∀ s, strategy = .array s → s ∈ shapes ++ t.shapes ∧ s.id = t.name := by
      rintro s rfl
      obtain ⟨hmem, hid⟩ := shape_of_strategy? (hsound.types t ht) hstrategy
      exact ⟨List.mem_append_right _ hmem, hid⟩
    rcases bind_eq_error_iff.1 h with hadd | ⟨⟨c₂, v⟩, hadd, hbind⟩
    · refine hp₁.addStrategy_ne_error (fun p hp => (hfresh p hp).1) (fun s hs => (hshape s hs).1)
        (fun hplain s hs => ?_) hadd
      -- types with a class come before all array shapes
      cases hclassName : t.className with
      | some className =>
        rw [hclass (hclassName ▸ rfl), List.nil_append] at hs
        have hnone := (ExposedType.mem_shapes.1 hs).1
        rw [hclassName] at hnone
        cases hnone
      | none =>
        refine hsound.name_ne_id ht ?_ (hp₁.spelled s hs)
        cases htshape : t.shape with
        | object fields => exact .inl ⟨fields, rfl⟩
        | enumeration variants => exact .inr ⟨variants, rfl⟩
        | array =>
          simp only [ExposedType.strategy?, hclassName, htshape] at hstrategy
          obtain ⟨u, -, hu⟩ := Option.map_eq_some_iff.1 hstrategy
          exact absurd hu.symm (hplain u)
        | unstructured =>
          simp only [ExposedType.strategy?, hclassName, htshape] at hstrategy
          cases hstrategy
    · obtain ⟨hp₂, -, -⟩ := hp₁.addStrategy hstrategy hfresh hwarranted hshape hadd
      obtain ⟨c₃, hc₃⟩ := Context.exists_bindAll (v := v)
        (g.catalog.nodup_aliasesOf t.name)
        (hp₂.aliases_free hsound ht hdone fun p hp => (hfresh p hp).2)
      cases hc₃.symm.trans hbind

end Progress

namespace Generator

variable {g : Generator} {package className : String}

/-- Where a type without a class is taken all those with one have been, and where a type with a
class is taken only such have been. -/
theorem ordered_split {types before after : List ExposedType} {t : ExposedType}
    (h : ordered types = before ++ t :: after) :
    (t.className = none → ∀ u ∈ types, u.className.isSome = true → u ∈ before) ∧
      (t.className.isSome = true → ∀ u ∈ before, u.className.isSome = true) := by
  have hplain : ∀ u ∈ (types.filter (·.className.isNone)).filter (·.shape.isEnumeration) ++
      (types.filter (·.className.isNone)).filter (fun t => !t.shape.isEnumeration),
      u.className = none := by
    intro u hu
    have hfilter : u ∈ types.filter (·.className.isNone) :=
      (List.mem_append.1 hu).elim List.mem_of_mem_filter List.mem_of_mem_filter
    exact Option.isNone_iff_eq_none.1 (List.mem_filter.1 hfilter).2
  unfold ordered at h
  rw [List.append_assoc] at h
  -- The split falls behind the types with a class or among them.
  rcases List.append_eq_append_iff.1 h with ⟨between, rfl, hrest⟩ | ⟨between, hclasses, hrest⟩
  · have ht : t.className = none := hplain t (hrest ▸ List.mem_append_right _ List.mem_cons_self)
    constructor
    · intro _ u hu hclass
      exact List.mem_append_left _ (List.mem_filter.2 ⟨hu, hclass⟩)
    · intro hclass
      rw [ht] at hclass
      cases hclass
  · cases between with
    | nil =>
      rw [List.append_nil] at hclasses
      have ht : t.className = none := hplain t (hrest ▸ List.mem_cons_self)
      constructor
      · intro _ u hu hclass
        exact hclasses ▸ List.mem_filter.2 ⟨hu, hclass⟩
      · intro hclass
        rw [ht] at hclass
        cases hclass
    | cons t' between =>
      obtain ⟨rfl, -⟩ := List.cons.inj hrest
      have hclass : ∀ u ∈ before ++ t :: between, u.className.isSome = true := by
        intro u hu
        rw [← hclasses] at hu
        exact (List.mem_filter.1 hu).2
      constructor
      · intro hnone
        have ht := hclass t (List.mem_append_right _ List.mem_cons_self)
        rw [hnone] at ht
        cases ht
      · exact fun _ u hu => hclass u (List.mem_append_left _ hu)

/-- When all types with a class have been taken, a context that started with every name and alias
counts on them. -/
theorem countsOn_of_progress {types : List ExposedType} {shapes : List ArraySignature}
    {c : Context} (hp : Progress g.providers (types.flatMap g.catalog.taken) shapes c)
    (hknown : c.known = (registered g.catalog.canonical).known)
    (hclasses : ∀ t ∈ g.catalog.types, t.className.isSome = true → t ∈ types) :
    c.CountsOn g.catalog := by
  constructor
  · intro id hid
    refine Context.isKnown_iff.2 (.inl ?_)
    rw [hknown]
    refine List.mem_append.2 (hid.imp (fun hname => ?_) fun halias => ?_)
    · exact ((Catalog.sortByName_perm _).map _).mem_iff.2 hname
    · obtain ⟨target, htarget⟩ := Option.isSome_iff_exists.1 halias
      exact List.mem_map_of_mem ((Table.mem_entries_iff _ _ _).2 htarget)
  · intro t ht hclass
    obtain ⟨m, -, -, hbinding⟩ :=
      hp.ofType t.name t (Catalog.mem_flatMap_taken.2 ⟨hclasses t ht hclass, .inl rfl⟩)
    exact Context.contains_iff.2 ⟨_, hbinding⟩

/-- What goes wrong while types are taken goes wrong with one of them, after the types before it. -/
theorem blames_of_run_eq_error (hsound : g.catalog.Sound) (hspelled : g.catalog.Spelled)
    {e : Error} (h : (ordered g.catalog.canonical.types).foldlM
      (Context.addType g.providers g.catalog.aliasesOf) (registered g.catalog.canonical) =
        .error e) : g.Blames e := by
  -- The first type that fails splits the run, and `Progress` holds of what was made before it.
  obtain ⟨before, t, after, c, hsplit, hbefore, hadd⟩ := exists_of_foldlM_eq_error h
  have hperm : (before ++ t :: after).Perm g.catalog.types :=
    hsplit ▸ (ordered_perm _).trans (Catalog.sortByName_perm _)
  have hmem : ∀ u ∈ before, u ∈ g.catalog.types := fun u hu =>
    hperm.mem_iff.1 (List.mem_append_left _ hu)
  have ht : t ∈ g.catalog.types :=
    hperm.mem_iff.1 (List.mem_append_right _ List.mem_cons_self)
  have hnodup : ((before ++ t :: after).map ExposedType.name).Nodup :=
    (hperm.map _).nodup_iff.2 hsound.nodup
  have hnames : ∀ u ∈ before, u.name ≠ t.name := by
    intro u hu
    rw [List.map_append, List.map_cons, List.nodup_append] at hnodup
    exact hnodup.2.2 _ (List.mem_map_of_mem hu) _ List.mem_cons_self
  obtain ⟨hplain, hclass⟩ := ordered_split hsplit
  obtain ⟨hp, hext⟩ := (Progress.start (registered g.catalog.canonical).known).run hsound
    hspelled [] (hnodup.sublist ((List.sublist_append_left _ _).map _)) hmem hbefore
  rw [List.nil_append] at hp
  -- remaining: the types done, their names, no array before a class, all classes before the rest
  refine hp.blames_of_addType hsound hspelled ht ?_ ?_ ?_ ?_ hadd
  · rintro ⟨id, u⟩ htaken
    obtain ⟨hu, hdenotes⟩ := Catalog.mem_flatMap_taken.1 htaken
    exact ⟨hmem u hu, hdenotes⟩
  · rintro ⟨id, u⟩ htaken
    obtain ⟨hu, hdenotes⟩ := Catalog.mem_flatMap_taken.1 htaken
    refine ⟨fun hid => hnames u hu ?_, hnames u hu⟩
    exact congrArg _ (hsound.eq_of_denotes (hmem u hu) ht hdenotes (.inl hid))
  · intro hisSome
    refine List.flatMap_eq_nil_iff.2 fun u hu => List.eq_nil_iff_forall_not_mem.2 fun s hs => ?_
    have hu := hclass hisSome u hu
    rw [(ExposedType.mem_shapes.1 hs).1] at hu
    cases hu
  · intro hnone
    refine countsOn_of_progress hp hext.known fun u hu hisSome => ?_
    exact hplain hnone u ((Catalog.sortByName_perm _).mem_iff.2 hu) hisSome

/-- What goes wrong with a plan has a cause in the catalog or in the classes. -/
theorem blames_of_plan_eq_error (hspelled : g.catalog.Spelled) {e : Error}
    (h : g.plan package className = .error e) : g.Blames e := by
  unfold plan at h
  rcases bind_eq_error_iff.1 h with hinvalid | ⟨⟨⟩, hvalid, h⟩
  · exact .invalid hinvalid
  · rcases bind_eq_error_iff.1 h with hrun | ⟨made, -, h⟩
    · exact blames_of_run_eq_error (Catalog.validate_eq_ok_iff.1 hvalid) hspelled hrun
    · rcases bind_eq_error_iff.1 h with hensure | ⟨c, -, h⟩
      · exact (Context.ensure_array_any_ne_error hensure).elim
      · cases h

/-! ### What a plan tells

The other direction is read off the bindings of a finished plan.  A binding is there for a type of
the catalog or for an array, and the arrays lead on to their components. -/

section

variable {done : List (String × ExposedType)} {shapes : List ArraySignature} {c : Context}

/-- What is bound, and no array, is known. -/
theorem knows_of_binding (hp : Progress g.providers done shapes c) (hsound : g.catalog.Sound)
    (hdone : ∀ id t, (id, t) ∈ done ↔ t ∈ g.catalog.types ∧ g.catalog.Denotes id t)
    {type : TypeRef} (hspelled : type.Spelled) (hplain : type.signature? = none) {v : String}
    (h : c.builder.binding? type.id = some v) : g.catalog.Knows type.id := by
  obtain ⟨m, -, -, horigin⟩ := hp.ofBinding _ v h
  cases horigin with
  | type t mem planned => exact (Catalog.knows_iff hsound).2 ⟨t, (hdone _ t).1 mem⟩
  | shape s mem planned eq =>
    obtain rfl := hspelled.id_injective (hp.spelled s mem) eq
    cases hplain

/-- The component of a planned array can be told or is known. -/
theorem resolvable_of_planned (hp : Progress g.providers done shapes c)
    (hsound : g.catalog.Sound)
    (hdone : ∀ id t, (id, t) ∈ done ↔ t ∈ g.catalog.types ∧ g.catalog.Denotes id t)
    (hresolves : ∀ type, c.Resolves type →
      type = .any ∨ c.builder.bindings.contains type.id = true)
    {s : ArraySignature} (hs : s.type.Spelled) (h : s.planned ∈ c.builder.marshallers) :
    g.catalog.Resolvable s.type := by
  refine Catalog.resolvable_of_component ((hresolves _ (hp.warranted _ h)).imp id fun hbound => ?_)
  obtain ⟨v, hv⟩ := Context.contains_iff.1 hbound
  exact knows_of_binding hp hsound hdone hs.component hs.flat.2 hv

/-- What is counted on can be resolved. -/
theorem resolvable_of_resolves (hp : Progress g.providers done shapes c)
    (hsound : g.catalog.Sound)
    (hdone : ∀ id t, (id, t) ∈ done ↔ t ∈ g.catalog.types ∧ g.catalog.Denotes id t)
    (hresolves : ∀ type, c.Resolves type →
      type = .any ∨ c.builder.bindings.contains type.id = true)
    {type : TypeRef} (hspelled : type.Spelled) (h : c.Resolves type) :
    g.catalog.Resolvable type := by
  rcases hresolves type h with rfl | hbound
  · trivial
  obtain ⟨v, hv⟩ := Context.contains_iff.1 hbound
  cases hsignature : type.signature? with
  | none =>
    exact (Catalog.resolvable_of_plain hsignature).2
      (.inr (knows_of_binding hp hsound hdone hspelled hsignature hv))
  | some s =>
    obtain rfl := TypeRef.eq_of_signature? hsignature
    -- An array is bound as the type of that name or as a shape of its own.
    obtain ⟨m, hm, -, horigin⟩ := hp.ofBinding _ v hv
    cases horigin with
    | type t mem planned =>
      obtain ⟨ht, hname | halias⟩ := (hdone _ t).1 mem
      · rcases Progress.class_or_planned hsound ht hspelled hname planned with hclass | rfl
        · exact .inl ⟨t, ht, hname.symm, hclass⟩
        · exact resolvable_of_planned hp hsound hdone hresolves hspelled hm
      · exact (hsound.alias_ne_id halias hspelled rfl).elim
    | shape u mem planned eq =>
      obtain rfl := ArraySignature.eq_of_id hspelled (hp.spelled u mem) eq
      exact resolvable_of_planned hp hsound hdone hresolves hspelled (planned ▸ hm)

end

/-- Nothing is missing where there is a plan. -/
theorem derivable_of_plan (hspelled : g.catalog.Spelled) {p : Plan}
    (h : g.plan package className = .ok p) : g.Derivable := by
  obtain ⟨hsound, done, shapes, c, hp, rfl, hdone, -, hresolves⟩ := progress_of_plan hspelled h
  -- Each of the four conditions is what the strategy planned for a type counts on.
  have hplanned : ∀ t ∈ g.catalog.types, ∃ strategy, t.strategy? = some strategy ∧
      strategy.planned t.name ∈ c.builder.marshallers := by
    intro t ht
    obtain ⟨m, hm, hplanned, -⟩ := hp.ofType t.name t ((hdone _ t).2 ⟨ht, .inl rfl⟩)
    obtain ⟨strategy, hstrategy, rfl⟩ := Option.map_eq_some_iff.1 hplanned
    exact ⟨strategy, hstrategy, hm⟩
  constructor
  case valid => exact Catalog.validate_eq_ok_iff.2 hsound
  case provided =>
    intro t ht className hclass
    obtain ⟨strategy, hstrategy, hm⟩ := hplanned t ht
    simp only [ExposedType.strategy?, hclass] at hstrategy
    cases hstrategy
    exact hp.warranted _ hm
  case structured =>
    intro t ht hshape
    obtain ⟨strategy, hstrategy, -⟩ := hplanned t ht
    cases hclass : t.className with
    | some className => rfl
    | none =>
      simp only [ExposedType.strategy?, hclass, hshape] at hstrategy
      cases hstrategy
  case resolvable =>
    intro owner type hrefers
    have htype := hrefers.spelled hspelled
    cases hrefers with
    | @field t fields f mem plain shape declared =>
      obtain ⟨strategy, hstrategy, hm⟩ := hplanned t mem
      simp only [ExposedType.strategy?, plain, shape] at hstrategy
      cases hstrategy
      exact resolvable_of_resolves hp hsound hdone hresolves htype (hp.warranted _ hm f declared)
    | @array t type mem plain shape spelled =>
      obtain ⟨strategy, hstrategy, hm⟩ := hplanned t mem
      simp only [ExposedType.strategy?, plain, shape] at hstrategy
      obtain ⟨s, hs, rfl⟩ := Option.map_eq_some_iff.1 hstrategy
      rw [ExposedType.spelledShape?, spelled] at hs
      obtain rfl := TypeRef.eq_of_signature? hs
      exact resolvable_of_planned hp hsound hdone hresolves htype hm

/-- A plan can be made exactly when nothing that it needs is missing.  Making one never binds an
identifier twice, and where a type is said to be unknown, the owner refers to a type over it, and it
is neither the type of all values nor a name nor an alias. -/
theorem plan_exists_iff (hdocumented : g.catalog.Documented) (package className : String) :
    ((∃ p, g.plan package className = .ok p) ↔ g.Derivable) ∧
      (∀ id, g.plan package className ≠ .error (.duplicateBinding id)) ∧
      ∀ owner referenced, g.plan package className = .error (.unknownNested owner referenced) →
        ∃ type, g.catalog.Refers owner type ∧ referenced = type.base.id ∧ type.base ≠ .any ∧
          referenced ∉ g.catalog.names ∧ g.catalog.aliases.contains referenced = false := by
  have hspelled := hdocumented.spelled
  refine ⟨⟨?_, ?_⟩, ?_, ?_⟩
  · rintro ⟨p, hp⟩
    exact derivable_of_plan hspelled hp
  · intro hderivable
    cases hplan : g.plan package className with
    | ok p => exact ⟨p, rfl⟩
    | error e => exact (hderivable.not_blames (blames_of_plan_eq_error hspelled hplan)).elim
  -- none of the four causes is a binding made twice
  · intro id hplan
    cases blames_of_plan_eq_error hspelled hplan with
    | invalid herror => exact Catalog.isFault_of_validate herror
  · intro owner referenced hplan
    cases blames_of_plan_eq_error hspelled hplan with
    | invalid herror => exact (Catalog.isFault_of_validate herror).elim
    | @unknownNested _ type refers missing =>
      obtain ⟨hany, hknows⟩ := Catalog.not_knows_base (refers.spelled hspelled).flat missing
      rw [Catalog.Knows, not_or, Bool.not_eq_true] at hknows
      exact ⟨type, refers, rfl, hany, hknows⟩

/-- An object type with an array in a field whose component is no type. -/
def frayedDocument : String :=
  "\x7b\"types\":[\x7b\"name\":\"Knot\",\"kind\":\"object\",\"fields\":[" ++
    "\x7b\"name\":\"ends\",\"type\":\"Gone[][]\"\x7d]\x7d]\x7d"

/-- The catalog of the document. -/
def frayed : Catalog :=
  ⟨[⟨"Knot", .object [⟨"ends", .array (.named "Gone") 2, true, true⟩], none⟩], Table.ofList []⟩

theorem parse_frayedDocument : Catalog.parse .json frayedDocument = .ok frayed := by
  have h : (Catalog.parse .json frayedDocument).toOption = some frayed := by decide +kernel
  exact toOption_eq_some_iff.1 h

theorem plan_frayed : (Catalog.builtin.merged frayed).toOption.any (fun c =>
    match (⟨c, Providers.builtin⟩ : Generator).plan "demo" "Factory" with
    | .ok _ => false
    | .error e => decide (e = .unknownNested "Knot.ends" "Gone")) = true := by
  decide +kernel

/-- The knots have a plan; a knot whose ends are of a type that is not there has none. -/
theorem plan_exists_iff_frayed :
    (∃ c, Catalog.builtin.merged knots = .ok c ∧ Derivable ⟨c, Providers.builtin⟩) ∧
      ∃ c, Catalog.builtin.merged frayed = .ok c ∧ ¬ Derivable ⟨c, Providers.builtin⟩ ∧
        ∃ type, c.Refers "Knot.ends" type ∧ "Gone" = type.base.id ∧ "Gone" ∉ c.names := by
  constructor
  · obtain ⟨p, hp⟩ := Option.isSome_iff_exists.1 planOver_knots
    obtain ⟨c, hc, hplan⟩ := bind_eq_ok_iff.1 (toOption_eq_some_iff.1 hp)
    refine ⟨c, hc, ?_⟩
    have hdocumented := Catalog.Documented.merged .builtin (.parse parse_knotDocument) hc
    exact (plan_exists_iff (g := ⟨c, Providers.builtin⟩) hdocumented "demo"
      "Factory").1.1 ⟨p, hplan⟩
  · obtain ⟨c, hc, herror⟩ := (Option.any_eq_true _ _).1 plan_frayed
    have hc := toOption_eq_some_iff.1 hc
    have hdocumented := Catalog.Documented.merged .builtin (.parse parse_frayedDocument) hc
    obtain ⟨hiff, -, hunknown⟩ :=
      plan_exists_iff (g := ⟨c, Providers.builtin⟩) hdocumented "demo" "Factory"
    split at herror
    · cases herror
    · next e hplan =>
      obtain rfl := of_decide_eq_true herror
      obtain ⟨type, hrefers, hbase, -, hname, -⟩ := hunknown _ _ hplan
      refine ⟨c, hc, fun hderivable => ?_, type, hrefers, hbase, hname⟩
      obtain ⟨p, hp⟩ := hiff.2 hderivable
      cases hp.symm.trans hplan

end Generator
end TaggedWire
