import Mathlib.Data.List.Nodup
import TaggedWire.Catalog.Load
import TaggedWire.Proofs.Results
import TaggedWire.Proofs.TypeRef.Spelled

/-!
# Sound catalogs

What the checks of a catalog come to, said without the order in which they are made: the checks pass
exactly for a sound catalog, and what it is to be sound does not depend on the order of the types.

* `validate_eq_ok_iff`: the checks pass exactly for a sound catalog.
* `canonical_eq_of_perm`: where names differ, the canonical order tells nothing of the order of
  declaration.
* `Documented.spelled`: the types of fields in a catalog from documents have spellings.
-/

namespace TaggedWire

/-- Texts that are new and differ, one after the other. -/
theorem fresh_cons_iff {s : String} {rest seen : List String} :
    (s ∉ seen ∧ rest.Nodup ∧ ∀ t ∈ rest, t ∉ s :: seen) ↔
      (s :: rest).Nodup ∧ ∀ t ∈ s :: rest, t ∉ seen := by
  rw [List.nodup_cons, List.forall_mem_cons]
  constructor
  · rintro ⟨hs, hnodup, hrest⟩
    exact ⟨⟨fun h => hrest s h List.mem_cons_self, hnodup⟩, hs,
      fun t ht => List.not_mem_of_not_mem_cons (hrest t ht)⟩
  · rintro ⟨⟨hs, hnodup⟩, hseen, hrest⟩
    refine ⟨hseen, hnodup, ?_⟩
    intro t ht
    rw [List.mem_cons, not_or]
    exact ⟨fun h => hs (h ▸ ht), hrest t ht⟩

/-! ### Types by themselves

What the check of a type looks at, as a statement about the type. -/

/-- The shape goes with a type of this form. -/
def Shape.Fits : Shape → TypeRef → Prop
  | .object _, .named _ | .enumeration _, .named _ | .array, .array _ _ => True
  | .object _, _ | .enumeration _, _ | .array, _ | .unstructured, .array _ _ => False
  | .unstructured, _ => True

/-- The name of a field is neither empty nor reserved. -/
def IsFieldName (name : String) : Prop := name ≠ "" ∧ name.toList.head? ≠ some '^'

/-- The parts of a shape have names, and these differ. -/
def Shape.Distinct : Shape → Prop
  | .object fields =>
    (∀ name ∈ fields.map (·.name), IsFieldName name) ∧ (fields.map (·.name)).Nodup
  | .enumeration variants => (∀ name ∈ variants, name ≠ "") ∧ variants.Nodup
  | .array | .unstructured => True

/-- The name is the identifier of the type it spells, the shape goes with it, and class and parts
have names. -/
structure ExposedType.Sound (t : ExposedType) : Prop where
  named : ∃ parsed, TypeRef.parse t.name = .ok parsed ∧ parsed.id = t.name ∧ t.shape.Fits parsed
  classNamed : ∀ name, t.className = some name → Text.trim name ≠ ""
  distinct : t.shape.Distinct

namespace ExposedType

theorem checkName_eq_ok_iff {t : ExposedType} {parsed : TypeRef} :
    t.checkName = .ok parsed ↔ TypeRef.parse t.name = .ok parsed ∧ parsed.id = t.name := by
  unfold checkName
  cases TypeRef.parse t.name with
  | error e => simp
  | ok found =>
    by_cases h : found.id = t.name
    · simp only [h, if_true, Except.ok.injEq]
      constructor
      · intro e
        exact ⟨e, e ▸ h⟩
      · intro e
        exact e.1
    · simp only [h, if_false, reduceCtorEq, Except.ok.injEq, false_iff, not_and]
      rintro rfl
      exact h

theorem checkShape_eq_ok_iff {t : ExposedType} {parsed : TypeRef} :
    t.checkShape parsed = .ok () ↔ t.shape.Fits parsed := by
  unfold checkShape Shape.Fits
  cases t.shape <;> cases parsed <;> simp

theorem checkClass_eq_ok_iff {t : ExposedType} :
    t.checkClass = .ok () ↔ ∀ name, t.className = some name → Text.trim name ≠ "" := by
  unfold checkClass
  cases t.className with
  | none => simp
  | some name => simp

theorem checkFields_eq_ok_iff {t : ExposedType} {seen names : List String} :
    t.checkFields seen names = .ok () ↔
      (∀ name ∈ names, IsFieldName name) ∧ names.Nodup ∧ ∀ name ∈ names, name ∉ seen := by
  induction names generalizing seen with
  | nil => simp [checkFields]
  | cons name rest ih =>
    unfold checkFields
    rw [guard_eq_ok_iff, guard_eq_ok_iff, guard_eq_ok_iff, ih, List.forall_mem_cons,
      ← fresh_cons_iff]
    unfold IsFieldName
    tauto

theorem checkVariants_eq_ok_iff {t : ExposedType} {seen names : List String} :
    t.checkVariants seen names = .ok () ↔
      (∀ name ∈ names, name ≠ "") ∧ names.Nodup ∧ ∀ name ∈ names, name ∉ seen := by
  induction names generalizing seen with
  | nil => simp [checkVariants]
  | cons name rest ih =>
    unfold checkVariants
    rw [guard_eq_ok_iff, ih, List.forall_mem_cons, ← fresh_cons_iff]
    tauto

theorem check_eq_ok_iff {t : ExposedType} : t.check = .ok () ↔ t.Sound := by
  obtain ⟨name, shape, className⟩ := t
  unfold check
  rw [bind_eq_ok_iff]
  constructor
  · rintro ⟨parsed, hname, h⟩
    obtain ⟨⟨⟩, hshape, h⟩ := bind_eq_ok_iff.1 h
    obtain ⟨⟨⟩, hclass, hparts⟩ := bind_eq_ok_iff.1 h
    obtain ⟨hparse, hid⟩ := checkName_eq_ok_iff.1 hname
    refine ⟨⟨parsed, hparse, hid, checkShape_eq_ok_iff.1 hshape⟩,
      checkClass_eq_ok_iff.1 hclass, ?_⟩
    cases shape with
    | object fields =>
      obtain ⟨hnames, hnodup, -⟩ := checkFields_eq_ok_iff.1 hparts
      exact ⟨hnames, hnodup⟩
    | enumeration variants =>
      obtain ⟨hnames, hnodup, -⟩ := checkVariants_eq_ok_iff.1 hparts
      exact ⟨hnames, hnodup⟩
    | array | unstructured => trivial
  · rintro ⟨⟨parsed, hparse, hid, hfits⟩, hclass, hparts⟩
    refine ⟨parsed, checkName_eq_ok_iff.2 ⟨hparse, hid⟩, ?_⟩
    refine bind_eq_ok_iff.2 ⟨(), checkShape_eq_ok_iff.2 hfits, ?_⟩
    refine bind_eq_ok_iff.2 ⟨(), checkClass_eq_ok_iff.2 hclass, ?_⟩
    cases shape with
    | object fields =>
      exact checkFields_eq_ok_iff.2 ⟨hparts.1, hparts.2, fun _ _ => List.not_mem_nil⟩
    | enumeration variants =>
      exact checkVariants_eq_ok_iff.2 ⟨hparts.1, hparts.2, fun _ _ => List.not_mem_nil⟩
    | array | unstructured => rfl

end ExposedType

/-! ### Whole catalogs

Names are compared with those seen so far, so that soundness does not depend on the order of types.
-/

namespace Catalog

/-- The names of the types. -/
def names (c : Catalog) : List String := c.types.map (·.name)

/-- A name of its own, and not that of an array, for a declared type. -/
structure SoundAlias (names : List String) (name target : String) : Prop where
  fresh : name ∉ names
  declared : target ∈ names
  named : ∃ parsed, TypeRef.parse name = .ok parsed ∧ parsed.signature? = none ∧ parsed.id = name

/-- Each type is sound, names differ, and aliases are new names for declared types. -/
structure Sound (c : Catalog) : Prop where
  types : ∀ t ∈ c.types, t.Sound
  nodup : c.names.Nodup
  aliases : ∀ name target, c.aliases.get? name = some target → SoundAlias c.names name target

theorem checkTypes_eq_ok_iff {seen : List String} {types : List ExposedType} :
    checkTypes seen types = .ok () ↔
      (∀ t ∈ types, t.Sound) ∧ (types.map (·.name)).Nodup ∧
        ∀ name ∈ types.map (·.name), name ∉ seen := by
  induction types generalizing seen with
  | nil => simp [checkTypes]
  | cons t rest ih =>
    have hcons : checkTypes seen (t :: rest) = t.check >>= fun _ =>
        if t.name ∈ seen then .error (t.fault "type declared more than once")
        else checkTypes (t.name :: seen) rest := rfl
    rw [hcons, bind_eq_ok_iff, List.forall_mem_cons, List.map_cons, ← fresh_cons_iff]
    constructor
    · rintro ⟨⟨⟩, ht, h⟩
      obtain ⟨hseen, h⟩ := guard_eq_ok_iff.1 h
      obtain ⟨hsound, hnodup, hrest⟩ := ih.1 h
      exact ⟨⟨ExposedType.check_eq_ok_iff.1 ht, hsound⟩, hseen, hnodup, hrest⟩
    · rintro ⟨⟨ht, hsound⟩, hseen, hnodup, hrest⟩
      refine ⟨(), ExposedType.check_eq_ok_iff.2 ht, ?_⟩
      exact guard_eq_ok_iff.2 ⟨hseen, ih.2 ⟨hsound, hnodup, hrest⟩⟩

theorem checkAlias_eq_ok_iff {names : List String} {name target : String} :
    checkAlias names name target = .ok () ↔ SoundAlias names name target := by
  constructor
  · intro h
    unfold checkAlias at h
    obtain ⟨hfresh, h⟩ := guard_eq_ok_iff.1 h
    split at h
    · cases h
    · cases h
    · next parsed hplain hparse =>
      obtain ⟨hid, h⟩ := guard_eq_ok_iff.1 h
      have hsignature : parsed.signature? = none := by
        cases parsed with
        | array component dimensions => exact (hplain component dimensions rfl).elim
        | _ => rfl
      split at h
      · next htarget => exact ⟨hfresh, htarget, parsed, hparse, hsignature, not_not.1 hid⟩
      · cases h
  · rintro ⟨hfresh, htarget, parsed, hparse, hsignature, hid⟩
    unfold checkAlias
    rw [guard_eq_ok_iff, hparse]
    refine ⟨hfresh, ?_⟩
    cases parsed with
    | array component dimensions => cases hsignature
    | _ => exact guard_eq_ok_iff.2 ⟨not_not.2 hid, if_pos htarget⟩

/-- The checks, made one after the other, pass exactly for a sound catalog. -/
theorem validate_eq_ok_iff {c : Catalog} : c.validate = .ok () ↔ c.Sound := by
  unfold validate
  rw [bind_eq_ok_iff]
  constructor
  · rintro ⟨⟨⟩, htypes, haliases⟩
    obtain ⟨hsound, hnodup, -⟩ := checkTypes_eq_ok_iff.1 htypes
    refine ⟨hsound, hnodup, ?_⟩
    intro name target h
    exact checkAlias_eq_ok_iff.1
      (forM_eq_ok_iff.1 haliases (name, target) ((Table.mem_entries_iff _ _ _).2 h))
  · rintro ⟨hsound, hnodup, haliases⟩
    refine ⟨(), checkTypes_eq_ok_iff.2 ⟨hsound, hnodup, fun _ _ => List.not_mem_nil⟩, ?_⟩
    refine forM_eq_ok_iff.2 fun (name, target) h => ?_
    exact checkAlias_eq_ok_iff.2 (haliases name target ((Table.mem_entries_iff _ _ _).1 h))

end Catalog

/-! ### The order of types

The canonical order is that of the names, and sorting keeps the types. -/

namespace Catalog

theorem sortByName_perm (types : List ExposedType) : (sortByName types).Perm types := by
  have hinsert (t : ExposedType) (us : List ExposedType) : (insertByName t us).Perm (t :: us) := by
    induction us with
    | nil => exact .refl _
    | cons u us ih =>
      unfold insertByName
      split
      · exact .refl _
      · exact (ih.cons u).trans (.swap t u us)
  induction types with
  | nil => exact .refl _
  | cons t ts ih => exact (hinsert t _).trans (ih.cons t)

theorem pairwise_sortByName (types : List ExposedType) :
    (sortByName types).Pairwise fun t u => t.name ≤ u.name := by
  have hinsert (t : ExposedType) {us : List ExposedType}
      (h : us.Pairwise fun t u => t.name ≤ u.name) :
      (insertByName t us).Pairwise fun t u => t.name ≤ u.name := by
    induction us with
    | nil => exact List.pairwise_singleton _ t
    | cons u us ih =>
      obtain ⟨hu, hus⟩ := List.pairwise_cons.1 h
      unfold insertByName
      split
      · next hle =>
        refine List.pairwise_cons.2 ⟨fun v hv => ?_, h⟩
        rcases List.mem_cons.1 hv with rfl | hv
        · exact hle
        · exact String.le_trans hle (hu v hv)
      · next hnot =>
        refine List.pairwise_cons.2 ⟨fun v hv => ?_, ih hus⟩
        rcases mem_insertByName.1 hv with rfl | hv
        · exact (String.le_total u.name v.name).resolve_right hnot
        · exact hu v hv
  induction types with
  | nil => exact List.Pairwise.nil
  | cons t ts ih => exact hinsert t ih

/-- Where names differ, sorting leaves no trace of the order of declaration. -/
theorem sortByName_eq_of_perm {types types' : List ExposedType} (hperm : types.Perm types')
    (hnodup : (types.map (·.name)).Nodup) : sortByName types = sortByName types' := by
  have hsorted : (sortByName types).Perm (sortByName types') :=
    ((sortByName_perm types).trans hperm).trans (sortByName_perm types').symm
  refine hsorted.eq_of_pairwise (fun t u ht hu htu hut => ?_) (pairwise_sortByName types)
    (pairwise_sortByName types')
  exact List.inj_on_of_nodup_map hnodup (mem_sortByName.1 ht)
    (hperm.mem_iff.2 (mem_sortByName.1 hu)) (String.le_antisymm htu hut)

/-- Catalogs whose types only stand in another order are the same in canonical order. -/
theorem canonical_eq_of_perm {c d : Catalog} (hnodup : c.names.Nodup)
    (htypes : c.types.Perm d.types) (haliases : c.aliases = d.aliases) :
    c.canonical = d.canonical := by
  unfold canonical
  rw [sortByName_eq_of_perm htypes hnodup, haliases]

/-- To be sound is not a matter of the order of types. -/
theorem Sound.of_perm {c d : Catalog} (htypes : d.types.Perm c.types)
    (haliases : d.aliases = c.aliases) (h : c.Sound) : d.Sound := by
  have hnames : d.names.Perm c.names := htypes.map _
  refine ⟨fun t ht => h.types t (htypes.mem_iff.1 ht), hnames.nodup_iff.2 h.nodup, ?_⟩
  intro name target halias
  rw [haliases] at halias
  obtain ⟨hfresh, hdeclared, hnamed⟩ := h.aliases name target halias
  exact ⟨fun hname => hfresh (hnames.mem_iff.1 hname), hnames.mem_iff.2 hdeclared, hnamed⟩

theorem sound_canonical_iff {c : Catalog} : c.canonical.Sound ↔ c.Sound :=
  ⟨.of_perm (sortByName_perm c.types).symm rfl, .of_perm (sortByName_perm c.types) rfl⟩

end Catalog

/-! ### Catalogs from documents

Types that are read from a document are spelled, whatever the document says about them. -/

theorem Json.optional?_cases {members : List (String × Json)} {key : String} {otherwise a : α}
    {read : Json → Option α} (h : optional? members key otherwise read = some a) :
    a = otherwise ∨ ∃ j, read j = some a := by
  unfold optional? at h
  split at h
  · cases h
  · cases h
    exact .inl rfl
  · next j _ => exact .inr ⟨j, h⟩

theorem TypeRef.spelled_of_read? {j : Json} {t : TypeRef} (h : read? j = some t) : t.Spelled := by
  obtain ⟨s, -, hs⟩ := Option.bind_eq_some_iff.1 h
  exact ⟨s, toOption_eq_some_iff.1 hs⟩

/-- The types of the fields have spellings. -/
def Shape.Spelled : Shape → Prop
  | .object fields => ∀ f ∈ fields, f.declared.Spelled
  | .enumeration _ | .array | .unstructured => True

theorem Field.spelled_of_read? {j : Json} {f : Field} (h : read? j = some f) :
    f.declared.Spelled := by
  unfold read? at h
  split at h
  · simp only [Option.bind_eq_bind, Option.bind_eq_some_iff] at h
    obtain ⟨_, -, _, -, _, -, declared, hdeclared, _, -, _, -, hf⟩ := h
    cases hf
    exact TypeRef.spelled_of_read? hdeclared
  · simp only [Option.bind_eq_bind, Option.bind_eq_some_iff] at h
    obtain ⟨_, -, declared, hdeclared, flags, -, hf⟩ := h
    split at hf <;> cases hf <;> exact TypeRef.spelled_of_read? hdeclared
  · cases h

theorem Field.spelled_of_readAll? {j : Json} {fields : List Field} (h : readAll? j = some fields) :
    ∀ f ∈ fields, f.declared.Spelled := by
  obtain ⟨items, -, hitems⟩ := Option.bind_eq_some_iff.1 h
  exact forall_of_forall₂ (mapM_eq_some_iff.1 hitems) fun _ _ => spelled_of_read?

theorem Shape.spelled_of_read? {byPosition : Bool} {members : List (String × Json)} {s : Shape}
    (h : read? byPosition members = some s) : s.Spelled := by
  unfold read? at h
  simp only [Option.bind_eq_bind, Option.bind_eq_some_iff] at h
  obtain ⟨_, -, kind, -, h⟩ := h
  split at h
  · obtain ⟨fields, hfields, hs⟩ := Option.bind_eq_some_iff.1 h
    cases hs
    rcases Json.optional?_cases hfields with rfl | ⟨j, hj⟩
    · intro _ hf
      exact absurd hf List.not_mem_nil
    · exact Field.spelled_of_readAll? hj
  · split at h
    · simp only [Option.bind_eq_some_iff] at h
      obtain ⟨_, -, _, -, hs⟩ := h
      cases hs
      trivial
    · split at h <;> cases h <;> trivial

theorem ExposedType.spelled_of_read? {byPosition : Bool} {j : Json} {t : ExposedType}
    (h : read? byPosition j = some t) : t.shape.Spelled := by
  unfold read? at h
  simp only [Option.bind_eq_bind, Option.bind_eq_some_iff] at h
  obtain ⟨_, -, _, -, _, -, _, -, shape, hshape, ht⟩ := h
  cases ht
  exact Shape.spelled_of_read? hshape

namespace Catalog

/-- The types of all fields have spellings. -/
def Spelled (c : Catalog) : Prop := ∀ t ∈ c.types, t.shape.Spelled

/-- The catalog is made of documents: it is the catalog of one, the built-in one, or a merger of
such catalogs. -/
inductive Documented : Catalog → Prop
  | parse {format : CatalogFormat} {text : String} {c : Catalog}
    (h : Catalog.parse format text = .ok c) : Documented c
  | builtin : Documented builtin
  | merged {c d all : Catalog} (hc : Documented c) (hd : Documented d)
    (h : c.merged d = .ok all) : Documented all

theorem spelled_of_readTypes? {byPosition : Bool} {j : Json} {types : List ExposedType}
    (h : readTypes? byPosition j = some types) : ∀ t ∈ types, t.shape.Spelled := by
  obtain ⟨items, -, hitems⟩ := Option.bind_eq_some_iff.1 h
  exact forall_of_forall₂ (mapM_eq_some_iff.1 hitems) fun _ _ => ExposedType.spelled_of_read?

theorem spelled_of_read? {byPosition : Bool} {j : Json} {c : Catalog}
    (h : read? byPosition j = some c) : c.Spelled := by
  unfold read? at h
  split at h
  · simp only [Option.bind_eq_bind, Option.bind_eq_some_iff] at h
    obtain ⟨types, htypes, _, -, hc⟩ := h
    cases hc
    rcases Json.optional?_cases htypes with rfl | ⟨j, hj⟩
    · intro _ ht
      exact absurd ht List.not_mem_nil
    · exact spelled_of_readTypes? hj
  · cases h
    intro _ ht
    exact absurd ht List.not_mem_nil
  · simp only [Option.bind_eq_bind, Option.bind_eq_some_iff] at h
    obtain ⟨types, htypes, hc⟩ := h
    cases hc
    exact spelled_of_readTypes? htypes
  · simp only [Option.bind_eq_bind, Option.bind_eq_some_iff] at h
    obtain ⟨types, htypes, _, -, hc⟩ := h
    cases hc
    exact spelled_of_readTypes? htypes
  · cases h

theorem spelled_of_parse {format : CatalogFormat} {text : String} {c : Catalog}
    (h : parse format text = .ok c) : c.Spelled := by
  have hread : ∃ (byPosition : Bool) (j : Json), read? byPosition j = some c := by
    cases format with
    | json =>
      simp only [parse, parseJson] at h
      split at h
      · next hfound =>
        obtain ⟨j, -, hj⟩ := Option.bind_eq_some_iff.1 hfound
        cases h
        exact ⟨true, j, hj⟩
      · cases h
    | toml =>
      simp only [parse, parseToml] at h
      split at h
      · next hfound =>
        obtain ⟨j, -, hj⟩ := Option.bind_eq_some_iff.1 hfound
        cases h
        exact ⟨false, j, hj⟩
      · cases h
  obtain ⟨_, _, hj⟩ := hread
  exact spelled_of_read? hj

theorem spelled_builtin : builtin.Spelled := by
  have hunstructured : ∀ t ∈ builtin.types, t.shape = .unstructured := by decide
  intro t ht
  rw [hunstructured t ht]
  trivial

theorem types_of_merged {c d all : Catalog} (h : c.merged d = .ok all) :
    all.types = c.types ++ d.types := by
  unfold merged merge at h
  cases hmerge : mergeAliases c.aliases d.aliases.entries with
  | mk aliases r =>
    rw [hmerge] at h
    cases r with
    | ok u =>
      cases h
      rfl
    | error e => cases h

theorem get?_mergeAliases {known known' : Table String} {entries : List (String × String)}
    (h : mergeAliases known entries = (known', .ok ())) {name target : String}
    (hname : known.get? name = some target) : known'.get? name = some target := by
  induction entries generalizing known with
  | nil =>
    cases h
    exact hname
  | cons e rest ih =>
    obtain ⟨name', target'⟩ := e
    unfold mergeAliases at h
    split at h
    · cases h
    · next hnone =>
      apply ih h
      rw [Table.get?_insert, if_neg, hname]
      rintro rfl
      rw [hnone] at hname
      cases hname

/-- A merged catalog keeps the aliases it had. -/
theorem aliases_of_merged {c d all : Catalog} (h : c.merged d = .ok all) {name target : String}
    (hname : c.aliases.get? name = some target) : all.aliases.get? name = some target := by
  unfold merged merge at h
  cases hmerge : mergeAliases c.aliases d.aliases.entries with
  | mk aliases r =>
    rw [hmerge] at h
    cases r with
    | ok u =>
      cases h
      exact get?_mergeAliases hmerge hname
    | error e => cases h

theorem Spelled.merged {c d all : Catalog} (hc : c.Spelled) (hd : d.Spelled)
    (h : c.merged d = .ok all) : all.Spelled := by
  intro t ht
  rw [types_of_merged h] at ht
  exact (List.mem_append.1 ht).elim (hc t) (hd t)

/-- A type that is read from a document has been spelled there. -/
theorem Documented.spelled {c : Catalog} (h : c.Documented) : c.Spelled := by
  induction h with
  | parse h => exact spelled_of_parse h
  | builtin => exact spelled_builtin
  | merged _ _ h ihc ihd => exact ihc.merged ihd h

end Catalog
end TaggedWire
