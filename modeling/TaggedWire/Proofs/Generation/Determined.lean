import TaggedWire.Proofs.Catalog.Fingerprint
import TaggedWire.Proofs.Generation.Closed

/-!
# What a source depends on

Generation looks at a catalog only in its canonical order, and at the providers only for which
classes there are.  All of that is in the message of a fingerprint, so where messages are equal and
one generation succeeds, the other gives the same source.

* `source_of_message`: equal messages, equal sources.
* `source_perm`: the order in which types are declared does not count.
-/

namespace TaggedWire

theorem Table.contains_iff {α : Type} {t : Table α} {key : String} :
    t.contains key = true ↔ key ∈ t.keys := by
  unfold contains keys
  rw [Option.isSome_iff_exists, List.mem_map]
  constructor
  · rintro ⟨value, h⟩
    exact ⟨(key, value), (t.mem_entries_iff key value).2 h, rfl⟩
  · rintro ⟨⟨key, value⟩, h, rfl⟩
    exact ⟨value, (t.mem_entries_iff key value).1 h⟩

theorem Table.contains_eq_of_keys {α : Type} {t u : Table α}
    (h : sortTexts t.keys = sortTexts u.keys) (key : String) : t.contains key = u.contains key := by
  rw [Bool.eq_iff_iff, contains_iff, contains_iff, ← mem_sortTexts, h, mem_sortTexts]

/-! ### Which classes there are

No step looks at what a provider makes, only at whether there is one. -/

namespace Context

variable {p q : Providers}

theorem select_congr (h : ∀ className, p.contains className = q.contains className) (c : Context)
    (t : ExposedType) : c.select p t = c.select q t := by
  unfold select
  cases t.className with
  | none => rfl
  | some className => simp only [h className]

theorem addType_congr (h : ∀ className, p.contains className = q.contains className) :
    addType p = addType q := by
  funext aliasesOf c t
  unfold addType
  rw [select_congr h c t]

end Context

/-! ### Sources

A message is the canonical catalog and the names of the classes, next to package and class name. -/

namespace Generator

variable {g g' : Generator} {package package' className className' source : String}

/-- The message of the fingerprint for a target. -/
def message (g : Generator) (package className : String) : List UInt8 :=
  Fingerprint.message g.catalog g.providers.keys package className

/-- A source is determined by the canonical order of the types, the aliases and the names of the
classes. -/
theorem source_of_canonical (hcanonical : g.catalog.canonical = g'.catalog.canonical)
    (hclasses : ∀ name, g.providers.contains name = g'.providers.contains name)
    (h : g.source package className = .ok source) : g'.source package className = .ok source := by
  obtain ⟨p, hp, hsource⟩ := map_eq_ok_iff.1 h
  obtain ⟨hsound, made, context, hmade, hcontext, hfinish⟩ := plan_eq_ok_iff.1 hp
  refine map_eq_ok_iff.2 ⟨p, plan_eq_ok_iff.2 ⟨?_, made, context, ?_, hcontext, hfinish⟩, hsource⟩
  · rw [← Catalog.sound_canonical_iff, ← hcanonical]
    exact Catalog.sound_canonical_iff.2 hsound
  · rw [← hcanonical, ← Context.addType_congr hclasses]
    exact hmade

/-- A source is determined by the message of its fingerprint. -/
theorem source_of_message (hg : g.catalog.Spelled) (hg' : g'.catalog.Spelled)
    (hmessage : g.message package className = g'.message package' className')
    (h : g.source package className = .ok source) : g'.source package' className' = .ok source := by
  obtain ⟨rfl, rfl, hkeys, hcanonical⟩ := Fingerprint.message_inj hg hg' hmessage
  exact source_of_canonical hcanonical (Table.contains_eq_of_keys hkeys) h

/-! ### Orders of declaration

The canonical order does not depend on the order of declaration, as types differ in their names. -/

/-- What one order of declaration generates, every other does: a catalog that generates is sound,
so its names differ and sorting forgets the order. -/
theorem source_reordered (htypes : g.catalog.types.Perm g'.catalog.types)
    (haliases : g.catalog.aliases = g'.catalog.aliases)
    (hclasses : ∀ name, g.providers.contains name = g'.providers.contains name)
    (h : g.source package className = .ok source) : g'.source package className = .ok source := by
  obtain ⟨p, hp, -⟩ := map_eq_ok_iff.1 h
  have hsound : g.catalog.Sound := (plan_eq_ok_iff.1 hp).1
  exact source_of_canonical (Catalog.canonical_eq_of_perm hsound.nodup htypes haliases) hclasses h

/-- Generators whose catalogs differ in the order of their types alone, and whose classes have the
same names, generate the same source, or both fail. -/
theorem source_perm (htypes : g.catalog.types.Perm g'.catalog.types)
    (haliases : g.catalog.aliases = g'.catalog.aliases)
    (hclasses : ∀ name, name ∈ g.providers.keys ↔ name ∈ g'.providers.keys)
    (package className : String) :
    (∃ source, g.source package className = .ok source ∧ g'.source package className = .ok source) ∨
      ∃ e e', g.source package className = .error e ∧ g'.source package className = .error e' := by
  have hcontains (name : String) : g.providers.contains name = g'.providers.contains name := by
    rw [Bool.eq_iff_iff, Table.contains_iff, Table.contains_iff]
    exact hclasses name
  cases hg : g.source package className with
  | ok source => exact .inl ⟨source, rfl, source_reordered htypes haliases hcontains hg⟩
  | error e =>
    cases hg' : g'.source package className with
    | error e' => exact .inr ⟨e, e', rfl, rfl⟩
    | ok source =>
      have hback := source_reordered htypes.symm haliases.symm (fun name => (hcontains name).symm)
        hg'
      cases hg.symm.trans hback

/-- Two types that refer to each other, one of them through an array. -/
def braid : List ExposedType :=
  [⟨"Braid", .object [⟨"strands", .array (.named "Strand") 1, true, true⟩], none⟩,
    ⟨"Strand", .object [⟨"braid", .named "Braid", true, true⟩], none⟩]

/-- The types that refer to each other may come in either order. -/
theorem source_perm_braid : ∃ source,
    (⟨⟨braid, Table.empty⟩, Table.empty⟩ : Generator).source "demo" "Factory" = .ok source ∧
    (⟨⟨braid.reverse, Table.empty⟩, Table.empty⟩ : Generator).source "demo" "Factory" =
      .ok source := by
  have hsome : ((⟨⟨braid, Table.empty⟩, Table.empty⟩ : Generator).source "demo"
      "Factory").toOption.isSome = true := by
    decide +kernel
  rcases @source_perm ⟨⟨braid, Table.empty⟩, Table.empty⟩
    ⟨⟨braid.reverse, Table.empty⟩, Table.empty⟩ (List.reverse_perm braid).symm rfl
    (fun _ => Iff.rfl) "demo" "Factory" with h | ⟨e, -, he, -⟩
  · exact h
  · rw [he] at hsome
    cases hsome

end Generator
end TaggedWire
