/-!
# Tables kept in key order

A `Table` maps texts to values and lists its entries by increasing key, so two tables with the same
content are the same table.  Texts are ordered by their characters, which is also the order of their
UTF-8 bytes.

* `get?_insert`: an insertion is seen under its own key and nowhere else.
* `ext_get?`: a table is determined by what is found in it.
-/

namespace TaggedWire

/-- Entries in strictly increasing key order. -/
def KeyOrdered (entries : List (String × α)) : Prop := entries.Pairwise fun a b => a.1 < b.1

instance (entries : List (String × α)) : Decidable (KeyOrdered entries) :=
  inferInstanceAs (Decidable (List.Pairwise _ entries))

namespace Entries

/-- The value of the first entry with the given key. -/
def get? (key : String) : List (String × α) → Option α
  | [] => none
  | (k, v) :: rest => if k = key then some v else get? key rest

/-- Put a value under a key, in key order, in place of what was there. -/
def insert (key : String) (value : α) : List (String × α) → List (String × α)
  | [] => [(key, value)]
  | (k, v) :: rest =>
    if key < k then (key, value) :: (k, v) :: rest
    else if key = k then (key, value) :: rest
    else (k, v) :: insert key value rest

theorem mem_insert {key : String} {value : α} {e : String × α} {entries : List (String × α)}
    (h : e ∈ insert key value entries) : e = (key, value) ∨ e ∈ entries := by
  induction entries with
  | nil => simpa [insert] using h
  | cons hd rest ih =>
    obtain ⟨k, v⟩ := hd
    unfold insert at h
    split at h
    · simpa using h
    · split at h
      · rcases List.mem_cons.1 h with h | h
        · exact .inl h
        · exact .inr (List.mem_cons_of_mem _ h)
      · rcases List.mem_cons.1 h with h | h
        · exact .inr (h ▸ List.mem_cons_self)
        · exact (ih h).imp id (List.mem_cons_of_mem _)

theorem keyOrdered_insert {entries : List (String × α)} (h : KeyOrdered entries) (key : String)
    (value : α) : KeyOrdered (insert key value entries) := by
  induction entries with
  | nil => simp [insert, KeyOrdered]
  | cons hd rest ih =>
    obtain ⟨k, v⟩ := hd
    obtain ⟨hk, hrest⟩ := List.pairwise_cons.1 h
    -- the new entry comes first, in the place of one with its key, or further on
    unfold insert
    split
    · next hlt =>
      refine List.pairwise_cons.2 ⟨fun e he => ?_, h⟩
      rcases List.mem_cons.1 he with rfl | he
      · exact hlt
      · exact String.lt_trans hlt (hk e he)
    · next hlt =>
      split
      · next heq => exact List.pairwise_cons.2 ⟨fun e he => heq ▸ hk e he, hrest⟩
      · next hne =>
        refine List.pairwise_cons.2 ⟨fun e he => ?_, ih hrest⟩
        rcases mem_insert he with rfl | he
        · grind
        · exact hk e he

theorem get?_insert (key key' : String) (value : α) (entries : List (String × α)) :
    get? key' (insert key value entries) =
      if key = key' then some value else get? key' entries := by
  induction entries with
  | nil => simp [insert, get?]
  | cons hd rest ih =>
    obtain ⟨k, v⟩ := hd
    unfold insert
    split
    · simp [get?]
    · split
      · next heq =>
        subst heq
        by_cases h : key = key' <;> simp [get?, h]
      · next hne =>
        simp only [get?, ih]
        by_cases h : k = key' <;> by_cases h' : key = key' <;> simp_all

/-- The value found under a key belongs to one of the entries. -/
theorem mem_of_get? {key : String} {value : α} {entries : List (String × α)}
    (h : get? key entries = some value) : (key, value) ∈ entries := by
  induction entries with
  | nil => simp [get?] at h
  | cons hd rest ih =>
    obtain ⟨k, v⟩ := hd
    unfold get? at h
    split at h
    · next heq => simp_all
    · exact List.mem_cons_of_mem _ (ih h)

theorem get?_of_mem {key : String} {value : α} {entries : List (String × α)}
    (hord : KeyOrdered entries) (h : (key, value) ∈ entries) : get? key entries = some value := by
  induction entries with
  | nil => simp at h
  | cons hd rest ih =>
    obtain ⟨k, v⟩ := hd
    obtain ⟨hk, hrest⟩ := List.pairwise_cons.1 hord
    rcases List.mem_cons.1 h with heq | h
    · simp_all [get?]
    · have hne : k ≠ key := fun heq => String.lt_irrefl key (heq ▸ hk _ h)
      simp [get?, hne, ih hrest h]

end Entries

/-- A map from texts, with its entries in key order. -/
structure Table (α : Type) where
  entries : List (String × α)
  ordered : KeyOrdered entries
  deriving DecidableEq

namespace Table

/-- The table without entries. -/
def empty : Table α := ⟨[], List.Pairwise.nil⟩

instance : Inhabited (Table α) := ⟨empty⟩

/-- The value under a key. -/
def get? (t : Table α) (key : String) : Option α := Entries.get? key t.entries

/-- Whether there is a value under a key. -/
def contains (t : Table α) (key : String) : Bool := (t.get? key).isSome

/-- Put a value under a key, in place of what was there. -/
def insert (t : Table α) (key : String) (value : α) : Table α :=
  ⟨Entries.insert key value t.entries, Entries.keyOrdered_insert t.ordered key value⟩

/-- Remove a key and its value. -/
def erase (t : Table α) (key : String) : Table α :=
  ⟨t.entries.filter (·.1 ≠ key), t.ordered.filter _⟩

/-- The table of some entries, a later one replacing an earlier one with its key. -/
def ofList (entries : List (String × α)) : Table α :=
  entries.foldl (fun t (k, v) => t.insert k v) empty

/-- The keys, in order. -/
def keys (t : Table α) : List String := t.entries.map (·.1)

/-- The number of entries. -/
def size (t : Table α) : Nat := t.entries.length

@[simp] theorem get?_empty (key : String) : (empty : Table α).get? key = none := rfl

theorem get?_insert (t : Table α) (key key' : String) (value : α) :
    (t.insert key value).get? key' = if key = key' then some value else t.get? key' :=
  Entries.get?_insert key key' value t.entries

theorem mem_entries_iff (t : Table α) (key : String) (value : α) :
    (key, value) ∈ t.entries ↔ t.get? key = some value :=
  ⟨Entries.get?_of_mem t.ordered, Entries.mem_of_get?⟩

/-- Two lists in key order with the same members are equal. -/
theorem eq_of_mem_iff {xs ys : List (String × α)} (hx : KeyOrdered xs) (hy : KeyOrdered ys)
    (h : ∀ e, e ∈ xs ↔ e ∈ ys) : xs = ys := by
  induction xs generalizing ys with
  | nil =>
    cases ys with
    | nil => rfl
    | cons y ys => simpa using (h y).2 List.mem_cons_self
  | cons x xs ih =>
    cases ys with
    | nil => simpa using (h x).1 List.mem_cons_self
    | cons y ys =>
      obtain ⟨hx0, hxs⟩ := List.pairwise_cons.1 hx
      obtain ⟨hy0, hys⟩ := List.pairwise_cons.1 hy
      -- the first of each is the least of its list, hence of both
      have hxy : x = y := by
        rcases List.mem_cons.1 ((h x).1 List.mem_cons_self) with e | hm
        · exact e
        · rcases List.mem_cons.1 ((h y).2 List.mem_cons_self) with e | hm'
          · exact e.symm
          · exact absurd (hx0 y hm') (String.lt_asymm (hy0 x hm))
      subst hxy
      refine congrArg _ (ih hxs hys fun e => ⟨fun he => ?_, fun he => ?_⟩)
      · rcases List.mem_cons.1 ((h e).1 (List.mem_cons_of_mem _ he)) with rfl | hm
        · exact absurd (hx0 _ he) (String.lt_irrefl _)
        · exact hm
      · rcases List.mem_cons.1 ((h e).2 (List.mem_cons_of_mem _ he)) with rfl | hm
        · exact absurd (hy0 _ he) (String.lt_irrefl _)
        · exact hm

theorem ext_get? {t u : Table α} (h : ∀ key, t.get? key = u.get? key) : t = u := by
  have : t.entries = u.entries := eq_of_mem_iff t.ordered u.ordered fun (k, v) => by
    rw [mem_entries_iff, mem_entries_iff, h]
  cases t; cases u; simp_all

end Table
end TaggedWire
