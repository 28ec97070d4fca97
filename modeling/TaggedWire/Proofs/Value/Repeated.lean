import Mathlib.Data.List.Induction
import TaggedWire.Proofs.Value.Equality

/-!
# What repetitions leave of a set and of a map

A set is filled element by element and a map entry by entry, each looking only at what is there so
far.  What they come to can be told from all that was put in, at once: an element stays where it
stands unless an earlier one equals it, and of the entries with equal keys the first gives the key
and its place, the last the value.

* `distinct_eq_unrepeated`: the elements of a set.
* `keys_entriesOf`, `last_of_mem_entriesOf`: the keys of a map, and the value of each.
-/

namespace TaggedWire.Value

/-! ### Elements

By induction from behind: the last element is added to what the others have come to. -/

/-- The elements that equal none before them, in order. -/
def unrepeated (items : List Value) : List Value :=
  (items.zipIdx.filter fun p => !(items.take p.2).any (·.equal p.1)).map (·.1)

theorem distinct_concat (items : List Value) (v : Value) :
    distinct (items ++ [v]) = add (distinct items) v := by
  rw [distinct, List.foldl_append]
  rfl

theorem unrepeated_concat (items : List Value) (v : Value) :
    unrepeated (items ++ [v]) =
      if items.any (·.equal v) then unrepeated items else unrepeated items ++ [v] := by
  -- for an element of the front, what is before it is before it in the front
  have hfront : items.zipIdx.filter (fun p => !((items ++ [v]).take p.2).any (·.equal p.1)) =
      items.zipIdx.filter fun p => !(items.take p.2).any (·.equal p.1) := by
    refine List.filter_congr fun p hp => ?_
    have hlt : p.2 < items.length := by simpa using List.snd_lt_of_mem_zipIdx hp
    rw [List.take_append_of_le_length (Nat.le_of_lt hlt)]
  unfold unrepeated
  rw [List.zipIdx_append, List.filter_append, List.map_append, hfront]
  cases hany : items.any (·.equal v) <;> simp [hany]

/-- An element has an equal one among those that are kept exactly when it has one at all. -/
theorem any_distinct (items : List Value) (v : Value) :
    (distinct items).any (·.equal v) = items.any (·.equal v) := by
  induction items using List.reverseRecOn with
  | nil => rfl
  | append_singleton items w ih =>
    rw [distinct_concat, add]
    split
    · next hrepeated =>
      -- what equals the one that is left out equals the one that it repeats
      rw [ih, List.any_append]
      cases hwv : w.equal v with
      | false => simp [hwv]
      | true =>
        obtain ⟨u, hu, huw⟩ := List.any_eq_true.1 hrepeated
        have huv : (distinct items).any (·.equal v) = true :=
          List.any_eq_true.2 ⟨u, hu, equal_trans huw hwv⟩
        rw [← ih, huv, Bool.true_or]
    · rw [List.any_append, List.any_append, ih]

/-- A set has the elements that equal none before them. -/
theorem distinct_eq_unrepeated (items : List Value) : distinct items = unrepeated items := by
  induction items using List.reverseRecOn with
  | nil => rfl
  | append_singleton items v ih =>
    rw [distinct_concat, unrepeated_concat, add, any_distinct, ih]

theorem unrepeated_sublist (items : List Value) : (unrepeated items).Sublist items := by
  have hsublist : (unrepeated items).Sublist (items.zipIdx.map (·.1)) :=
    List.filter_sublist.map _
  rwa [List.zipIdx_map_fst] at hsublist

/-! ### Entries

A map is filled in the same manner, and its keys are a set that is filled with the keys. -/

/-- The entries of a map into which pairs of a key and a value are put one after the other. -/
def entriesOf (pairs : List (Value × Value)) : List (Value × Value) :=
  pairs.foldl (fun done p => put p.1 p.2 done) []

/-- The key is that of the pair or equals it.  A key that holds a non-number does not equal itself,
but it is still the key of its own pair. -/
def Matches (key : Value) (p : Value × Value) : Prop := key = p.1 ∨ key.equal p.1 = true

/-- The value of the entry is that of the last pair whose key matches. -/
def Last (pairs : List (Value × Value)) (e : Value × Value) : Prop :=
  ∃ front p back, pairs = front ++ p :: back ∧ Matches e.1 p ∧ e.2 = p.2 ∧
    ∀ q ∈ back, e.1.equal q.1 = false

theorem entriesOf_concat (pairs : List (Value × Value)) (p : Value × Value) :
    entriesOf (pairs ++ [p]) = put p.1 p.2 (entriesOf pairs) := by
  rw [entriesOf, List.foldl_append]
  rfl

/-- Putting an entry into a map adds its key to the keys. -/
theorem keys_put (key value : Value) (entries : List (Value × Value)) :
    (put key value entries).map (·.1) = add (entries.map (·.1)) key := by
  induction entries with
  | nil => rfl
  | cons e rest ih =>
    obtain ⟨k, v⟩ := e
    by_cases hk : k.equal key = true
    · simp [put, add, hk]
    · rw [put, if_neg hk, List.map_cons, ih]
      unfold add
      rw [List.map_cons, List.any_cons, Bool.eq_false_iff.2 hk, Bool.false_or]
      split <;> rfl

/-- The keys of a map are those of the pairs that equal none before them. -/
theorem keys_entriesOf (pairs : List (Value × Value)) :
    (entriesOf pairs).map (·.1) = unrepeated (pairs.map (·.1)) := by
  rw [← distinct_eq_unrepeated]
  induction pairs using List.reverseRecOn with
  | nil => rfl
  | append_singleton pairs p ih =>
    rw [entriesOf_concat, keys_put, ih, List.map_append]
    exact (distinct_concat _ _).symm

/-- While no keys are equal, putting an entry changes the value of the one key that equals its own,
and nothing else. -/
theorem mem_put_of_unequal {key value : Value} {entries : List (Value × Value)}
    (hunequal : Unequal (entries.map (·.1))) {e : Value × Value} (h : e ∈ put key value entries) :
    e ∈ entries ∧ e.1.equal key = false ∨ e.2 = value ∧ Matches e.1 (key, value) := by
  induction entries with
  | nil =>
    cases List.mem_singleton.1 h
    exact .inr ⟨rfl, .inl rfl⟩
  | cons first rest ih =>
    obtain ⟨k, v⟩ := first
    obtain ⟨hfirst, hrest⟩ := List.pairwise_cons.1 hunequal
    unfold put at h
    -- the new value goes to the first entry whose key equals the new one
    split at h
    · next hk =>
      rcases List.mem_cons.1 h with rfl | hmem
      · exact .inr ⟨rfl, .inr hk⟩
      · -- a second key that equals the new one would equal the first
        refine .inl ⟨List.mem_cons_of_mem _ hmem, Bool.eq_false_iff.2 fun he => ?_⟩
        have hequal := equal_trans hk (equal_symm he)
        exact absurd hequal (Bool.eq_false_iff.1 (hfirst _ (List.mem_map_of_mem hmem)))
    · next hk =>
      rcases List.mem_cons.1 h with rfl | hmem
      · exact .inl ⟨List.mem_cons_self, Bool.eq_false_iff.2 hk⟩
      · exact (ih hrest hmem).imp_left (And.imp_left (List.mem_cons_of_mem _))

theorem unequal_entriesOf (pairs : List (Value × Value)) :
    Unequal ((entriesOf pairs).map (·.1)) := by
  rw [keys_entriesOf, ← distinct_eq_unrepeated]
  exact unequal_distinct _

/-- Each key of a map has the value of the last pair with that key. -/
theorem last_of_mem_entriesOf {pairs : List (Value × Value)} {e : Value × Value}
    (h : e ∈ entriesOf pairs) : Last pairs e := by
  induction pairs using List.reverseRecOn with
  | nil => cases h
  | append_singleton pairs p ih =>
    rw [entriesOf_concat] at h
    rcases mem_put_of_unequal (unequal_entriesOf pairs) h with ⟨hold, hne⟩ | ⟨hvalue, hkey⟩
    · obtain ⟨front, q, back, rfl, hmatches, hvalue, hback⟩ := ih hold
      refine ⟨front, q, back ++ [p], by simp, hmatches, hvalue, ?_⟩
      exact List.forall_mem_append.2 ⟨hback, List.forall_mem_singleton.2 hne⟩
    · exact ⟨pairs, p, [], rfl, hkey, hvalue, fun _ h => absurd h List.not_mem_nil⟩

end TaggedWire.Value
