import TaggedWire.Json.Basic
import TaggedWire.Table
import Mathlib.Data.List.Nodup

/-!
# Entries under distinct keys

A table holds none but the entries it was made of.  Where no key is repeated it holds all of them,
and an object has just its members.
-/

namespace TaggedWire

/-- The keys of a table differ. -/
theorem Table.nodup_entries (t : Table α) : (t.entries.map (·.1)).Nodup := by
  refine List.Pairwise.imp (fun hlt heq => ?_) (List.pairwise_map.2 t.ordered)
  exact String.lt_irrefl _ (heq ▸ hlt)

theorem Table.get?_foldl_insert {entries : List (String × α)}
    (hnodup : (entries.map (·.1)).Nodup) (t : Table α) (k : String) (v : α) :
    (entries.foldl (fun t e => t.insert e.1 e.2) t).get? k = some v ↔
      (k, v) ∈ entries ∨ k ∉ entries.map (·.1) ∧ t.get? k = some v := by
  induction entries generalizing t with
  | nil => simp
  | cons e rest ih =>
    obtain ⟨key, value⟩ := e
    obtain ⟨hnotMem, hnodup⟩ := List.nodup_cons.1 hnodup
    rw [List.foldl_cons, ih hnodup, Table.get?_insert]
    by_cases hkey : key = k
    · subst hkey
      have hnone : (key, v) ∉ rest := fun h => hnotMem (List.mem_map_of_mem (f := (·.1)) h)
      simp [hnone, hnotMem, eq_comm]
    · have hkey' : k ≠ key := fun h => hkey h.symm
      simp [hkey, hkey']

theorem Table.get?_ofList {entries : List (String × α)} (hnodup : (entries.map (·.1)).Nodup)
    (k : String) (v : α) : (ofList entries).get? k = some v ↔ (k, v) ∈ entries := by
  rw [ofList, get?_foldl_insert hnodup]
  simp

theorem Table.mem_of_mem_foldl_insert {entries : List (String × α)} {t : Table α}
    {e : String × α} (h : e ∈ (entries.foldl (fun t e => t.insert e.1 e.2) t).entries) :
    e ∈ entries ∨ e ∈ t.entries := by
  induction entries generalizing t with
  | nil => exact .inr h
  | cons hd rest ih =>
    rcases ih h with h | h
    · exact .inl (List.mem_cons_of_mem _ h)
    · rcases Entries.mem_insert h with rfl | h
      · exact .inl List.mem_cons_self
      · exact .inr h

theorem Table.mem_of_mem_ofList {entries : List (String × α)} {e : String × α}
    (h : e ∈ (ofList entries).entries) : e ∈ entries :=
  (mem_of_mem_foldl_insert h).resolve_right List.not_mem_nil

theorem Json.mem_of_find? {members : List (String × α)} {k : String} {v : α}
    (h : find? k members = some v) : ∃ m ∈ members, m.2 = v := by
  obtain ⟨m, hm, hv⟩ := Option.map_eq_some_iff.1 h
  exact ⟨m, List.mem_reverse.1 (List.mem_of_find?_eq_some hm), hv⟩

theorem Json.find?_of_mem {members : List (String × α)} (hnodup : (members.map (·.1)).Nodup)
    {k : String} {v : α} (h : (k, v) ∈ members) : find? k members = some v := by
  unfold find?
  rw [Option.map_eq_some_iff]
  cases hfind : members.reverse.find? (·.1 == k) with
  | none =>
    have := List.find?_eq_none.1 hfind (k, v) (List.mem_reverse.2 h)
    simp at this
  | some m =>
    have hkey : m.1 = k := by simpa using List.find?_some hfind
    have hmem := List.mem_reverse.1 (List.mem_of_find?_eq_some hfind)
    have heq := List.inj_on_of_nodup_map hnodup hmem h hkey
    exact ⟨m, rfl, congrArg Prod.snd heq⟩

theorem Json.find?_eq_none {members : List (String × α)} {k : String}
    (h : k ∉ members.map (·.1)) : find? k members = none := by
  unfold find?
  rw [Option.map_eq_none_iff, List.find?_eq_none]
  intro m hm hkey
  have hkey : m.1 = k := by simpa using hkey
  exact h (hkey ▸ List.mem_map_of_mem (List.mem_reverse.1 hm))

end TaggedWire
