import TaggedWire.Proofs.Value.Parts

/-!
# Equality of values is an equivalence away from non-numbers

Equality is symmetric and transitive on all values.  What keeps it from being an equivalence is a
non-number, at whatever depth: the values without one are just those that equal themselves.  Objects
are compared field by field in key order, passing over null; that comes to comparing what is found
under each name.

* `equal_self_iff`: a value equals itself exactly when no non-number occurs in it.
* `equal_object_iff`: objects are equal when they have one type and equal fields, null if not given.
* `equal_equivalence`: the laws of equality.
-/

namespace TaggedWire

/-- The scalar is a floating point pattern that stands for no number. -/
def Scalar.isNaN : Scalar → Bool
  | .f32 x => x.isNaN
  | .f64 x => x.isNaN
  | .bool _ | .i8 _ | .i16 _ | .i32 _ | .i64 _ | .char _ => false

theorem Scalar.equal_self_iff (s : Scalar) : s.equal s = true ↔ s.isNaN = false := by
  cases s <;> simp [equal, isNaN, Binary.equal_self_iff]

namespace Value

/-! ### Non-numbers

That a value is free of non-numbers is a statement about all of its parts, and by induction so is
its equality with itself. -/

/-- The value is a non-number. -/
def isNaN : Value → Bool
  | .scalar s => s.isNaN
  | _ => false

/-- No non-number occurs in the value. -/
def NaNFree (v : Value) : Prop := v.Throughout fun u => u.isNaN = false

theorem isNull_iff {v : Value} : v.isNull = true ↔ v = .null := by
  cases v <;> simp [isNull]

theorem nanFree_iff {v : Value} :
    v.NaNFree ↔ v.isNaN = false ∧ PartsThroughout (fun u => u.isNaN = false) v := throughout_iff

/-- Only a value with a NaN somewhere differs from itself. -/
theorem equal_self_iff {v : Value} : v.equal v = true ↔ v.NaNFree := by
  -- by induction on the value; a value equals itself if its parts equal themselves
  induction v using Value.induction with
  | null | string s | enumeration type variant =>
    rw [nanFree_iff]
    simp [equal, isNaN, PartsThroughout]
  | scalar s =>
    rw [nanFree_iff, equal, Scalar.equal_self_iff]
    exact ⟨fun h => ⟨h, trivial⟩, fun h => h.1⟩
  | list items ih | set items ih =>
    rw [nanFree_iff, equal, equalItems_iff, List.forall₂_same]
    exact ⟨fun h => ⟨rfl, fun v hv => (ih v hv).1 (h v hv)⟩, fun h v hv => (ih v hv).2 (h.2 v hv)⟩
  | array signature items ih =>
    rw [nanFree_iff, equal, beq_self_eq_true, Bool.true_and, equalItems_iff, List.forall₂_same]
    exact ⟨fun h => ⟨rfl, fun v hv => (ih v hv).1 (h v hv)⟩, fun h v hv => (ih v hv).2 (h.2 v hv)⟩
  | map entries ih =>
    rw [nanFree_iff, equal, equalEntries_iff, List.forall₂_same]
    constructor
    · intro h
      exact ⟨rfl, fun e he => ⟨(ih e he).1.1 (h e he).1, (ih e he).2.1 (h e he).2⟩⟩
    · intro h e he
      exact ⟨(ih e he).1.2 (h.2 e he).1, (ih e he).2.2 (h.2 e he).2⟩
  | object type fields ih =>
    rw [nanFree_iff, equal, beq_self_eq_true, Bool.true_and, equalFields_iff, List.forall₂_same]
    constructor
    · intro h
      refine ⟨rfl, fun f hf => (ih f hf).1 ?_⟩
      -- a field that is null takes no part in the comparison, but null is no non-number
      by_cases hnull : f.2.isNull = true
      · rw [isNull_iff.1 hnull, equal]
      · exact (h f (mem_present.2 ⟨hf, Bool.eq_false_iff.2 hnull⟩)).2
    · intro h f hf
      exact ⟨rfl, (ih f (mem_present.1 hf).1).2 (h.2 f (mem_present.1 hf).1)⟩

/-! ### Objects, name by name

The entries of an object are in key order, so the list of those that are not null is determined by
what is found under each name. -/

/-- The value under a name, null if none is given. -/
def found (fields : Table Value) (name : String) : Value := (fields.get? name).getD .null

/-- The fields that are given and not null are those found under their names. -/
theorem mem_present_iff {fields : Table Value} {name : String} {v : Value} :
    (name, v) ∈ present fields.entries ↔ found fields name = v ∧ v.isNull = false := by
  rw [mem_present, Table.mem_entries_iff, found]
  refine and_congr_left fun hnull => ?_
  cases hget : fields.get? name with
  | some w => simp
  | none =>
    -- nothing is found, so what would be found is null
    have hne : Value.null ≠ v := by
      rintro rfl
      cases hnull
    simp [hne]

/-- Fields are compared by name, and one that is missing like one that is null. -/
theorem equal_object_iff {s t : String} {as bs : Table Value} :
    (object s as.entries).equal (object t bs.entries) = true ↔
      s = t ∧ ∀ name, (found as name).equal (found bs name) = true := by
  constructor
  · intro h
    cases equal_iff.1 h with
    | object type hfields =>
      refine ⟨rfl, fun name => ?_⟩
      by_cases hnull : (found as name).isNull = true ∧ (found bs name).isNull = true
      · rw [isNull_iff.1 hnull.1, isNull_iff.1 hnull.2, equal]
      -- one of the two is present, and the comparison has found it on the other side
      · rcases not_and_or.1 hnull with ha | hb
        · have hmem := mem_present_iff.2 ⟨rfl, Bool.eq_false_iff.2 ha⟩
          obtain ⟨⟨_, w⟩, hw, rfl, hequal⟩ := exists_of_forall₂ hfields _ hmem
          rwa [(mem_present_iff.1 hw).1]
        · have hmem := mem_present_iff.2 ⟨rfl, Bool.eq_false_iff.2 hb⟩
          obtain ⟨⟨_, w⟩, hw, rfl, hequal⟩ := exists_of_forall₂ hfields.flip _ hmem
          rwa [(mem_present_iff.1 hw).1]
  · rintro ⟨rfl, hfound⟩
    have hfields : equalFields as.entries bs.entries = true := by
      refine equalFields_of_mem as.ordered bs.ordered (fun name a ha hnull => ?_)
        fun name b hb hnull => ?_
      · obtain ⟨rfl, -⟩ := mem_present_iff.1 (mem_present.2 ⟨ha, hnull⟩)
        have hnull' := (isNull_of_equal (hfound name)).symm.trans hnull
        exact ⟨_, (mem_present.1 (mem_present_iff.2 ⟨rfl, hnull'⟩)).1, hfound name⟩
      · obtain ⟨rfl, -⟩ := mem_present_iff.1 (mem_present.2 ⟨hb, hnull⟩)
        have hnull' := (isNull_of_equal (hfound name)).trans hnull
        exact ⟨_, mem_present.1 (mem_present_iff.2 ⟨rfl, hnull'⟩)⟩
    rw [equal, beq_self_eq_true, Bool.true_and, hfields]

/-! ### The laws

Reflexivity away from non-numbers, symmetry, transitivity, and what equality says about types and
fields. -/

/-- Equality is symmetric and transitive, and reflexive on the values without a non-number, which
are the only ones that equal themselves.  Equal values have one type.  Objects are equal exactly
when they have one type and equal values are found under every name. -/
theorem equal_equivalence :
    (∀ v : Value, v.equal v = true ↔ v.NaNFree) ∧
      (∀ u v : Value, u.equal v = true → v.equal u = true) ∧
      (∀ u v w : Value, u.equal v = true → v.equal w = true → u.equal w = true) ∧
      (∀ u v : Value, u.equal v = true → u.typeId? = v.typeId?) ∧
      ∀ (s t : String) (as bs : Table Value),
        (object s as.entries).equal (object t bs.entries) = true ↔
          s = t ∧ ∀ name, (found as name).equal (found bs name) = true :=
  ⟨fun _ => equal_self_iff, fun _ _ => equal_symm, fun _ _ _ => equal_trans,
    fun _ _ => typeId?_of_equal, fun _ _ _ _ => equal_object_iff⟩

/-- An object with a floating point number in a list, and possibly with a field that is null. -/
def slack (x : Binary64) (more : List (String × Value)) : Value :=
  .object "Knot" (("ends", .list [.scalar (.f64 x)]) :: more)

/-- The two zeros are equal, and a field may be null or absent; but a non-number equals nothing. -/
theorem equal_equivalence_slack :
    (slack ⟨0⟩ []).equal (slack ⟨1 <<< 63⟩ [("rope", .null)]) = true ∧
    (slack ⟨1 <<< 63⟩ [("rope", .null)]).equal (slack ⟨0⟩ [("tail", .null)]) = true ∧
    (slack ⟨0⟩ []).equal (slack ⟨0⟩ [("tail", .null)]) = true ∧
    (slack ⟨0⟩ [("tail", .null)]).equal (slack ⟨0⟩ []) = true ∧
    (slack ⟨0⟩ []).typeId? = (slack ⟨0⟩ [("tail", .null)]).typeId? ∧
    ¬(slack ⟨0x7ff8000000000000⟩ []).NaNFree := by
  have hleft : (slack ⟨0⟩ []).equal (slack ⟨1 <<< 63⟩ [("rope", .null)]) = true := by decide +kernel
  have hright :
      (slack ⟨1 <<< 63⟩ [("rope", .null)]).equal (slack ⟨0⟩ [("tail", .null)]) = true := by
    decide +kernel
  have hnone : (slack ⟨0x7ff8000000000000⟩ []).equal (slack ⟨0x7ff8000000000000⟩ []) = false := by
    decide +kernel
  obtain ⟨hself, hsymm, htrans, htype, -⟩ := equal_equivalence
  have hboth := htrans _ _ _ hleft hright
  refine ⟨hleft, hright, hboth, hsymm _ _ hboth, htype _ _ hboth, fun hfree => ?_⟩
  exact Bool.eq_false_iff.1 hnone ((hself _).2 hfree)

end Value
end TaggedWire
