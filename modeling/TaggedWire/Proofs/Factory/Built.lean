import TaggedWire.Factory.Build
import TaggedWire.Proofs.Results
import TaggedWire.Proofs.Table

/-!
# Factories from plans

A factory binds each identifier of its plan to an instance of the marshaller that the plan has for
it, and binds nothing else.

* `lookup_iff`: what an identifier is bound to in the factory of a plan.
* `exists_ofPlan`: a valid plan whose classes are provided has a factory.
-/

namespace TaggedWire.Factory

/-- The instance is made of the marshaller, with the classes that are provided. -/
structure Makes (providers : Providers) (m : Planned) (i : Instance) : Prop where
  variableName : i.variableName = m.variableName
  marshaller : m.strategy.instantiate providers = .ok i.marshaller

theorem Makes.unique {providers : Providers} {m : Planned} {i j : Instance}
    (hi : Makes providers m i) (hj : Makes providers m j) : i = j := by
  have hname := hi.variableName.trans hj.variableName.symm
  have hmarshaller := Except.ok.inj (hi.marshaller.symm.trans hj.marshaller)
  cases i
  cases j
  simp only at hname hmarshaller
  rw [hname, hmarshaller]

theorem instances_eq_ok_iff {providers : Providers} {planned : List Planned}
    {made : List Instance} :
    instances providers planned = .ok made ↔ List.Forall₂ (Makes providers) planned made := by
  have hstep : ∀ (m : Planned) (i : Instance),
      (do return (⟨m.variableName, ← m.strategy.instantiate providers⟩ : Instance)) =
        (.ok i : Except Error Instance) ↔ Makes providers m i := by
    intro m i
    constructor
    · intro h
      obtain ⟨x, hx, hi⟩ := bind_eq_ok_iff.1 h
      cases hi
      exact ⟨rfl, hx⟩
    · rintro ⟨hv, hm⟩
      refine bind_eq_ok_iff.2 ⟨i.marshaller, hm, ?_⟩
      rw [← hv]
      rfl
  unfold instances
  rw [mapM_eq_ok_iff]
  constructor
  · intro h
    exact h.imp fun m i => (hstep m i).1
  · intro h
    exact h.imp fun m i => (hstep m i).2

/-- The instances carry the variables of the plan in order. -/
theorem variableNames_of_makes {providers : Providers} {planned : List Planned}
    {made : List Instance} (h : List.Forall₂ (Makes providers) planned made) :
    made.map (·.variableName) = planned.map (·.variableName) := by
  induction h with
  | nil => rfl
  | cons hm _ ih => rw [List.map_cons, List.map_cons, hm.variableName, ih]

/-- With distinct variables, the first instance of a variable is the one made for it. -/
theorem find?_made_iff {providers : Providers} {planned : List Planned} {made : List Instance}
    (h : List.Forall₂ (Makes providers) planned made)
    (hnodup : (planned.map (·.variableName)).Nodup) {v : String} {i : Instance} :
    made.find? (·.variableName = v) = some i ↔
      ∃ m ∈ planned, m.variableName = v ∧ Makes providers m i := by
  -- by induction along the plan; the first instance of a variable is the only one
  induction h with
  | nil => simp
  | @cons m i' ms is hm hms ih =>
    obtain ⟨hnotMem, hnodup⟩ := List.nodup_cons.1 hnodup
    rw [List.find?_cons]
    by_cases hv : i'.variableName = v
    · simp only [hv, decide_true, Option.some.injEq]
      constructor
      · rintro rfl
        exact ⟨m, List.mem_cons_self, hm.variableName ▸ hv, hm⟩
      · rintro ⟨m', hm', hv', hmakes⟩
        rcases List.mem_cons.1 hm' with rfl | hm'
        · exact hm.unique hmakes
        · refine absurd (List.mem_map_of_mem (f := (·.variableName)) hm') ?_
          simp only [hv', ← hv, hm.variableName]
          exact hnotMem
    · simp only [hv, decide_false, ih hnodup]
      constructor
      · rintro ⟨m', hm', h⟩
        exact ⟨m', List.mem_cons_of_mem _ hm', h⟩
      · rintro ⟨m', hm', hv', hmakes⟩
        rcases List.mem_cons.1 hm' with rfl | hm'
        · exact absurd (hm.variableName.trans hv') hv
        · exact ⟨m', hm', hv', hmakes⟩

/-- Bind one identifier. -/
def bindInstance (made : List Instance) (t : Table Instance) (e : String × String) :
    Except Error (Table Instance) :=
  match made.find? (·.variableName = e.2) with
  | some m => .ok (t.insert e.1 m)
  | none => .error (Plan.fault s!"'{e.1}' bound to undeclared marshaller '{e.2}'")

/-- Binding identifiers that differ adds each to the table. -/
theorem get?_foldlM_bindInstance {made : List Instance} {bindings : List (String × String)}
    {t t' : Table Instance} (hnodup : (bindings.map (·.1)).Nodup)
    (h : bindings.foldlM (bindInstance made) t = .ok t') (id : String) (i : Instance) :
    t'.get? id = some i ↔
      (∃ v, (id, v) ∈ bindings ∧ made.find? (·.variableName = v) = some i) ∨
        id ∉ bindings.map (·.1) ∧ t.get? id = some i := by
  -- by induction on the bindings, of which no two have the same identifier
  induction bindings generalizing t with
  | nil =>
    cases h
    simp
  | cons b rest ih =>
    obtain ⟨id₁, v₁⟩ := b
    obtain ⟨hnotMem, hnodup⟩ := List.nodup_cons.1 hnodup
    rw [List.foldlM_cons] at h
    obtain ⟨t₁, hstep, hrest⟩ := bind_eq_ok_iff.1 h
    unfold bindInstance at hstep
    split at hstep
    · next m hfind =>
      cases hstep
      rw [ih hnodup hrest, Table.get?_insert]
      by_cases hid : id₁ = id
      · subst hid
        have hnone : ∀ v, (id₁, v) ∉ rest := fun v hv =>
          hnotMem (List.mem_map_of_mem (f := (·.1)) hv)
        simp only [hnone, false_and, exists_false, hnotMem, not_false_eq_true, if_true, true_and,
          false_or, List.mem_cons, List.map_cons, Prod.mk.injEq, or_false, not_true_eq_false]
        constructor
        · intro h
          exact ⟨v₁, rfl, hfind.trans h⟩
        · rintro ⟨v, rfl, hv⟩
          exact hfind.symm.trans hv
      · have hid' : id ≠ id₁ := fun h => hid h.symm
        simp [hid, hid']
    · cases hstep

/-- Exactly the identifiers of the plan are bound, each to an instance of its marshaller. -/
theorem lookup_iff {p : Plan} {providers : Providers} {f : Factory}
    (h : ofPlan p providers = .ok f) (id : String) (i : Instance) :
    f.lookup id = some i ↔ ∃ m ∈ p.marshallers,
      p.bindings.get? id = some m.variableName ∧ Makes providers m i := by
  obtain ⟨⟨⟩, hvalid, h⟩ := bind_eq_ok_iff.1 h
  obtain ⟨made, hmade, h⟩ := bind_eq_ok_iff.1 h
  obtain ⟨table, htable, hf⟩ := bind_eq_ok_iff.1 h
  cases hf
  have hnodup := ((Plan.validate_eq_ok_iff p).1 hvalid).1
  show table.get? id = some i ↔ _
  rw [get?_foldlM_bindInstance p.bindings.nodup_entries htable]
  constructor
  · rintro (⟨v, hv, hfind⟩ | ⟨-, hempty⟩)
    · obtain ⟨m, hm, rfl, hmakes⟩ := (find?_made_iff (instances_eq_ok_iff.1 hmade) hnodup).1 hfind
      exact ⟨m, hm, (Table.mem_entries_iff _ _ _).1 hv, hmakes⟩
    · cases hempty
  · rintro ⟨m, hm, hv, hmakes⟩
    refine .inl ⟨m.variableName, (Table.mem_entries_iff _ _ _).2 hv, ?_⟩
    exact (find?_made_iff (instances_eq_ok_iff.1 hmade) hnodup).2 ⟨m, hm, rfl, hmakes⟩

/-- Every identifier of the plan is bound. -/
theorem exists_lookup {p : Plan} {providers : Providers} {f : Factory}
    (h : ofPlan p providers = .ok f) {id v : String} (hv : p.bindings.get? id = some v) :
    ∃ i, f.lookup id = some i := by
  obtain ⟨⟨⟩, hvalid, hmake⟩ := bind_eq_ok_iff.1 h
  obtain ⟨made, hmade, -⟩ := bind_eq_ok_iff.1 hmake
  obtain ⟨-, hdeclared⟩ := (Plan.validate_eq_ok_iff p).1 hvalid
  obtain ⟨m, hm, rfl⟩ := List.mem_map.1 (hdeclared _ ((Table.mem_entries_iff _ _ _).2 hv))
  obtain ⟨i, -, hi⟩ := exists_of_forall₂ (instances_eq_ok_iff.1 hmade) m hm
  exact ⟨i, (lookup_iff h id i).2 ⟨m, hm, hv, hi⟩⟩

/-- A valid plan whose marshallers can be made has a factory. -/
theorem exists_ofPlan {p : Plan} {providers : Providers} (hvalid : p.validate = .ok ())
    (hmake : ∀ m ∈ p.marshallers, ∃ x, m.strategy.instantiate providers = .ok x) :
    ∃ f, ofPlan p providers = .ok f := by
  obtain ⟨hnodup, hdeclared⟩ := (Plan.validate_eq_ok_iff p).1 hvalid
  obtain ⟨made, hmade⟩ : ∃ made, List.Forall₂ (Makes providers) p.marshallers made := by
    apply exists_forall₂
    intro m hm
    obtain ⟨x, hx⟩ := hmake m hm
    exact ⟨⟨m.variableName, x⟩, rfl, hx⟩
  have hfind : ∀ e ∈ p.bindings.entries, ∃ i, made.find? (·.variableName = e.2) = some i := by
    intro e he
    have hmem := hdeclared e he
    rw [Plan.variableNames, ← variableNames_of_makes hmade] at hmem
    obtain ⟨i, hi, hv⟩ := List.mem_map.1 hmem
    exact Option.isSome_iff_exists.1 (List.find?_isSome.2 ⟨i, hi, by simpa using hv⟩)
  -- with all variables declared, no binding can fail
  have htable : ∀ (entries : List (String × String)) (t : Table Instance),
      (∀ e ∈ entries, ∃ i, made.find? (·.variableName = e.2) = some i) →
      ∃ t', entries.foldlM (bindInstance made) t = .ok t' := by
    intro entries
    induction entries with
    | nil =>
      intro t _
      exact ⟨t, rfl⟩
    | cons e rest ih =>
      intro t he
      obtain ⟨⟨i, hi⟩, hrest⟩ := List.forall_mem_cons.1 he
      obtain ⟨t', ht'⟩ := ih (t.insert e.1 i) hrest
      refine ⟨t', ?_⟩
      rw [List.foldlM_cons]
      refine bind_eq_ok_iff.2 ⟨t.insert e.1 i, ?_, ht'⟩
      rw [bindInstance, hi]
  obtain ⟨table, htable⟩ := htable p.bindings.entries Table.empty hfind
  refine ⟨⟨p.package, p.className, table⟩, bind_eq_ok_iff.2 ⟨(), hvalid, ?_⟩⟩
  refine bind_eq_ok_iff.2 ⟨made, instances_eq_ok_iff.2 hmade, ?_⟩
  exact bind_eq_ok_iff.2 ⟨table, htable, rfl⟩

end TaggedWire.Factory
