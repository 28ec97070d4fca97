import TaggedWire.Proofs.Results
import TaggedWire.TypeRef.Spelling

/-!
# Types that have a spelling

The identifier of a type is a spelling of it, provided that the type has one at all.  So distinct
types with spellings have distinct identifiers, which is what lets a factory find them by
identifier.  A type name that is no spelling, such as one with brackets at its end, has no such
guarantee.

* `Spelled.parse_id`: the identifier of a type with a spelling is read as that type.
* `Spelled.id_injective`: such types are determined by their identifiers.
-/

namespace TaggedWire.TypeRef

/-- The type is what some text spells. -/
def Spelled (t : TypeRef) : Prop := ∃ s, parse s = .ok t

theorem Spelled.flat {t : TypeRef} (h : t.Spelled) : t.Flat := by
  obtain ⟨s, hs⟩ := h
  exact parse_flat hs

/-! ### The characters of a type name

Letters, digits, underscores, dollar signs and points: none of them is a blank, a bracket or a
question mark, so a name keeps its end when brackets are written behind it. -/

theorem ne_of_isNamePart {c : Char} (h : isNamePart c = true ∨ c = '.') :
    Text.isBlank c = false ∧ c ≠ ']' ∧ c ≠ '?' := by
  rcases h with h | rfl
  · refine ⟨?_, ?_, ?_⟩
    · change (((decide (c.val ≥ 65 ∧ c.val ≤ 90) ||
        (decide (c.val ≥ 97) && decide (c.val ≤ 122))) || c == '_') || c == '$' ||
          (decide (c.val ≥ 48) && decide (c.val ≤ 57))) = true at h
      simp only [Bool.or_eq_true, Bool.and_eq_true, decide_eq_true_eq, beq_iff_eq,
        UInt32.le_iff_toNat_le, ge_iff_le] at h
      change ((((65 ≤ c.toNat ∧ c.toNat ≤ 90) ∨ (97 ≤ c.toNat ∧ c.toNat ≤ 122)) ∨ c = '_') ∨
        c = '$') ∨ (48 ≤ c.toNat ∧ c.toNat ≤ 57) at h
      have hrange : 33 ≤ c.toNat ∧ c.toNat ≤ 126 := by
        rcases h with ((h | rfl) | rfl) | h
        · omega
        · decide
        · decide
        · omega
      simp [Text.isBlank]
      omega
    · rintro rfl
      exact absurd h (by decide)
    · rintro rfl
      exact absurd h (by decide)
  · decide

theorem isNamePart_of_isNameFrom {atStart : Bool} {cs : List Char}
    (h : isNameFrom atStart cs = true) : ∀ c ∈ cs, isNamePart c = true ∨ c = '.' := by
  induction cs generalizing atStart with
  | nil => simp
  | cons d ds ih =>
    intro c hc
    unfold isNameFrom at h
    split at h
    · obtain ⟨hd, hds⟩ := Bool.and_eq_true_iff.1 h
      rcases List.mem_cons.1 hc with rfl | hc
      · exact .inl (by simp [isNamePart, hd])
      · exact ih hds c hc
    · split at h
      · next hpoint =>
        rcases List.mem_cons.1 hc with rfl | hc
        · exact .inr (by simpa using hpoint)
        · exact ih h c hc
      · obtain ⟨hd, hds⟩ := Bool.and_eq_true_iff.1 h
        rcases List.mem_cons.1 hc with rfl | hc
        · exact .inl hd
        · exact ih hds c hc

/-! ### Bases

The identifier of a base is itself a base, though not always the text that was read: a synonym
becomes the name of its primitive. -/

/-- A text that can stand before brackets: it has no blank in front, and neither a blank nor a
bracket at its end. -/
def Bare (s : String) : Prop :=
  (∀ c ∈ s.toList.head?, Text.isBlank c = false) ∧
    ∀ c ∈ s.toList.getLast?, Text.isBlank c = false ∧ c ≠ ']'

theorem bare_iff {s : String} :
    (s.toList.head?.all (!Text.isBlank ·) &&
      s.toList.getLast?.all fun c => !Text.isBlank c && c != ']') = true ↔ Bare s := by
  unfold Bare
  cases s.toList.head? <;> cases s.toList.getLast? <;> simp

instance (s : String) : Decidable (Bare s) := decidable_of_iff _ bare_iff

theorem bare_of_isTypeName {s : String} (h : isTypeName s = true) : Bare s := by
  have hchars := isNamePart_of_isNameFrom h
  constructor
  · intro c hc
    exact (ne_of_isNamePart (hchars c (List.mem_of_head? hc))).1
  · intro c hc
    obtain ⟨hblank, hbracket, -⟩ := ne_of_isNamePart (hchars c (List.mem_of_getLast? hc))
    exact ⟨hblank, hbracket⟩

theorem ofPlain?_cases {s : String} {t : TypeRef} (h : ofPlain? s = some t) :
    t ∈ [string, list, set, map, any] ∨ t = .named s ∧ isTypeName s = true := by
  unfold ofPlain? at h
  repeat' split at h
  all_goals cases h
  all_goals first | exact .inr ⟨rfl, ‹_›⟩ | exact .inl (by simp)

/-- The identifier of a base is bare, and is read as the base. -/
theorem parseBase_id {s : String} {t : TypeRef} (h : parseBase s = .ok t) :
    parseBase t.id = .ok t ∧ Bare t.id := by
  unfold parseBase at h
  split at h
  -- a boxed primitive, a primitive, and what the tables leave: a built-in type or a name
  · split at h
    · next p _ =>
      cases h
      cases p <;> exact ⟨rfl, by decide⟩
    · cases h
  · next hboxed =>
    split at h
    · next p _ =>
      cases h
      cases p <;> exact ⟨rfl, by decide⟩
    · next hprimitive =>
      split at h
      · next hplain =>
        cases h
        rcases ofPlain?_cases hplain with hmem | ⟨rfl, hname⟩
        · simp only [List.mem_cons, List.not_mem_nil, or_false] at hmem
          rcases hmem with rfl | rfl | rfl | rfl | rfl <;> exact ⟨rfl, by decide⟩
        · refine ⟨?_, bare_of_isTypeName hname⟩
          rw [id, parseBase, hboxed]
          simp only [hprimitive, hplain]
      · cases h

/-! ### Brackets

Brackets behind a bare text are counted and taken off again, which gives back the text. -/

theorem splitBrackets_pair (rest : List Char) :
    splitBrackets (']' :: '[' :: rest) = ((splitBrackets rest).1 + 1, (splitBrackets rest).2) :=
  rfl

theorem splitBrackets_brackets (n : Nat) (cs : List Char) :
    splitBrackets ((brackets n).toList.reverse ++ cs) =
      ((splitBrackets cs).1 + n, (splitBrackets cs).2) := by
  induction n with
  | zero => simp [brackets]
  | succ n ih =>
    have hbrackets : (brackets (n + 1)).toList.reverse =
        ']' :: '[' :: (brackets n).toList.reverse := by
      simp [brackets, List.replicate_succ', List.flatten_append]
    rw [hbrackets, List.cons_append, List.cons_append, splitBrackets_pair, ih, Nat.add_assoc]

theorem splitBrackets_of_bare {s : String} (h : Bare s) :
    splitBrackets s.toList.reverse = (0, s.toList.reverse) := by
  cases hs : s.toList.reverse with
  | nil => rfl
  | cons c cs =>
    have hlast : s.toList.getLast? = some c := by
      rw [← List.head?_reverse, hs]
      rfl
    obtain ⟨hblank, hbracket⟩ := h.2 c hlast
    unfold splitBrackets
    split
    · next heq => exact absurd (List.cons.inj heq).1 hbracket
    · next heq =>
      obtain ⟨rfl, rfl⟩ := List.cons.inj heq
      simp [hblank]
    · next heq => cases heq

/-- A base with brackets after it is read as an array of that base. -/
theorem parse_append_brackets {s : String} {t : TypeRef} (hbase : parseBase s = .ok t)
    (hbare : Bare s) (hne : s ≠ "") (n : Nat) :
    parse (s ++ brackets n) = .ok (underBrackets n t) := by
  have htrim : Text.trimStart (s ++ brackets n).toList = s.toList ++ (brackets n).toList := by
    rw [String.toList_append]
    refine Text.trimStart_eq_self fun c hc => hbare.1 c ?_
    cases hs : s.toList with
    | nil => exact absurd (String.toList_eq_nil_iff.1 hs) hne
    | cons d ds => simpa [hs] using hc
  have hsplit : splitBrackets (s.toList ++ (brackets n).toList).reverse =
      (n, s.toList.reverse) := by
    rw [List.reverse_append, splitBrackets_brackets, splitBrackets_of_bare hbare, Nat.zero_add]
  unfold parse
  rw [htrim, hsplit]
  simp [hbase, Except.map]

theorem ne_empty_of_parseBase {s : String} {t : TypeRef} (h : parseBase s = .ok t) : s ≠ "" := by
  rintro rfl
  cases h

/-- An identifier is a spelling of its type. -/
theorem Spelled.parse_id {t : TypeRef} (h : t.Spelled) : parse t.id = .ok t := by
  obtain ⟨s, hs⟩ := h
  unfold parse at hs
  generalize splitBrackets _ = split at hs
  cases hbase : parseBase (String.ofList split.2.reverse) with
  | error e => simp [hbase, Except.map] at hs
  | ok base =>
    simp only [hbase, Except.map, Except.ok.injEq] at hs
    obtain ⟨hid, hbare⟩ := parseBase_id hbase
    have hread := parse_append_brackets hid hbare (ne_empty_of_parseBase hid)
    subst hs
    by_cases hzero : split.1 = 0
    · have hnone := hread 0
      rw [show brackets 0 = "" from rfl, String.append_empty] at hnone
      simpa [underBrackets, hzero] using hnone
    · -- a base is no array, so the brackets are all there are
      have hsignature : ArraySignature.of base split.1 = ⟨base, split.1⟩ := by
        have hbase' := signature?_of_parseBase hbase
        have hmax : max split.1 1 = split.1 := by omega
        cases base <;> simp_all [ArraySignature.of, signature?]
      have harray := hread split.1
      simpa [underBrackets, hzero, arrayOf, hsignature, ArraySignature.type, id] using harray

/-- Types that have spellings differ in their identifiers. -/
theorem Spelled.id_injective {t u : TypeRef} (ht : t.Spelled) (hu : u.Spelled)
    (h : t.id = u.id) : t = u := by
  have hparse := ht.parse_id
  rw [h, hu.parse_id] at hparse
  exact (Except.ok.inj hparse).symm

/-! ### Arrays and other types

The bracket at the end of an identifier tells an array from every other type that has a spelling. -/

theorem Spelled.bare {t : TypeRef} (h : t.Spelled) (hplain : t.signature? = none) : Bare t.id := by
  obtain ⟨s, hs⟩ := h
  unfold parse at hs
  generalize splitBrackets _ = split at hs
  obtain ⟨base, hbase, hunder⟩ := map_eq_ok_iff.1 hs
  unfold underBrackets at hunder
  split at hunder
  · subst hunder
    exact (parseBase_id hbase).2
  · subst hunder
    cases hplain

/-- The identifier of an array ends in a bracket, that of another type does not. -/
theorem Spelled.isArray {t : TypeRef} (h : t.Spelled) {component : TypeRef} {dimensions : Nat}
    (hdimensions : 1 ≤ dimensions) (hid : t.id = (TypeRef.array component dimensions).id) :
    t.signature?.isSome = true := by
  by_contra hplain
  have hbare := h.bare (Option.not_isSome_iff_eq_none.1 hplain)
  obtain ⟨n, rfl⟩ := Nat.exists_eq_succ_of_ne_zero (Nat.pos_iff_ne_zero.1 hdimensions)
  have hlast : t.id.toList.getLast? = some ']' := by
    rw [hid, id_array, String.toList_append]
    simp [brackets, List.replicate_succ', List.flatten_append]
  exact (hbare.2 _ hlast).2 rfl

/-- An array is spelled with brackets after its component. -/
theorem Spelled.component {s : ArraySignature} (h : s.type.Spelled) : s.component.Spelled := by
  obtain ⟨text, htext⟩ := h
  unfold parse at htext
  generalize splitBrackets _ = split at htext
  obtain ⟨base, hbase, hunder⟩ := map_eq_ok_iff.1 htext
  have hplain := signature?_of_parseBase hbase
  have hcomponent : s.component = base := by
    unfold underBrackets at hunder
    split at hunder
    · rw [hunder] at hplain
      cases hplain
    -- no base is an array, so the array is the one that the brackets make
    · obtain ⟨component, dimensions⟩ := s
      cases base with
      | array _ _ => cases hplain
      | _ =>
        cases hunder
        rfl
  obtain ⟨hid, hbare⟩ := parseBase_id hbase
  exact hcomponent ▸ ⟨_, parse_append_brackets hid hbare (ne_empty_of_parseBase hid) 0⟩

end TaggedWire.TypeRef
