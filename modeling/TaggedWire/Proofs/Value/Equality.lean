import TaggedWire.Value.Equality
import TaggedWire.Proofs.Results

/-!
# Equality of values is a partial equivalence

Equality is symmetric and transitive.  It is not reflexive: a value with a non-number inside equals
nothing.  Equal values have the same type, so they may stand in the same places.

* `equal_iff`: values are equal when they have one shape and equal parts.
* `equal_symm`, `equal_trans`: equality is a partial equivalence.
* `typeId?_of_equal`: equal values have the same type.
* `equalFields_of_mem`: objects are equal when each has equals of the other's non-null fields.
* `distinct_of_unequal`, `put_of_unequal`: what is pairwise unequal loses nothing in a set or map.
-/

namespace TaggedWire

/-! ### Lists, element by element

Relations that are only known to be symmetric or transitive at the elements of one list, as it is in
an induction on values. -/

theorem forall₂_flip_of_mem {R : α → β → Prop} {S : β → α → Prop} {xs : List α} {ys : List β}
    (h : List.Forall₂ R xs ys) (hflip : ∀ x ∈ xs, ∀ y, R x y → S y x) : List.Forall₂ S ys xs := by
  induction h with
  | nil => exact .nil
  | cons hxy _ ih =>
    obtain ⟨hx, hxs⟩ := List.forall_mem_cons.1 hflip
    exact .cons (hx _ hxy) (ih hxs)

theorem forall₂_trans_of_mem {R : α → β → Prop} {S : β → γ → Prop} {T : α → γ → Prop}
    {xs : List α} {ys : List β} {zs : List γ} (h : List.Forall₂ R xs ys)
    (h' : List.Forall₂ S ys zs) (htrans : ∀ x ∈ xs, ∀ y z, R x y → S y z → T x z) :
    List.Forall₂ T xs zs := by
  induction h generalizing zs with
  | nil =>
    cases h'
    exact .nil
  | cons hxy _ ih =>
    cases h' with
    | cons hyz hrest =>
      obtain ⟨hx, hxs⟩ := List.forall_mem_cons.1 htrans
      exact .cons (hx _ _ hxy hyz) (ih hrest hxs)

/-! ### Scalars

Integers are equal when they are the same, floating point numbers when they compare equal. -/

theorem Binary.equal_trans {f : Binary.Format} {x y z : Binary f} (h : x.equal y = true)
    (h' : y.equal z = true) : x.equal z = true := by
  simp only [equal, Bool.and_eq_true, Bool.not_eq_true', Bool.or_eq_true, decide_eq_true_eq,
    beq_iff_eq] at h h' ⊢
  obtain ⟨⟨hx, hy⟩, hxy⟩ := h
  obtain ⟨⟨-, hz⟩, hyz⟩ := h'
  refine ⟨⟨hx, hz⟩, ?_⟩
  rcases hxy with rfl | ⟨hx0, hy0⟩
  · exact hyz
  · rcases hyz with rfl | ⟨-, hz0⟩
    · exact .inr ⟨hx0, hy0⟩
    · exact .inr ⟨hx0, hz0⟩

namespace Scalar

theorem equal_symm {a b : Scalar} (h : a.equal b = true) : b.equal a = true := by
  cases a <;> cases b <;> simp_all [equal, Binary.equal_comm]

theorem equal_trans {a b c : Scalar} (h : a.equal b = true) (h' : b.equal c = true) :
    a.equal c = true := by
  cases a <;> cases b <;> cases c <;> first
    | cases h
    | cases h'
    | exact Binary.equal_trans h h'
    | simp_all [equal]

theorem primitive_of_equal {a b : Scalar} (h : a.equal b = true) : a.primitive = b.primitive := by
  cases a <;> cases b <;> first | rfl | cases h

end Scalar

namespace Value

/-! ### Equality of parts

The recursive functions for the parts compare lists element by element.  For objects these are the
fields that are not null. -/

/-- Entries with equal keys and equal values. -/
def EqualEntry (a b : Value × Value) : Prop := a.1.equal b.1 = true ∧ a.2.equal b.2 = true

/-- Fields of one name with equal values. -/
def EqualField (a b : String × Value) : Prop := a.1 = b.1 ∧ a.2.equal b.2 = true

/-- The fields that are not null. -/
def present (fields : List (String × Value)) : List (String × Value) :=
  fields.filter fun f => !f.2.isNull

theorem equalItems_iff {as bs : List Value} :
    equalItems as bs = true ↔ List.Forall₂ (fun a b => a.equal b = true) as bs := by
  induction as generalizing bs with
  | nil => cases bs <;> simp [equalItems]
  | cons a as ih => cases bs <;> simp [equalItems, ih]

theorem equalEntries_iff {as bs : List (Value × Value)} :
    equalEntries as bs = true ↔ List.Forall₂ EqualEntry as bs := by
  induction as generalizing bs with
  | nil => cases bs <;> simp [equalEntries]
  | cons a as ih =>
    obtain ⟨k, a⟩ := a
    cases bs with
    | nil => simp [equalEntries]
    | cons b bs =>
      obtain ⟨l, b⟩ := b
      simp [equalEntries, EqualEntry, ih, and_assoc]

theorem present_dropWhile (fields : List (String × Value)) :
    present (fields.dropWhile fun f => f.2.isNull) = present fields := by
  induction fields with
  | nil => rfl
  | cons f fs ih =>
    rw [List.dropWhile_cons]
    split
    · next h => rw [ih, present, present, List.filter_cons_of_neg (by simp [h])]
    · rfl

theorem equalFields_iff {as bs : List (String × Value)} :
    equalFields as bs = true ↔ List.Forall₂ EqualField (present as) (present bs) := by
  induction as generalizing bs with
  | nil =>
    rw [equalFields, show present [] = [] from rfl, List.forall₂_nil_left_iff]
    simp [present]
  | cons a as ih =>
    obtain ⟨k, a⟩ := a
    rw [equalFields]
    -- a null is passed over on the left here, and on the right in front of each comparison
    by_cases hnull : a.isNull = true
    · rw [if_pos hnull, ih]
      have hpresent : present ((k, a) :: as) = present as := by simp [present, hnull]
      rw [hpresent]
    · rw [if_neg hnull]
      have hpresent : present ((k, a) :: as) = (k, a) :: present as := by simp [present, hnull]
      rw [hpresent, ← present_dropWhile bs]
      cases hdrop : bs.dropWhile fun f => f.2.isNull with
      | nil => simp [present]
      | cons b bs' =>
        obtain ⟨l, b⟩ := b
        have hb : b.isNull = false := by
          have := List.head?_dropWhile_not (fun f : String × Value => f.2.isNull) bs
          rw [hdrop] at this
          simpa using this
        have hbs : present ((l, b) :: bs') = (l, b) :: present bs' := by simp [present, hb]
        rw [hbs, List.forall₂_cons, ← ih]
        simp [EqualField, and_assoc]

/-! ### Partial equivalence

`Equal` states what equality looks at, one constructor for each shape.  Symmetry and transitivity
follow by induction on the first value, which the other one or two then have to match. -/

/-- Values of one shape with equal parts. -/
inductive Equal : Value → Value → Prop
  | null : Equal .null .null
  | scalar {a b : Scalar} (h : a.equal b = true) : Equal (.scalar a) (.scalar b)
  | string (s : String) : Equal (.string s) (.string s)
  | list {as bs : List Value} (h : List.Forall₂ (fun a b => a.equal b = true) as bs) :
    Equal (.list as) (.list bs)
  | set {as bs : List Value} (h : List.Forall₂ (fun a b => a.equal b = true) as bs) :
    Equal (.set as) (.set bs)
  | map {as bs : List (Value × Value)} (h : List.Forall₂ EqualEntry as bs) :
    Equal (.map as) (.map bs)
  | array (s : ArraySignature) {as bs : List Value}
    (h : List.Forall₂ (fun a b => a.equal b = true) as bs) : Equal (.array s as) (.array s bs)
  | enumeration (type variant : String) :
    Equal (.enumeration type variant) (.enumeration type variant)
  | object (type : String) {as bs : List (String × Value)}
    (h : List.Forall₂ EqualField (present as) (present bs)) :
    Equal (.object type as) (.object type bs)

/-- Equality as a relation, with a case for each kind of value. -/
theorem equal_iff {v w : Value} : v.equal w = true ↔ Equal v w := by
  constructor
  · intro h
    unfold equal at h
    -- the cases are those of the definition, and the last of them is unequal shapes
    split at h
    · exact .null
    · exact .scalar h
    · exact beq_iff_eq.1 h ▸ .string _
    · exact .list (equalItems_iff.1 h)
    · exact .set (equalItems_iff.1 h)
    · exact .map (equalEntries_iff.1 h)
    · rw [Bool.and_eq_true, beq_iff_eq] at h
      exact h.1 ▸ .array _ (equalItems_iff.1 h.2)
    · rw [Bool.and_eq_true, beq_iff_eq, beq_iff_eq] at h
      exact h.1 ▸ h.2 ▸ .enumeration _ _
    · rw [Bool.and_eq_true, beq_iff_eq] at h
      exact h.1 ▸ .object _ (equalFields_iff.1 h.2)
    · cases h
  · intro h
    cases h with
    | null => rw [equal]
    | scalar h => rwa [equal]
    | string s => rw [equal, beq_self_eq_true]
    | list h | set h => rwa [equal, equalItems_iff]
    | map h => rwa [equal, equalEntries_iff]
    | array s h => rwa [equal, beq_self_eq_true, Bool.true_and, equalItems_iff]
    | enumeration type variant => rw [equal, beq_self_eq_true, beq_self_eq_true, Bool.true_and]
    | object type h => rwa [equal, beq_self_eq_true, Bool.true_and, equalFields_iff]

theorem equal_symm {a b : Value} (h : a.equal b = true) : b.equal a = true := by
  induction a using Value.induction generalizing b with
  | null | string s | enumeration type variant =>
    cases equal_iff.1 h
    exact h
  | scalar s =>
    cases equal_iff.1 h with
    | scalar hab => exact equal_iff.2 (.scalar (Scalar.equal_symm hab))
  | list items ih =>
    cases equal_iff.1 h with
    | list hab => exact equal_iff.2 (.list (forall₂_flip_of_mem hab fun x hx y => ih x hx))
  | set items ih =>
    cases equal_iff.1 h with
    | set hab => exact equal_iff.2 (.set (forall₂_flip_of_mem hab fun x hx y => ih x hx))
  | array s items ih =>
    cases equal_iff.1 h with
    | array s hab => exact equal_iff.2 (.array s (forall₂_flip_of_mem hab fun x hx y => ih x hx))
  | map entries ih =>
    cases equal_iff.1 h with
    | map hab =>
      refine equal_iff.2 (.map (forall₂_flip_of_mem hab fun x hx y hxy => ?_))
      exact ⟨(ih x hx).1 hxy.1, (ih x hx).2 hxy.2⟩
  | object type fields ih =>
    cases equal_iff.1 h with
    | object type hab =>
      refine equal_iff.2 (.object type (forall₂_flip_of_mem hab fun x hx y hxy => ⟨hxy.1.symm, ?_⟩))
      exact ih x (List.mem_of_mem_filter hx) hxy.2

theorem equal_trans {a b c : Value} (h : a.equal b = true) (h' : b.equal c = true) :
    a.equal c = true := by
  induction a using Value.induction generalizing b c with
  | null | string s | enumeration type variant =>
    cases equal_iff.1 h
    exact h'
  | scalar s =>
    cases equal_iff.1 h with
    | scalar hab =>
      cases equal_iff.1 h' with
      | scalar hbc => exact equal_iff.2 (.scalar (Scalar.equal_trans hab hbc))
  | list items ih =>
    cases equal_iff.1 h with
    | list hab =>
      cases equal_iff.1 h' with
      | list hbc => exact equal_iff.2 (.list (forall₂_trans_of_mem hab hbc fun x hx y z => ih x hx))
  | set items ih =>
    cases equal_iff.1 h with
    | set hab =>
      cases equal_iff.1 h' with
      | set hbc => exact equal_iff.2 (.set (forall₂_trans_of_mem hab hbc fun x hx y z => ih x hx))
  | array s items ih =>
    cases equal_iff.1 h with
    | array s hab =>
      cases equal_iff.1 h' with
      | array s hbc =>
        exact equal_iff.2 (.array s (forall₂_trans_of_mem hab hbc fun x hx y z => ih x hx))
  | map entries ih =>
    cases equal_iff.1 h with
    | map hab =>
      cases equal_iff.1 h' with
      | map hbc =>
        refine equal_iff.2 (.map (forall₂_trans_of_mem hab hbc fun x hx y z hxy hyz => ?_))
        exact ⟨(ih x hx).1 hxy.1 hyz.1, (ih x hx).2 hxy.2 hyz.2⟩
  | object type fields ih =>
    cases equal_iff.1 h with
    | object type hab =>
      cases equal_iff.1 h' with
      | object type hbc =>
        refine equal_iff.2 (.object type (forall₂_trans_of_mem hab hbc fun x hx y z hxy hyz => ?_))
        exact ⟨hxy.1.trans hyz.1, ih x (List.mem_of_mem_filter hx) hxy.2 hyz.2⟩

/-- Equal values name the same type. -/
theorem typeId?_of_equal {a b : Value} (h : a.equal b = true) : a.typeId? = b.typeId? := by
  cases equal_iff.1 h with
  | scalar hab => rw [typeId?, typeId?, Scalar.primitive_of_equal hab]
  | _ => rfl

theorem isNull_of_equal {a b : Value} (h : a.equal b = true) : a.isNull = b.isNull := by
  cases equal_iff.1 h <;> rfl

/-! ### Objects, sets and maps

Objects are compared in key order, sets and maps are filled one by one.  Either can be told without
the order: by what each of two objects has, and by which elements are unequal. -/

/-- Lists in key order that have the same keys, with related values under each. -/
theorem forall₂_of_keyOrdered {R : α → β → Prop} {xs : List (String × α)}
    {ys : List (String × β)} (hx : KeyOrdered xs) (hy : KeyOrdered ys)
    (hxy : ∀ k a, (k, a) ∈ xs → ∃ b, (k, b) ∈ ys ∧ R a b)
    (hyx : ∀ k b, (k, b) ∈ ys → ∃ a, (k, a) ∈ xs) :
    List.Forall₂ (fun x y => x.1 = y.1 ∧ R x.2 y.2) xs ys := by
  induction xs generalizing ys with
  | nil =>
    cases ys with
    | nil => exact .nil
    | cons y ys =>
      obtain ⟨_, h⟩ := hyx y.1 y.2 List.mem_cons_self
      cases h
  | cons x xs ih =>
    obtain ⟨k, a⟩ := x
    obtain ⟨hx0, hxs⟩ := List.pairwise_cons.1 hx
    obtain ⟨b, hb, hab⟩ := hxy k a List.mem_cons_self
    cases ys with
    | nil => cases hb
    | cons y ys =>
      obtain ⟨l, c⟩ := y
      obtain ⟨hy0, hys⟩ := List.pairwise_cons.1 hy
      -- Were the least keys of the two different, the smaller would be missing on the other side.
      have hkey : k = l := by
        rcases List.mem_cons.1 hb with heq | hb
        · exact congrArg Prod.fst heq
        · obtain ⟨a', ha'⟩ := hyx l c List.mem_cons_self
          rcases List.mem_cons.1 ha' with heq | ha'
          · exact (congrArg Prod.fst heq).symm
          · exact absurd (hy0 _ hb) (String.lt_asymm (hx0 _ ha'))
      subst hkey
      have hbc : b = c := by
        rcases List.mem_cons.1 hb with heq | hb
        · exact congrArg Prod.snd heq
        · exact absurd (hy0 _ hb) (String.lt_irrefl _)
      subst hbc
      -- the keys that follow are greater, so what they are related to is among those that follow
      refine .cons ⟨rfl, hab⟩ (ih hxs hys (fun l d hd => ?_) fun l d hd => ?_)
      · obtain ⟨e, he, hde⟩ := hxy l d (List.mem_cons_of_mem _ hd)
        rcases List.mem_cons.1 he with heq | he
        · cases heq
          exact absurd (hx0 _ hd) (String.lt_irrefl _)
        · exact ⟨e, he, hde⟩
      · obtain ⟨e, he⟩ := hyx l d (List.mem_cons_of_mem _ hd)
        rcases List.mem_cons.1 he with heq | he
        · cases heq
          exact absurd (hy0 _ hd) (String.lt_irrefl _)
        · exact ⟨e, he⟩

theorem mem_present {fields : List (String × Value)} {f : String × Value} :
    f ∈ present fields ↔ f ∈ fields ∧ f.2.isNull = false := by
  simp [present]

/-- Fields in key order are equal when each that is not null in either has an equal one in the
other. -/
theorem equalFields_of_mem {as bs : List (String × Value)} (ha : KeyOrdered as)
    (hb : KeyOrdered bs)
    (hab : ∀ k a, (k, a) ∈ as → a.isNull = false → ∃ b, (k, b) ∈ bs ∧ a.equal b = true)
    (hba : ∀ k b, (k, b) ∈ bs → b.isNull = false → ∃ a, (k, a) ∈ as ∧ a.isNull = false) :
    equalFields as bs = true := by
  rw [equalFields_iff]
  show List.Forall₂ (fun x y : String × Value => x.1 = y.1 ∧ x.2.equal y.2 = true) _ _
  refine forall₂_of_keyOrdered (R := fun a b : Value => a.equal b = true)
    (ha.filter _) (hb.filter _) (fun k a h => ?_) fun k b h => ?_
  · obtain ⟨hmem, hnull⟩ := mem_present.1 h
    obtain ⟨b, hb, hequal⟩ := hab k a hmem hnull
    exact ⟨b, mem_present.2 ⟨hb, (isNull_of_equal hequal).symm.trans hnull⟩, hequal⟩
  · obtain ⟨hmem, hnull⟩ := mem_present.1 h
    obtain ⟨a, ha, hnull'⟩ := hba k b hmem hnull
    exact ⟨a, mem_present.2 ⟨ha, hnull'⟩⟩

/-- Values of which no two are equal. -/
def Unequal (items : List Value) : Prop := items.Pairwise fun a b => a.equal b = false

/-- A list element by element equal to one without equal elements has none either. -/
theorem Unequal.of_equal {as bs : List Value} (h : List.Forall₂ (fun a b => a.equal b = true) as bs)
    (hbs : Unequal bs) : Unequal as := by
  induction h with
  | nil => exact List.Pairwise.nil
  | @cons a b as bs hab hrest ih =>
    obtain ⟨hb, hbs⟩ := List.pairwise_cons.1 hbs
    refine List.pairwise_cons.2 ⟨fun a' ha' => ?_, ih hbs⟩
    obtain ⟨b', hb', hab'⟩ := exists_of_forall₂ hrest a' ha'
    apply Bool.eq_false_iff.2
    intro heq
    have hbb' := equal_trans (equal_symm hab) (equal_trans heq hab')
    exact absurd hbb' (Bool.eq_false_iff.1 (hb b' hb'))

theorem foldl_add_of_unequal (done : List Value) {items : List Value}
    (h : Unequal (done ++ items)) : items.foldl add done = done ++ items := by
  induction items generalizing done with
  | nil => simp
  | cons v vs ih =>
    have hadd : add done v = done ++ [v] := by
      apply if_neg
      intro hany
      obtain ⟨w, hw, hequal⟩ := List.any_eq_true.1 hany
      exact Bool.eq_false_iff.1 ((List.pairwise_append.1 h).2.2 w hw v List.mem_cons_self) hequal
    rw [List.foldl_cons, hadd, ih (done ++ [v]) (by simpa using h)]
    simp

/-- Pairwise unequal elements all remain. -/
theorem distinct_of_unequal {items : List Value} (h : Unequal items) : distinct items = items :=
  foldl_add_of_unequal [] h

/-- A new key is put at the end. -/
theorem put_of_unequal {key value : Value} {entries : List (Value × Value)}
    (h : ∀ e ∈ entries, e.1.equal key = false) :
    put key value entries = entries ++ [(key, value)] := by
  induction entries with
  | nil => rfl
  | cons e es ih =>
    obtain ⟨k, v⟩ := e
    obtain ⟨he, hes⟩ := List.forall_mem_cons.1 h
    rw [put, if_neg (Bool.eq_false_iff.1 he), ih hes]
    rfl

/-- An entry that is put into a map is new there, or takes up the key of an older one. -/
theorem mem_put {key value : Value} {entries : List (Value × Value)}
    {e : Value × Value} (h : e ∈ Value.put key value entries) :
    e ∈ entries ∨ e.2 = value ∧ (e.1 = key ∨ ∃ e' ∈ entries, e.1 = e'.1) := by
  induction entries with
  | nil =>
    cases List.mem_singleton.1 h
    exact .inr ⟨rfl, .inl rfl⟩
  | cons e' rest ih =>
    obtain ⟨k, v⟩ := e'
    unfold Value.put at h
    -- an equal key keeps its place and takes the value, else the entry goes to the end
    split at h
    · rcases List.mem_cons.1 h with rfl | h
      · exact .inr ⟨rfl, .inr ⟨_, List.mem_cons_self, rfl⟩⟩
      · exact .inl (List.mem_cons_of_mem _ h)
    · rcases List.mem_cons.1 h with rfl | h
      · exact .inl List.mem_cons_self
      · rcases ih h with h | ⟨hvalue, hkey | ⟨e'', he'', hkey⟩⟩
        · exact .inl (List.mem_cons_of_mem _ h)
        · exact .inr ⟨hvalue, .inl hkey⟩
        · exact .inr ⟨hvalue, .inr ⟨e'', List.mem_cons_of_mem _ he'', hkey⟩⟩

/-- Putting an entry into a map repeats no key. -/
theorem unequal_put {key value : Value} {entries : List (Value × Value)}
    (h : Unequal (entries.map (·.1))) : Unequal ((put key value entries).map (·.1)) := by
  induction entries with
  | nil => exact List.pairwise_singleton _ _
  | cons e rest ih =>
    obtain ⟨k, v⟩ := e
    obtain ⟨hk, hrest⟩ := List.pairwise_cons.1 h
    unfold put
    split
    · exact h
    · next hne =>
      refine List.pairwise_cons.2 ⟨?_, ih hrest⟩
      rintro _ hmem
      obtain ⟨e, he, rfl⟩ := List.mem_map.1 hmem
      rcases mem_put he with he | ⟨-, hkey | ⟨e', he', hkey⟩⟩
      · exact hk _ (List.mem_map_of_mem he)
      · exact hkey ▸ Bool.eq_false_iff.2 hne
      · exact hkey ▸ hk _ (List.mem_map_of_mem he')

/-- What remains of some elements is pairwise unequal. -/
theorem unequal_distinct (items : List Value) : Unequal (distinct items) := by
  have hfold : ∀ (items done : List Value), Unequal done → Unequal (items.foldl add done) := by
    intro items
    -- by induction on the elements, for those kept so far
    induction items with
    | nil =>
      intro _ h
      exact h
    | cons w ws ih =>
      intro done h
      apply ih
      unfold add
      split
      · exact h
      · next hnone =>
        refine List.pairwise_append.2 ⟨h, List.pairwise_singleton _ _, ?_⟩
        intro u hu _ hw
        rw [List.mem_singleton.1 hw]
        exact Bool.eq_false_iff.2 fun hequal => hnone (List.any_eq_true.2 ⟨u, hu, hequal⟩)
  exact hfold items [] List.Pairwise.nil

theorem mem_distinct {items : List Value} {v : Value} (h : v ∈ distinct items) : v ∈ items := by
  have hfold : ∀ (items done : List Value), v ∈ items.foldl add done → v ∈ done ∨ v ∈ items := by
    intro items
    induction items with
    | nil =>
      intro _ h
      exact .inl h
    | cons w ws ih =>
      intro done h
      rcases ih _ h with h | h
      · unfold add at h
        split at h
        · exact .inl h
        · rcases List.mem_append.1 h with h | h
          · exact .inl h
          · exact .inr (List.mem_singleton.1 h ▸ List.mem_cons_self)
      · exact .inr (List.mem_cons_of_mem _ h)
  exact (hfold items [] h).resolve_left List.not_mem_nil

end Value
end TaggedWire
