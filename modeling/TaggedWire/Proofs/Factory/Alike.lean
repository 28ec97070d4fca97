import TaggedWire.Proofs.Factory.Coding
import TaggedWire.Proofs.Factory.Generated
import TaggedWire.Proofs.Value.Equivalence

/-!
# Equal values are written alike

A field that is null counts as absent when values are compared, and is written as null either way.
So equal values have the same text, unless one of them cannot be written for a null field that its
type does not declare: to a marshaller such a field is not absent.

* `follows`: what is written for a value is written for an equal one, if that is written at all or
  has no stray field.
* `marshalAs_alike`: what comes of writing two equal values.
-/

namespace TaggedWire

/-- Numbers that are equal and not zero are the same. -/
theorem Binary.eq_of_equal {f : Binary.Format} {x y : Binary f} (h : x.equal y = true)
    (hx : x.magnitude ≠ 0) : x = y := by
  simp only [equal, Bool.and_eq_true, Bool.or_eq_true, decide_eq_true_eq, beq_iff_eq] at h
  exact h.2.resolve_right fun hzero => hx hzero.1

namespace Value

/-- The fields of an object are kept in key order. -/
def Ordered : Value → Prop
  | .object _ fields => KeyOrdered fields
  | _ => True

/-- The value is no floating point zero. -/
def Nonzero : Value → Prop
  | .scalar (.f32 x) => x.magnitude ≠ 0
  | .scalar (.f64 x) => x.magnitude ≠ 0
  | _ => True

/-- The values are equal, their objects keep their fields in order, and there are no zeros of which
there are two.  Whether a set or a map repeats anything does not matter. -/
structure Alike (v w : Value) : Prop where
  equal : v.equal w = true
  left : v.Throughout fun u => u.Ordered ∧ u.Nonzero
  right : w.Throughout fun u => u.Ordered ∧ u.Nonzero

theorem Alike.symm {v w : Value} (h : v.Alike w) : w.Alike v :=
  ⟨equal_symm h.equal, h.right, h.left⟩

theorem Alike.eq_of_scalar {a b : Scalar} (h : Alike (.scalar a) (.scalar b)) : a = b := by
  have hnonzero := (h.left _ .self).2
  cases equal_iff.1 h.equal with
  | scalar hequal =>
    cases a <;> cases b <;> first
      | cases hequal
      | rw [beq_iff_eq.1 hequal]
      | rw [Binary.eq_of_equal hequal hnonzero]

/-- Lists, sets and arrays that are alike have elements that are alike, one by one. -/
theorem alike_items {as bs : List Value}
    (hequal : List.Forall₂ (fun a b => a.equal b = true) as bs)
    (ha : ∀ a ∈ as, a.Throughout fun u => u.Ordered ∧ u.Nonzero)
    (hb : ∀ b ∈ bs, b.Throughout fun u => u.Ordered ∧ u.Nonzero) :
    List.Forall₂ (fun a b => a ∈ as ∧ b ∈ bs ∧ a.Alike b) as bs :=
  (forall₂_mem hequal).imp fun a b h =>
    ⟨h.1, h.2.1, h.2.2, ha a h.1, hb b h.2.1⟩

theorem alike_entries {as bs : List (Value × Value)} (hequal : List.Forall₂ EqualEntry as bs)
    (ha : ∀ a ∈ as, (a.1.Throughout fun u => u.Ordered ∧ u.Nonzero) ∧
      a.2.Throughout fun u => u.Ordered ∧ u.Nonzero)
    (hb : ∀ b ∈ bs, (b.1.Throughout fun u => u.Ordered ∧ u.Nonzero) ∧
      b.2.Throughout fun u => u.Ordered ∧ u.Nonzero) :
    List.Forall₂ (fun a b => a ∈ as ∧ b ∈ bs ∧ a.1.Alike b.1 ∧ a.2.Alike b.2) as bs :=
  (forall₂_mem hequal).imp fun a b h =>
    ⟨h.1, h.2.1, ⟨h.2.2.1, (ha a h.1).1, (hb b h.2.1).1⟩,
      ⟨h.2.2.2, (ha a h.1).2, (hb b h.2.1).2⟩⟩

theorem throughout_fieldValue {p : Value → Prop} (hnull : p .null)
    {fields : List (String × Value)} (h : ∀ e ∈ fields, e.2.Throughout p) (name : String) :
    (Factory.fieldValue fields name).Throughout p :=
  Factory.fieldValue_of_forall (throughout_iff.2 ⟨hnull, trivial⟩) h name

theorem Alike.fieldValue {type type' : String} {as bs : List (String × Value)}
    (h : Alike (.object type as) (.object type' bs)) (name : String) :
    Alike (Factory.fieldValue as name) (Factory.fieldValue bs name) := by
  constructor
  case equal =>
    -- no name is given twice, so the fields are those of tables
    let left : Table Value := ⟨as, (h.left _ .self).1⟩
    let right : Table Value := ⟨bs, (h.right _ .self).1⟩
    have hequal : (object type left.entries).equal (object type' right.entries) = true := h.equal
    exact (equal_object_iff.1 hequal).2 name
  case left => exact throughout_fieldValue ⟨trivial, trivial⟩ h.left.parts name
  case right => exact throughout_fieldValue ⟨trivial, trivial⟩ h.right.parts name

end Value

open Value

namespace Factory

/-- The value is an object with a null field that an object marshaller which accepts the claim of
the object does not declare. -/
def Stray (f : Factory) : Value → Prop
  | .object claimed fields => ∃ id i type declared, f.lookup id = some i ∧
      i.marshaller = .object type declared ∧ f.acceptsClaim type claimed = true ∧
        ∃ name, (name, Value.null) ∈ fields ∧ ∀ field ∈ declared, field.name ≠ name
  | _ => False

/-- The value is written in the slot, or there is no stray field anywhere in it. -/
def Tidy (f : Factory) (w : Value) (slot : Slot) : Prop :=
  (∃ t, f.encode w slot = .ok t) ∨ w.Throughout fun u => ¬ f.Stray u

/-- What is written for one value is written for the other, if that is tidy. -/
def Follows (f : Factory) (v w : Value) (slot : Slot) : Prop :=
  f.Tidy w slot → ∀ s, f.encode v slot = .ok s → f.encode w slot = .ok s

variable {f : Factory}

/-- What a tidy value is written by in another slot, it is tidy there. -/
theorem Tidy.imp {w u : Value} {slot slot' : Slot} (h : f.Tidy w slot)
    (hwritten : ∀ t, f.encode w slot = .ok t → ∃ t', f.encode u slot' = .ok t')
    (hstray : (w.Throughout fun x => ¬ f.Stray x) → u.Throughout fun x => ¬ f.Stray x) :
    f.Tidy u slot' := by
  rcases h with ⟨t, ht⟩ | h
  · exact .inl (hwritten t ht)
  · exact .inr (hstray h)

theorem follows_tagged {v w : Value} (h : v.Alike w)
    (hthrough : ∀ id i, f.lookup id = some i → f.Follows v w (.through i.marshaller)) :
    f.Follows v w .tagged := by
  intro htidy s hs
  rw [encode_tagged, typeId?_of_equal h.equal] at hs
  rw [encode_tagged]
  cases hid : w.typeId? with
  | none =>
    rw [hid] at hs
    exact hs
  | some id =>
    rw [hid] at hs
    obtain ⟨i, hi, hs⟩ := bind_eq_ok_iff.1 hs
    obtain ⟨plain, hplain, hs⟩ := bind_eq_ok_iff.1 hs
    -- equal values have the same type identifier, and with it the same marshaller
    have htidy : f.Tidy w (.through i.marshaller) := by
      refine htidy.imp (fun t ht => ?_) fun h => h
      rw [encode_tagged, hid] at ht
      obtain ⟨i', hi', ht⟩ := bind_eq_ok_iff.1 ht
      rw [hi] at hi'
      cases hi'
      obtain ⟨plain', hplain', -⟩ := bind_eq_ok_iff.1 ht
      exact ⟨plain', hplain'⟩
    have hlookup := (f.require_eq_ok_iff _ _ _).1 hi
    exact bind_eq_ok_iff.2
      ⟨i, hi, bind_eq_ok_iff.2 ⟨plain, hthrough id i hlookup htidy plain hplain, hs⟩⟩

theorem checkAssignable_eq {v w : Value} (h : v.Alike w) (declared owner : String) :
    f.checkAssignable declared v owner = f.checkAssignable declared w owner := by
  unfold checkAssignable
  rw [typeId?_of_equal h.equal]

theorem follows_declared {v w : Value} (h : v.Alike w)
    (hthrough : ∀ id i, f.lookup id = some i → f.Follows v w (.through i.marshaller))
    (type : TypeRef) (owner : String) : f.Follows v w (.declared type owner) := by
  intro htidy s hs
  have htagged := follows_tagged h hthrough
  rw [encode_declared, isNull_of_equal h.equal] at hs
  rw [encode_declared]
  unfold Tidy at htidy
  rw [encode_declared] at htidy
  -- a null is equal to null alone; the check of a name sees only the type identifiers
  split at hs
  · next hnull => rw [if_pos hnull, hs]
  · next hnull =>
    rw [if_neg hnull] at htidy ⊢
    cases type with
    | any => exact htagged htidy s hs
    | named name =>
      obtain ⟨⟨⟩, hcheck, hs⟩ := bind_eq_ok_iff.1 hs
      rw [checkAssignable_eq h] at hcheck
      refine bind_eq_ok_iff.2 ⟨(), hcheck, htagged (htidy.imp_left ?_) s hs⟩
      rintro ⟨t, ht⟩
      obtain ⟨⟨⟩, -, ht⟩ := bind_eq_ok_iff.1 ht
      exact ⟨t, ht⟩
    | _ =>
      obtain ⟨i, hi, hs⟩ := bind_eq_ok_iff.1 hs
      have hlookup := (f.require_eq_ok_iff _ _ _).1 hi
      refine bind_eq_ok_iff.2 ⟨i, hi, hthrough _ i hlookup (htidy.imp_left ?_) s hs⟩
      rintro ⟨t, ht⟩
      obtain ⟨i', hi', ht⟩ := bind_eq_ok_iff.1 ht
      rw [hi] at hi'
      cases hi'
      exact ⟨t, ht⟩

theorem follows_row {v w : Value} (h : v.Alike w)
    (hthrough : ∀ shape, f.Follows v w (.through (.array shape))) (component : TypeRef)
    (dimensions : Nat) : f.Follows v w (.row component dimensions) := by
  intro htidy s hs
  unfold Tidy at htidy
  rw [encode_row] at hs htidy ⊢
  cases equal_iff.1 h.equal with
  | null => exact hs
  | array _ _ => exact hthrough _ htidy s hs
  | _ => cases hs

theorem follows_of_through {v w : Value} (h : v.Alike w)
    (hthrough : ∀ m, f.Offers (.through m) → f.Follows v w (.through m)) {slot : Slot}
    (hslot : f.Offers slot) : f.Follows v w slot := by
  have hbound : ∀ id i, f.lookup id = some i → f.Follows v w (.through i.marshaller) :=
    fun id i hi => hthrough _ (.inl ⟨id, i, hi, rfl⟩)
  cases slot with
  | tagged => exact follows_tagged h hbound
  | declared type owner => exact follows_declared h hbound type owner
  | row component dimensions =>
    exact follows_row h (fun shape => hthrough _ (.inr ⟨shape, rfl⟩)) component dimensions
  | through m => exact hthrough m hslot

/-! ### Through a marshaller

The second value is tidy if it can be written or has no stray field.  Either way its parts are tidy,
and this is what is handed on to them. -/

theorem follows_items {as bs : List Value} {slot : Slot}
    (h : List.Forall₂ (fun a b => b ∈ bs ∧ f.Follows a b slot) as bs)
    (htidy : (∃ t, encodeItems slot (bs.map f.encode) = .ok t) ∨
      ∀ b ∈ bs, b.Throughout fun u => ¬ f.Stray u) {s : String}
    (hs : encodeItems slot (as.map f.encode) = .ok s) :
    encodeItems slot (bs.map f.encode) = .ok s := by
  -- if the list is written, each of its items is
  have hitems : ∀ b ∈ bs, f.Tidy b slot := by
    intro b hb
    rcases htidy with ⟨t, ht⟩ | htidy
    · obtain ⟨texts, htexts, -⟩ := encodeItems_eq_ok_iff.1 ht
      rw [List.forall₂_map_left_iff] at htexts
      obtain ⟨t, -, ht⟩ := exists_of_forall₂ htexts b hb
      exact .inl ⟨t, ht⟩
    · exact .inr (htidy b hb)
  obtain ⟨texts, htexts, rfl⟩ := encodeItems_eq_ok_iff.1 hs
  refine encodeItems_eq_ok_iff.2 ⟨texts, ?_, rfl⟩
  rw [List.forall₂_map_left_iff] at htexts ⊢
  exact forall₂_trans_of_mem h.flip htexts fun b _ a t hab ha => hab.2 (hitems b hab.1) t ha

/-- Elements that are equal one by one follow each other, if equal values do. -/
theorem follows_of_equal {as bs : List Value}
    (hequal : List.Forall₂ (fun a b => a.equal b = true) as bs)
    (ha : ∀ a ∈ as, a.Throughout fun u => u.Ordered ∧ u.Nonzero)
    (hb : ∀ b ∈ bs, b.Throughout fun u => u.Ordered ∧ u.Nonzero)
    (h : ∀ a ∈ as, ∀ b, a.Alike b → ∀ {slot}, f.Offers slot → f.Follows a b slot) (slot : Slot)
    (hslot : f.Offers slot) : List.Forall₂ (fun a b => b ∈ bs ∧ f.Follows a b slot) as bs :=
  (alike_items hequal ha hb).imp fun a b hab => ⟨hab.2.1, h a hab.1 b hab.2.2 hslot⟩

theorem follows_entries {as bs : List (Value × Value)}
    (h : List.Forall₂ (fun a b => b ∈ bs ∧ f.Follows a.1 b.1 .tagged ∧
      f.Follows a.2 b.2 .tagged) as bs)
    (htidy : (∃ t, encodeEntries (bs.map fun e => (f.encode e.1, f.encode e.2)) = .ok t) ∨
      ∀ b ∈ bs, (b.1.Throughout fun u => ¬ f.Stray u) ∧ b.2.Throughout fun u => ¬ f.Stray u)
    {s : String} (hs : encodeEntries (as.map fun e => (f.encode e.1, f.encode e.2)) = .ok s) :
    encodeEntries (bs.map fun e => (f.encode e.1, f.encode e.2)) = .ok s := by
  -- what is known of the whole map is known of its keys and values
  have hentries : ∀ b ∈ bs, f.Tidy b.1 .tagged ∧ f.Tidy b.2 .tagged := by
    intro b hb
    rcases htidy with ⟨t, ht⟩ | htidy
    · obtain ⟨texts, htexts, -⟩ := encodeEntries_eq_ok_iff.1 ht
      rw [List.forall₂_map_left_iff] at htexts
      obtain ⟨_, -, k, v, hk, hv, -⟩ := exists_of_forall₂ htexts b hb
      exact ⟨.inl ⟨k, hk⟩, .inl ⟨v, hv⟩⟩
    · exact ⟨.inr (htidy b hb).1, .inr (htidy b hb).2⟩
  obtain ⟨texts, htexts, rfl⟩ := encodeEntries_eq_ok_iff.1 hs
  refine encodeEntries_eq_ok_iff.2 ⟨texts, ?_, rfl⟩
  rw [List.forall₂_map_left_iff] at htexts ⊢
  refine forall₂_trans_of_mem h.flip htexts fun b _ a t hab ha => ?_
  obtain ⟨k, v, hk, hv, rfl⟩ := ha
  obtain ⟨hb, hkey, hvalue⟩ := hab
  exact ⟨k, v, hkey (hentries b hb).1 k hk, hvalue (hentries b hb).2 v hv, rfl⟩

/-- Each given field is declared: one that is null because the other object is tidy, another one
because it is given in the first object as well. -/
theorem declared_of_tidy {declared : List Field}
    {as bs : List (String × Value)} (hequal : List.Forall₂ EqualField (present as) (present bs))
    (hknown : ∀ a ∈ as, ∃ field ∈ declared, field.name = a.1)
    (hnull : ∀ name, (name, Value.null) ∈ bs → ∃ field ∈ declared, field.name = name) :
    ∀ b ∈ bs, ∃ field ∈ declared, field.name = b.1 := by
  rintro ⟨name, w⟩ hb
  cases hisNull : w.isNull with
  | true =>
    cases w with
    | null => exact hnull name hb
    | _ => cases hisNull
  | false =>
    obtain ⟨a, ha, rfl, -⟩ :=
      exists_of_forall₂ hequal.flip _ (mem_present.2 ⟨hb, hisNull⟩)
    exact hknown a (mem_present.1 ha).1

theorem follows_object {type claimed : String} {declared : List Field}
    {as bs : List (String × Value)} (hequal : List.Forall₂ EqualField (present as) (present bs))
    (hbound : ∃ id i, f.lookup id = some i ∧ i.marshaller = .object type declared)
    (hfields : ∀ name slot, f.Offers slot →
      f.Follows (fieldValue as name) (fieldValue bs name) slot) :
    f.Follows (.object claimed as) (.object claimed bs) (.through (.object type declared)) := by
  intro htidy s hs
  obtain ⟨hclaim, hknown, texts, htexts, rfl⟩ := f.encode_object_eq_ok_iff.1 hs
  refine f.encode_object_eq_ok_iff.2 ⟨hclaim, declared_of_tidy hequal hknown ?_, texts, ?_, rfl⟩
  -- A null field that is not declared would be stray, and the marshaller would refuse it.
  · intro name hname
    rcases htidy with ⟨t, ht⟩ | htidy
    · exact (f.encode_object_eq_ok_iff.1 ht).2.1 _ hname
    · by_contra hnone
      obtain ⟨id, i, hi, hm⟩ := hbound
      refine htidy _ .self ⟨id, i, type, declared, hi, hm, hclaim, name, hname, ?_⟩
      intro field hfield heq
      exact hnone ⟨field, hfield, heq⟩
  -- a declared field is written under its name, whether the object has it or not
  · refine forall₂_imp_of_mem htexts fun field hfield t ht => ?_
    unfold WritesField at ht ⊢
    refine hfields field.name (.declared field.declared s!"{type}.{field.name}") trivial ?_ t ht
    rcases htidy with ⟨t', ht'⟩ | htidy
    · obtain ⟨-, -, texts', htexts', -⟩ := f.encode_object_eq_ok_iff.1 ht'
      obtain ⟨t, -, ht⟩ := exists_of_forall₂ htexts' field hfield
      exact .inl ⟨t, ht⟩
    · exact .inr (throughout_fieldValue id htidy.parts field.name)

theorem follows_list {as bs : List Value}
    (h : List.Forall₂ (fun a b => b ∈ bs ∧ f.Follows a b .tagged) as bs) {m : Marshaller}
    (hm : m.Usual) : f.Follows (.list as) (.list bs) (.through m) := by
  intro htidy s hs
  unfold Tidy at htidy
  rw [encode_list] at hs htidy ⊢
  cases m with
  | list => exact follows_items h (htidy.imp_right fun h => h.parts) hs
  | foreign _ => exact hm.elim
  | _ => cases hs

theorem follows_set {as bs : List Value}
    (h : List.Forall₂ (fun a b => b ∈ bs ∧ f.Follows a b .tagged) as bs) {m : Marshaller}
    (hm : m.Usual) : f.Follows (.set as) (.set bs) (.through m) := by
  intro htidy s hs
  unfold Tidy at htidy
  rw [encode_set] at hs htidy ⊢
  cases m with
  | set => exact follows_items h (htidy.imp_right fun h => h.parts) hs
  | foreign _ => exact hm.elim
  | _ => cases hs

theorem follows_map {as bs : List (Value × Value)}
    (h : List.Forall₂ (fun a b => b ∈ bs ∧ f.Follows a.1 b.1 .tagged ∧
      f.Follows a.2 b.2 .tagged) as bs) {m : Marshaller} (hm : m.Usual) :
    f.Follows (.map as) (.map bs) (.through m) := by
  intro htidy s hs
  unfold Tidy at htidy
  rw [encode_map] at hs htidy ⊢
  cases m with
  | map => exact follows_entries h (htidy.imp_right fun h => h.parts) hs
  | foreign _ => exact hm.elim
  | _ => cases hs

theorem follows_array {signature : ArraySignature} {as bs : List Value}
    (h : ∀ slot, f.Offers slot → List.Forall₂ (fun a b => b ∈ bs ∧ f.Follows a b slot) as bs)
    {m : Marshaller} (hm : m.Usual) :
    f.Follows (.array signature as) (.array signature bs) (.through m) := by
  intro htidy s hs
  unfold Tidy at htidy
  rw [encode_array] at hs htidy ⊢
  cases m with
  | array shape =>
    obtain ⟨hshape, hs⟩ := encodeRows_eq_ok_iff.1 hs
    refine encodeRows_eq_ok_iff.2 ⟨hshape, follows_items (h _ (f.offers_element _ _ _)) ?_ hs⟩
    refine htidy.imp ?_ fun h => h.parts
    rintro ⟨t, ht⟩
    exact ⟨t, (encodeRows_eq_ok_iff.1 ht).2⟩
  | foreign _ => exact hm.elim
  | _ => cases hs

/-- Of the usual marshallers only those of objects write an object. -/
theorem follows_fields (hf : f.Usual) {claimed : String} {as bs : List (String × Value)}
    (hequal : List.Forall₂ EqualField (present as) (present bs))
    (hfields : ∀ name slot, f.Offers slot →
      f.Follows (fieldValue as name) (fieldValue bs name) slot)
    {m : Marshaller} (hm : f.Offers (.through m)) :
    f.Follows (.object claimed as) (.object claimed bs) (.through m) := by
  intro htidy s hs
  cases m with
  | object type declared =>
    obtain ⟨id, i, hi, heq⟩ := hm.resolve_right nofun
    exact follows_object hequal ⟨id, i, hi, heq⟩ hfields htidy s hs
  | foreign _ => exact (hf.of_offers hm).elim
  | scalar _ | string | list | set | map | enumeration _ _ | array _ =>
    rw [encode_object] at hs
    cases hs

theorem follows_self (v : Value) (slot : Slot) : f.Follows v v slot := fun _ _ hs => hs

theorem follows_null {w : Value} (h : Value.null.Alike w) (slot : Slot) :
    f.Follows .null w slot := by
  cases equal_iff.1 h.equal
  exact follows_self _ slot

/-- By induction on the value: through every marshaller of the factory, and so in every slot. -/
theorem follows (hf : f.Usual) {v w : Value} (h : v.Alike w) {slot : Slot} (hslot : f.Offers slot) :
    f.Follows v w slot := by
  induction v using Value.induction generalizing w slot with
  -- nothing else is equal to these
  | null | string _ | enumeration _ _ =>
    cases equal_iff.1 h.equal
    exact follows_self _ slot
  | scalar a =>
    cases equal_iff.1 h.equal with
    | scalar _ =>
      obtain rfl := h.eq_of_scalar
      exact follows_self _ slot
  -- the items are equal one by one
  | list as ih =>
    cases equal_iff.1 h.equal with
    | list hequal =>
      have hitems := follows_of_equal hequal h.left.parts h.right.parts fun a ha _ => ih a ha
      exact follows_of_through h
        (fun m hm => follows_list (hitems .tagged trivial) (hf.of_offers hm)) hslot
  | set as ih =>
    cases equal_iff.1 h.equal with
    | set hequal =>
      have hitems := follows_of_equal hequal h.left.parts h.right.parts fun a ha _ => ih a ha
      exact follows_of_through h
        (fun m hm => follows_set (hitems .tagged trivial) (hf.of_offers hm)) hslot
  | array signature as ih =>
    cases equal_iff.1 h.equal with
    | array _ hequal =>
      have hitems := follows_of_equal hequal h.left.parts h.right.parts fun a ha _ => ih a ha
      exact follows_of_through h (fun m hm => follows_array hitems (hf.of_offers hm)) hslot
  | map as ih =>
    cases equal_iff.1 h.equal with
    | @map _ bs hequal =>
      have hentries : List.Forall₂ (fun a b => b ∈ bs ∧ f.Follows a.1 b.1 .tagged ∧
          f.Follows a.2 b.2 .tagged) as bs :=
        (alike_entries hequal h.left.parts h.right.parts).imp fun a b hab =>
          ⟨hab.2.1, (ih a hab.1).1 hab.2.2.1 trivial, (ih a hab.1).2 hab.2.2.2 trivial⟩
      exact follows_of_through h (fun m hm => follows_map hentries (hf.of_offers hm)) hslot
  -- the fields are equal by name, a missing one being null
  | object claimed as ih =>
    cases equal_iff.1 h.equal with
    | object _ hequal =>
      have hvalue := fieldValue_of_forall
        (p := fun v => ∀ {w}, v.Alike w → ∀ {slot}, f.Offers slot → f.Follows v w slot)
        (fun h slot _ => follows_null h slot) ih
      refine follows_of_through h (fun m hm => follows_fields hf hequal ?_ hm) hslot
      exact fun name slot hslot => hvalue name (h.fieldValue name) hslot

/-- Where an equal value is written, this one is as well and with the same text, or it has a stray
field. -/
theorem alike_of_written (hf : f.Usual) {v w : Value} (h : v.Alike w) {slot : Slot}
    (hslot : f.Offers slot) {s : String} (hs : f.encode v slot = .ok s) :
    f.encode w slot = .ok s ∨ (∃ e, f.encode w slot = .error e) ∧ ∃ u, Occurs u w ∧ f.Stray u := by
  have hfollows := follows hf h hslot
  cases hw : f.encode w slot with
  | ok t => exact .inl (hw ▸ hfollows (.inl ⟨t, hw⟩) s hs)
  | error e =>
    refine .inr ⟨⟨e, rfl⟩, ?_⟩
    by_contra hnone
    have htidy : w.Throughout fun u => ¬ f.Stray u := fun u hu hstray => hnone ⟨u, hu, hstray⟩
    cases hw.symm.trans (hfollows (.inr htidy) s hs)

end Factory

namespace Generator

variable {g : Generator} {d : Catalog} {package className : String} {f : Factory}

/-- Equal values are written with the same text or not at all, unless one of them is written and the
other has a null field that its type does not declare. -/
theorem marshalAs_alike (hover : g.Over d)
    (hclasses : ∀ t ∈ d.types, ∀ name, t.className = some name →
      Providers.builtin.contains name = true)
    (hf : g.factory package className = .ok f) (type : TypeRef) {v w : Value}
    (hequal : v.equal w = true) (hv : v.Throughout fun u => u.Ordered ∧ u.Nonzero)
    (hw : w.Throughout fun u => u.Ordered ∧ u.Nonzero) :
    (∃ s, f.marshalAs type v = .ok s ∧ f.marshalAs type w = .ok s) ∨
      (∃ e e', f.marshalAs type v = .error e ∧ f.marshalAs type w = .error e') ∨
      (∃ s e, f.marshalAs type v = .ok s ∧ f.marshalAs type w = .error e ∧
        ∃ u, Occurs u w ∧ f.Stray u) ∨
      ∃ s e, f.marshalAs type v = .error e ∧ f.marshalAs type w = .ok s ∧
        ∃ u, Occurs u v ∧ f.Stray u := by
  have husual := usual_of_factory hover hclasses hf
  have halike : v.Alike w := ⟨hequal, hv, hw⟩
  have hslot : f.Offers (.declared type type.id) := trivial
  -- Equality is symmetric, and so the two mixed cases are one lemma read both ways.
  cases hfirst : f.marshalAs type v with
  | ok s =>
    rcases Factory.alike_of_written husual halike hslot hfirst with hs | ⟨⟨e, he⟩, hstray⟩
    · exact .inl ⟨s, rfl, hs⟩
    · exact .inr (.inr (.inl ⟨s, e, rfl, he, hstray⟩))
  | error e =>
    cases hsecond : f.marshalAs type w with
    | error e' => exact .inr (.inl ⟨e, e', rfl, rfl⟩)
    | ok s =>
      rcases Factory.alike_of_written husual halike.symm hslot hsecond with hs | ⟨-, hstray⟩
      · cases hfirst.symm.trans hs
      · exact .inr (.inr (.inr ⟨s, e, rfl, rfl, hstray⟩))

/-- A knot of which no field is given. -/
def bareKnot : Value := .object "Knot" []

/-- A knot with a field that is null. -/
def nullKnot (name : String) : Value := .object "Knot" [(name, .null)]

theorem equal_nullKnot (name : String) : bareKnot.equal (nullKnot name) = true := by
  simp [bareKnot, nullKnot, Value.equal, equalFields, Value.isNull]

theorem bareKnot_throughout : bareKnot.Throughout fun u => u.Ordered ∧ u.Nonzero :=
  throughout_iff.2 ⟨⟨List.Pairwise.nil, trivial⟩, fun _ h => absurd h List.not_mem_nil⟩

theorem nullKnot_throughout (name : String) :
    (nullKnot name).Throughout fun u => u.Ordered ∧ u.Nonzero := by
  refine throughout_iff.2 ⟨⟨List.pairwise_singleton _ _, trivial⟩, ?_⟩
  exact List.forall_mem_singleton.2 (throughout_iff.2 ⟨⟨trivial, trivial⟩, trivial⟩)

theorem nullKnots_written : (factoryOver knots).toOption.any (fun f =>
    (f.marshalAs (.named "Knot") bareKnot).toOption.isSome &&
      (f.marshalAs (.named "Knot") (nullKnot "ends")).toOption.isSome &&
        (f.marshalAs (.named "Knot") (nullKnot "rope")).toOption.isNone) = true := by
  decide +kernel

/-- A null in a field that is declared is no different from a field that is missing. -/
theorem marshalAs_alike_ends : ∃ c f s,
    (⟨c, Providers.builtin⟩ : Generator).factory "demo" "Factory" = .ok f ∧
    f.marshalAs (.named "Knot") bareKnot = .ok s ∧
      f.marshalAs (.named "Knot") (nullKnot "ends") = .ok s := by
  obtain ⟨f, hf, hwritten⟩ := (Option.any_eq_true _ _).1 nullKnots_written
  obtain ⟨c, hstandard, hf⟩ :=
    standard_of_factoryOver parse_knotDocument (toOption_eq_some_iff.1 hf)
  rw [Bool.and_eq_true, Bool.and_eq_true, Option.isSome_iff_exists,
    Option.isSome_iff_exists] at hwritten
  obtain ⟨⟨⟨t, ht⟩, t', ht'⟩, -⟩ := hwritten
  rw [toOption_eq_some_iff] at ht ht'
  rcases marshalAs_alike hstandard.over (by simp [knots]) hf (.named "Knot") (equal_nullKnot "ends")
      bareKnot_throughout (nullKnot_throughout "ends") with
    ⟨s, hs, hs'⟩ | ⟨e, -, he, -⟩ | ⟨-, e, -, he, -⟩ | ⟨-, e, he, -, -⟩
  · exact ⟨c, f, s, hf, hs, hs'⟩
  · cases ht.symm.trans he
  · cases ht'.symm.trans he
  · cases ht.symm.trans he

/-- A knot with a null field that it does not declare equals the bare knot, which is written, and is
not written itself. -/
theorem nullKnot_unwritten : ∃ c f, (⟨c, Providers.builtin⟩ : Generator).Standard knots ∧
    (∀ t ∈ knots.types, t.className = none) ∧
    (⟨c, Providers.builtin⟩ : Generator).factory "demo" "Factory" = .ok f ∧
    bareKnot.equal (nullKnot "rope") = true ∧
    (bareKnot.Throughout fun u => u.Ordered ∧ u.Nonzero) ∧
    ((nullKnot "rope").Throughout fun u => u.Ordered ∧ u.Nonzero) ∧
    (∃ s, f.marshalAs (.named "Knot") bareKnot = .ok s) ∧
      ¬∃ s, f.marshalAs (.named "Knot") (nullKnot "rope") = .ok s := by
  obtain ⟨f, hf, hwritten⟩ := (Option.any_eq_true _ _).1 nullKnots_written
  obtain ⟨c, hstandard, hf⟩ :=
    standard_of_factoryOver parse_knotDocument (toOption_eq_some_iff.1 hf)
  rw [Bool.and_eq_true, Bool.and_eq_true, Option.isSome_iff_exists] at hwritten
  obtain ⟨⟨⟨s, hs⟩, -⟩, hnone⟩ := hwritten
  refine ⟨c, f, hstandard, by simp [knots], hf, equal_nullKnot "rope", bareKnot_throughout,
    nullKnot_throughout "rope", ⟨s, toOption_eq_some_iff.1 hs⟩, ?_⟩
  rintro ⟨t, ht⟩
  rw [ht] at hnone
  cases hnone

end Generator
end TaggedWire
