import TaggedWire.Proofs.Factory.Accepted
import TaggedWire.Proofs.Value.Equivalence

/-!
# Names that stand for the same type

A type has a name and aliases, and an object or enum may claim any of them.  What is written does
not depend on which, but for the tags.  Where the marshaller is looked up, identifiers are compared
by the instance that they are bound to; where an object or enum is written, the claim is compared
with the name of the type, or by the type that its marshaller handles.  Both come to the same since
the marshaller of a type is bound to its name.

The two runs are taken through the encoder together.  `Value.Renamed` relates the values and
`Json.Retagged` relates what is written for them.  The latter follows both values: where one of
them claims a name, its document opens with this name, and everywhere else the documents agree.

* `Factory.echoed`: what is written for a value is written for a renamed one, up to the tags.
* `Generator.marshalAs_renamed`: renaming neither makes nor breaks an encoding.
-/

namespace TaggedWire

variable {R : String → String → Prop}

/-! ### Values and documents up to names

`Value.Renamed` leaves everything of a value alone but the names its objects and enums claim.  The
relation of documents is indexed by both values, so that a tag may differ only at the node whose
own claim differs. -/

/-- The values differ in nothing but the names that objects and enums claim, and the names at the
same place are related. -/
inductive Value.Renamed (R : String → String → Prop) : Value → Value → Prop
  | null : Renamed R .null .null
  | scalar (s : Scalar) : Renamed R (.scalar s) (.scalar s)
  | string (s : String) : Renamed R (.string s) (.string s)
  | list {as bs : List Value} (items : List.Forall₂ (Renamed R) as bs) :
    Renamed R (.list as) (.list bs)
  | set {as bs : List Value} (items : List.Forall₂ (Renamed R) as bs) :
    Renamed R (.set as) (.set bs)
  | map {as bs : List (Value × Value)}
    (keys : List.Forall₂ (Renamed R) (as.map (·.1)) (bs.map (·.1)))
    (values : List.Forall₂ (Renamed R) (as.map (·.2)) (bs.map (·.2))) :
    Renamed R (.map as) (.map bs)
  | array (signature : ArraySignature) {as bs : List Value}
    (items : List.Forall₂ (Renamed R) as bs) :
    Renamed R (.array signature as) (.array signature bs)
  | enumeration {a b : String} (names : R a b) (variant : String) :
    Renamed R (.enumeration a variant) (.enumeration b variant)
  | object {a b : String} (names : R a b) {as bs : List (String × Value)}
    (keys : as.map (·.1) = bs.map (·.1))
    (values : List.Forall₂ (Renamed R) (as.map (·.2)) (bs.map (·.2))) :
    Renamed R (.object a as) (.object b bs)

mutual

/-- The documents, written for two values, differ in nothing but the types that objects open with:
those are the names that the values claim at that place. -/
inductive Json.Retagged : Value → Value → Json → Json → Prop
  | same (v : Value) (j : Json) : Retagged v v j j
  /-- A tag around the document of a value that claims no name of its own. -/
  | wrapped {v w : Value} {tag : String} (tagged : v.typeId? = some tag)
    (tagged' : w.typeId? = some tag) {j k : Json} (inner : Json.Retagged v w j k) :
    Retagged v w (.object [(Wire.typeKey, .string tag), (Wire.valueKey, j)])
      (.object [(Wire.typeKey, .string tag), (Wire.valueKey, k)])
  | list {as bs : List Value} {js ks : List Json} (items : Json.AllRetagged as bs js ks) :
    Retagged (.list as) (.list bs) (.array js) (.array ks)
  | set {as bs : List Value} {js ks : List Json} (items : Json.AllRetagged as bs js ks) :
    Retagged (.set as) (.set bs) (.array js) (.array ks)
  | array {signature : ArraySignature} {as bs : List Value} {js ks : List Json}
    (items : Json.AllRetagged as bs js ks) :
    Retagged (.array signature as) (.array signature bs) (.array js) (.array ks)
  | map {as bs : List (Value × Value)} {js ks : List Json}
    (entries : Json.EntriesRetagged as bs js ks) :
    Retagged (.map as) (.map bs) (.array js) (.array ks)
  | enumeration (a b variant : String) :
    Retagged (.enumeration a variant) (.enumeration b variant)
      (.object [(Wire.typeKey, .string a), (Wire.constantKey, .string variant)])
      (.object [(Wire.typeKey, .string b), (Wire.constantKey, .string variant)])
  /-- The members are the fields of both objects in one order. -/
  | object (a b : String) {as bs : List (String × Value)} (names : List String) {js ks : List Json}
    (fields : Json.AllRetagged (names.map (Factory.fieldValue as))
      (names.map (Factory.fieldValue bs)) js ks) :
    Retagged (.object a as) (.object b bs)
      (.object ((Wire.typeKey, .string a) :: names.zip js))
      (.object ((Wire.typeKey, .string b) :: names.zip ks))

/-- The documents are written for the values one by one. -/
inductive Json.AllRetagged : List Value → List Value → List Json → List Json → Prop
  | nil : AllRetagged [] [] [] []
  | cons {v w : Value} {j k : Json} {as bs : List Value} {js ks : List Json}
    (head : Json.Retagged v w j k) (tail : Json.AllRetagged as bs js ks) :
    AllRetagged (v :: as) (w :: bs) (j :: js) (k :: ks)

/-- The documents are pairs, written for the entries of two maps one by one. -/
inductive Json.EntriesRetagged :
    List (Value × Value) → List (Value × Value) → List Json → List Json → Prop
  | nil : EntriesRetagged [] [] [] []
  | cons {a b : Value × Value} {j k j' k' : Json} {as bs : List (Value × Value)}
    {js ks : List Json} (key : Json.Retagged a.1 b.1 j k) (value : Json.Retagged a.2 b.2 j' k')
    (tail : Json.EntriesRetagged as bs js ks) :
    EntriesRetagged (a :: as) (b :: bs) (.array [j, j'] :: js) (.array [k, k'] :: ks)

end

namespace Value.Renamed

theorem symm {v w : Value} (h : v.Renamed R w) : w.Renamed (flip R) v := by
  -- for the elements of every container alike
  have hitems {as bs : List Value} (ih : ∀ a ∈ as, ∀ {b}, a.Renamed R b → b.Renamed (flip R) a)
      (hab : List.Forall₂ (Renamed R) as bs) : List.Forall₂ (Renamed (flip R)) bs as :=
    (forall₂_imp_of_mem hab fun a ha _ => ih a ha).flip
  induction v using Value.induction generalizing w with
  | null | scalar _ | string _ =>
    cases h
    constructor
  | enumeration type variant =>
    cases h with
    | enumeration names _ => exact .enumeration (R := flip R) names variant
  | list items ih =>
    cases h with
    | list h => exact .list (hitems ih h)
  | set items ih =>
    cases h with
    | set h => exact .set (hitems ih h)
  | array signature items ih =>
    cases h with
    | array _ h => exact .array signature (hitems ih h)
  | map entries ih =>
    cases h with
    | map keys values =>
      exact .map (hitems (List.forall_mem_map.2 fun e he => (ih e he).1) keys)
        (hitems (List.forall_mem_map.2 fun e he => (ih e he).2) values)
  | object type fields ih =>
    cases h with
    | object names keys values =>
      exact .object (R := flip R) names keys.symm (hitems (List.forall_mem_map.2 ih) values)

theorem isNull {v w : Value} (h : v.Renamed R w) : w.isNull = v.isNull := by
  cases h <;> rfl

/-- The values name their types alike, or they claim related names. -/
theorem typeId? {v w : Value} (h : v.Renamed R w) :
    w.typeId? = v.typeId? ∨ ∃ a b, v.typeId? = some a ∧ w.typeId? = some b ∧ R a b := by
  cases h with
  | enumeration names _ => exact .inr ⟨_, _, rfl, rfl, names⟩
  | object names _ _ => exact .inr ⟨_, _, rfl, rfl, names⟩
  | _ => exact .inl rfl

/-- The values of a field are related, whether given or not. -/
theorem fieldValue {as bs : List (String × Value)} (keys : as.map (·.1) = bs.map (·.1))
    (values : List.Forall₂ (Renamed R) (as.map (·.2)) (bs.map (·.2))) (name : String) :
    (Factory.fieldValue as name).Renamed R (Factory.fieldValue bs name) := by
  unfold Factory.fieldValue
  induction as generalizing bs with
  | nil =>
    cases List.map_eq_nil_iff.1 keys.symm
    exact .null
  | cons a as ih =>
    obtain ⟨b, bs, rfl, hname, hkeys⟩ := List.map_eq_cons_iff.1 keys.symm
    cases values with
    | cons hvalue hvalues =>
      rw [Entries.get?, Entries.get?, hname]
      split
      · exact hvalue
      · exact ih hkeys.symm hvalues

end Value.Renamed

/-! ### What the relation leaves open

Nothing but the names: where the values agree, so do the documents. -/

mutual

theorem Json.Retagged.eq_of_eq {v w : Value} {j k : Json} :
    Json.Retagged v w j k → v = w → j = k
  | .same _ _, _ => rfl
  | .wrapped _ _ inner, h => by rw [inner.eq_of_eq h]
  | .list items, h => by rw [items.eq_of_eq (Value.list.inj h)]
  | .set items, h => by rw [items.eq_of_eq (Value.set.inj h)]
  | .array items, h => by rw [items.eq_of_eq (Value.array.inj h).2]
  | .map entries, h => by rw [entries.eq_of_eq (Value.map.inj h)]
  | .enumeration _ _ _, h => by rw [(Value.enumeration.inj h).1]
  | .object _ _ _ fields, h => by
    obtain ⟨hname, hfields⟩ := Value.object.inj h
    rw [hname, fields.eq_of_eq (by rw [hfields])]

theorem Json.AllRetagged.eq_of_eq {as bs : List Value} {js ks : List Json} :
    Json.AllRetagged as bs js ks → as = bs → js = ks
  | .nil, _ => rfl
  | .cons head tail, h => by
    rw [head.eq_of_eq (List.cons.inj h).1, tail.eq_of_eq (List.cons.inj h).2]

theorem Json.EntriesRetagged.eq_of_eq {as bs : List (Value × Value)} {js ks : List Json} :
    Json.EntriesRetagged as bs js ks → as = bs → js = ks
  | .nil, _ => rfl
  | .cons key value tail, h => by
    obtain ⟨hentry, hentries⟩ := List.cons.inj h
    rw [key.eq_of_eq (by rw [hentry]), value.eq_of_eq (by rw [hentry]), tail.eq_of_eq hentries]

end

/-! ### The relation of texts

Texts are related by what is read from them.  There is one lemma for each way in which a
marshaller composes a text, so that the walk through the encoder never looks into a text. -/

/-- The texts, written for two values, denote documents that differ in nothing but the names that
the values claim. -/
def Wire.Retagged (v w : Value) (s t : String) : Prop :=
  ∃ j k, Json.Written s j ∧ Json.Written t k ∧ Json.Retagged v w j k

/-- The texts are written for the values one by one. -/
def Wire.AllRetagged (as bs : List Value) (ss ts : List String) : Prop :=
  ∃ js ks, List.Forall₂ Json.Written ss js ∧ List.Forall₂ Json.Written ts ks ∧
    Json.AllRetagged as bs js ks

namespace Wire.Retagged

theorem refl {s : String} {j : Json} (h : Json.Written s j) (v : Value) : Retagged v v s s :=
  ⟨j, j, h, h, .same v j⟩

/-- A tag around the text of a value. -/
theorem wrapped {v w : Value} {tag s t : String} (h : Retagged v w s t)
    (hv : v.typeId? = some tag) (hw : w.typeId? = some tag) :
    Retagged v w (Wire.taggedText tag [(Wire.valueKey, s)])
      (Wire.taggedText tag [(Wire.valueKey, t)]) := by
  obtain ⟨j, k, hj, hk, hjk⟩ := h
  have hwritten {s : String} {j : Json} (hj : Json.Written s j) :
      Json.Written (Wire.taggedText tag [(Wire.valueKey, s)])
        (.object [(Wire.typeKey, .string tag), (Wire.valueKey, j)]) :=
    Json.written_object (.cons ⟨rfl, Json.written_quote tag⟩ (.cons ⟨rfl, hj⟩ .nil))
  exact ⟨_, _, hwritten hj, hwritten hk, .wrapped hv hw hjk⟩

theorem enumeration (a b variant : String) :
    Retagged (.enumeration a variant) (.enumeration b variant)
      (Wire.taggedText a [(Wire.constantKey, Json.quote variant)])
      (Wire.taggedText b [(Wire.constantKey, Json.quote variant)]) := by
  have hwritten (name : String) :
      Json.Written (Wire.taggedText name [(Wire.constantKey, Json.quote variant)])
        (.object [(Wire.typeKey, .string name), (Wire.constantKey, .string variant)]) :=
    Json.written_object (.cons ⟨rfl, Json.written_quote name⟩
      (.cons ⟨rfl, Json.written_quote variant⟩ .nil))
  exact ⟨_, _, hwritten a, hwritten b, .enumeration a b variant⟩

/-- The fields of two objects under the same names. -/
theorem object (a b : String) {as bs : List (String × Value)} (names : List String)
    {ss ts : List String} (h : Wire.AllRetagged (names.map (Factory.fieldValue as))
      (names.map (Factory.fieldValue bs)) ss ts) :
    Retagged (.object a as) (.object b bs) (Wire.taggedText a (names.zip ss))
      (Wire.taggedText b (names.zip ts)) := by
  obtain ⟨js, ks, hjs, hks, hjks⟩ := h
  have hwritten {type : String} {texts : List String} {docs : List Json}
      (hdocs : List.Forall₂ Json.Written texts docs) :
      Json.Written (Wire.taggedText type (names.zip texts))
        (.object ((Wire.typeKey, .string type) :: names.zip docs)) :=
    Json.written_object (.cons ⟨rfl, Json.written_quote type⟩ (Json.writtenMember_zip names hdocs))
  exact ⟨_, _, hwritten hjs, hwritten hks, .object a b names hjks⟩

end Wire.Retagged

namespace Factory

/-- Each name that may be claimed for another is the same one, or is bound to the same instance. -/
def Synonyms (f : Factory) (R : String → String → Prop) : Prop :=
  ∀ a b, R a b → a = b ∨ ∃ i, f.lookup a = some i ∧ f.lookup b = some i

/-- The marshaller of an object or enum type is bound to the name of the type. -/
def Anchored (f : Factory) : Prop :=
  ∀ id i, f.lookup id = some i → i.marshaller.isNominal = true →
    f.lookup i.marshaller.ownId = some i

/-- What is written for the first value is written for the second, up to the tags. -/
def Echoes (f : Factory) (v w : Value) (slot : Slot) : Prop :=
  ∀ s, f.encode v slot = .ok s → ∃ t, f.encode w slot = .ok t ∧ Wire.Retagged v w s t

variable {f : Factory}

/-! ### Comparing names

A claim is compared with the name of a type, or by the instance that both are bound to.  Synonyms
are bound to one instance, and so no comparison tells them apart. -/

/-- A claim is accepted for a type whatever its synonym, for the marshaller of the type handles
it. -/
theorem Synonyms.acceptsClaim (hR : f.Synonyms R) (hf : f.Anchored) {m : Marshaller}
    (hm : f.Offers (.through m)) (hnominal : m.isNominal = true)
    (hhandled : m.handled = .named m.ownId) {a b : String} (hab : R a b)
    (h : f.acceptsClaim m.ownId a = true) : f.acceptsClaim m.ownId b = true := by
  rcases hR a b hab with rfl | ⟨i, ha, hb⟩
  · exact h
  unfold Factory.acceptsClaim resolvesTo at h ⊢
  rw [ha] at h
  rw [hb]
  -- By name: the marshaller is bound somewhere, and as it carries a name, it is bound to this as
  -- well.  So the other claim is accepted by the type that the marshaller handles.
  rcases Bool.or_eq_true_iff.1 h with hname | hresolves
  · have hself : ∃ id j, f.lookup id = some j ∧ j.marshaller = m := by
      rcases hm with hbound | ⟨shape, rfl⟩
      · exact hbound
      · cases hnominal
    obtain ⟨id, j, hj, rfl⟩ := hself
    have hown := hf id j hj hnominal
    rw [← of_decide_eq_true hname, ha] at hown
    cases hown
    simp [hhandled]
  · rw [hresolves, Bool.or_true]

/-- The identifiers of the values' types are bound alike. -/
theorem Synonyms.exists_typeId (hR : f.Synonyms R) {v w : Value} (h : v.Renamed R w) {a : String}
    (ha : v.typeId? = some a) {i : Instance} (hi : f.lookup a = some i) :
    ∃ b, w.typeId? = some b ∧ f.lookup b = some i := by
  rcases h.typeId? with heq | ⟨a', b, ha', hb, hab⟩
  · exact ⟨a, heq.trans ha, hi⟩
  · cases ha.symm.trans ha'
    rcases hR a b hab with rfl | ⟨j, hj, hj'⟩
    · exact ⟨a, hb, hi⟩
    · cases hi.symm.trans hj
      exact ⟨b, hb, hj'⟩

theorem Synonyms.checkAssignable (hR : f.Synonyms R) {v w : Value} (h : v.Renamed R w)
    {declared owner : String} (hv : f.checkAssignable declared v owner = .ok ()) :
    f.checkAssignable declared w owner = .ok () := by
  unfold Factory.checkAssignable at hv ⊢
  cases ha : v.typeId? with
  | none =>
    have hnull : v = .null := Value.typeId?_eq_none_iff.1 ha
    subst hnull
    cases h
    rfl
  | some a =>
    rw [ha] at hv
    obtain ⟨expected, hexpected, hv⟩ := bind_eq_ok_iff.1 hv
    obtain ⟨found, hfound, hv⟩ := bind_eq_ok_iff.1 hv
    obtain ⟨b, hb, hlookup⟩ := hR.exists_typeId h ha ((f.require_eq_ok_iff _ _ _).1 hfound)
    rw [hb]
    refine bind_eq_ok_iff.2 ⟨expected, hexpected, bind_eq_ok_iff.2
      ⟨found, (f.require_eq_ok_iff _ _ _).2 hlookup, ?_⟩⟩
    split at hv
    · next heq => exact if_pos heq
    · cases hv

/-! ### Slots come down to marshallers

A tag is put around what is written for a value only if the marshaller does not tell the type.
Enums and objects do, so a tag of this kind is never one of the names that differ. -/

theorem typeId?_of_wrapped {v w : Value} (h : v.Renamed R w) {m : Marshaller}
    (hm : m.isForeign = false) (hself : m.isSelfDescribing = false) {s : String}
    (hs : f.encode v (.through m) = .ok s) : w.typeId? = v.typeId? := by
  cases h with
  | enumeration _ _ =>
    rw [encode] at hs
    cases m with
    | enumeration _ _ => cases hself
    | foreign _ => cases hm
    | _ => cases hs
  | object _ _ _ =>
    rw [encode_object] at hs
    cases m with
    | object _ _ => cases hself
    | foreign _ => cases hm
    | _ => cases hs
  | _ => rfl

theorem echoes_tagged (hR : f.Synonyms R) (husual : f.Usual) {v w : Value} (h : v.Renamed R w)
    (hthrough : ∀ id i, f.lookup id = some i → f.Echoes v w (.through i.marshaller)) :
    f.Echoes v w .tagged := by
  intro s hs
  rw [encode_tagged] at hs
  rw [encode_tagged]
  cases ha : v.typeId? with
  | none =>
    have hnull : v = .null := Value.typeId?_eq_none_iff.1 ha
    subst hnull
    cases h
    cases hs
    exact ⟨_, rfl, .refl Json.written_null _⟩
  | some a =>
    rw [ha] at hs
    obtain ⟨i, hi, hs⟩ := bind_eq_ok_iff.1 hs
    obtain ⟨plain, hplain, hs⟩ := bind_eq_ok_iff.1 hs
    cases hs
    have hlookup := (f.require_eq_ok_iff _ _ _).1 hi
    obtain ⟨b, hb, hbound⟩ := hR.exists_typeId h ha hlookup
    obtain ⟨plain', hplain', hretagged⟩ := hthrough a i hlookup plain hplain
    rw [hb]
    refine ⟨_, bind_eq_ok_iff.2 ⟨i, (f.require_eq_ok_iff _ _ _).2 hbound,
      bind_eq_ok_iff.2 ⟨plain', hplain', rfl⟩⟩, ?_⟩
    -- a marshaller that tells the type writes the tag itself, and otherwise both names are the same
    split
    · exact hretagged
    · next hself =>
      rw [Bool.not_eq_true] at hself
      have hsame := typeId?_of_wrapped h (husual a i hlookup).isForeign hself hplain
      cases hb.symm.trans (hsame.trans ha)
      exact hretagged.wrapped ha hb

theorem echoes_declared (hR : f.Synonyms R) (husual : f.Usual) {v w : Value} (h : v.Renamed R w)
    (hthrough : ∀ id i, f.lookup id = some i → f.Echoes v w (.through i.marshaller))
    (type : TypeRef) (owner : String) : f.Echoes v w (.declared type owner) := by
  intro s hs
  have htagged := echoes_tagged hR husual h hthrough
  rw [encode_declared] at hs
  rw [encode_declared, h.isNull]
  split at hs
  · next hnull =>
    rw [if_pos hnull]
    split at hs
    · next hnullable =>
      cases hs
      obtain rfl : v = .null := Value.isNull_iff.1 hnull
      cases h
      exact ⟨Wire.nullText, if_pos hnullable, .refl Json.written_null _⟩
    · cases hs
  · next hnull =>
    rw [if_neg hnull]
    cases type with
    -- a declared name checks the claim first, any other type looks its marshaller up
    | any => exact htagged s hs
    | named name =>
      obtain ⟨⟨⟩, hcheck, hs⟩ := bind_eq_ok_iff.1 hs
      obtain ⟨t, ht, hretagged⟩ := htagged s hs
      exact ⟨t, bind_eq_ok_iff.2 ⟨(), hR.checkAssignable h hcheck, ht⟩, hretagged⟩
    | _ =>
      obtain ⟨i, hi, hs⟩ := bind_eq_ok_iff.1 hs
      obtain ⟨t, ht, hretagged⟩ := hthrough _ i ((f.require_eq_ok_iff _ _ _).1 hi) s hs
      exact ⟨t, bind_eq_ok_iff.2 ⟨i, hi, ht⟩, hretagged⟩

theorem echoes_row {v w : Value} (h : v.Renamed R w)
    (hthrough : ∀ shape, f.Echoes v w (.through (.array shape))) (component : TypeRef)
    (dimensions : Nat) : f.Echoes v w (.row component dimensions) := by
  intro s hs
  rw [encode_row] at hs ⊢
  cases h with
  | null =>
    cases hs
    exact ⟨_, rfl, .refl Json.written_null _⟩
  | array _ _ => exact hthrough _ s hs
  | _ => cases hs

theorem echoes_of_through (hR : f.Synonyms R) (husual : f.Usual) {v w : Value} (h : v.Renamed R w)
    (hthrough : ∀ m, f.Offers (.through m) → f.Echoes v w (.through m)) {slot : Slot}
    (hslot : f.Offers slot) : f.Echoes v w slot := by
  have hbound : ∀ id i, f.lookup id = some i → f.Echoes v w (.through i.marshaller) :=
    fun id i hi => hthrough _ (.inl ⟨id, i, hi, rfl⟩)
  cases slot with
  | tagged => exact echoes_tagged hR husual h hbound
  | declared type owner => exact echoes_declared hR husual h hbound type owner
  | row component dimensions =>
    exact echoes_row h (fun shape => hthrough _ (.inr ⟨shape, rfl⟩)) component dimensions
  | through m => exact hthrough m hslot

/-! ### Through a marshaller

The parts have their slots by now.  What is left is one lemma for each constructor of values; a
marshaller that is not made for the constructor refuses both values. -/

/-- Parts that are written one by one are echoed one by one. -/
theorem exists_retagged {S : α → β → Prop} {P : α → String → Prop} {Q : β → String → Prop}
    (value : α → Value) (value' : β → Value) {as : List α} {bs : List β} {ss : List String}
    (h : List.Forall₂ S as bs)
    (hstep : ∀ a b s, S a b → P a s → ∃ t, Q b t ∧ Wire.Retagged (value a) (value' b) s t)
    (hss : List.Forall₂ P as ss) :
    ∃ ts, List.Forall₂ Q bs ts ∧ Wire.AllRetagged (as.map value) (bs.map value') ss ts := by
  induction h generalizing ss with
  | nil =>
    cases hss
    exact ⟨[], .nil, [], [], .nil, .nil, .nil⟩
  | cons hab _ ih =>
    cases hss with
    | cons ha hss =>
      obtain ⟨t, ht, j, k, hj, hk, hjk⟩ := hstep _ _ _ hab ha
      obtain ⟨ts, hts, js, ks, hjs, hks, hjks⟩ := ih hss
      exact ⟨t :: ts, .cons ht hts, j :: js, k :: ks, .cons hj hjs, .cons hk hks, .cons hjk hjks⟩

theorem echoes_items {as bs : List Value} {slot : Slot}
    (h : List.Forall₂ (fun a b => f.Echoes a b slot) as bs) {s : String}
    (hs : encodeItems slot (as.map f.encode) = .ok s) :
    ∃ t, encodeItems slot (bs.map f.encode) = .ok t ∧ ∃ js ks, Json.Written s (.array js) ∧
      Json.Written t (.array ks) ∧ Json.AllRetagged as bs js ks := by
  obtain ⟨ss, hss, rfl⟩ := encodeItems_eq_ok_iff.1 hs
  rw [List.forall₂_map_left_iff] at hss
  obtain ⟨ts, hts, js, ks, hjs, hks, hjks⟩ :=
    exists_retagged id id h (fun _ _ s hab => hab s) hss
  rw [List.map_id, List.map_id] at hjks
  exact ⟨_, encodeItems_eq_ok_iff.2 ⟨ts, List.forall₂_map_left_iff.2 hts, rfl⟩, js, ks,
    Json.written_array hjs, Json.written_array hks, hjks⟩

theorem exists_entriesRetagged {as bs : List (Value × Value)} {ss : List String}
    (h : List.Forall₂ (fun a b => f.Echoes a.1 b.1 .tagged ∧ f.Echoes a.2 b.2 .tagged) as bs)
    (hss : List.Forall₂ (fun a s => ∃ k v, f.encode a.1 .tagged = .ok k ∧
      f.encode a.2 .tagged = .ok v ∧ s = Json.arrayText [k, v]) as ss) :
    ∃ ts, List.Forall₂ (fun b t => ∃ k v, f.encode b.1 .tagged = .ok k ∧
        f.encode b.2 .tagged = .ok v ∧ t = Json.arrayText [k, v]) bs ts ∧
      ∃ js ks, List.Forall₂ Json.Written ss js ∧ List.Forall₂ Json.Written ts ks ∧
        Json.EntriesRetagged as bs js ks := by
  -- by induction on the entries; an entry is written as an array of two
  induction h generalizing ss with
  | nil =>
    cases hss
    exact ⟨[], .nil, [], [], .nil, .nil, .nil⟩
  | cons hab _ ih =>
    cases hss with
    | cons ha hss =>
      obtain ⟨key, value, hkey, hvalue, rfl⟩ := ha
      obtain ⟨key', hkey', j, k, hj, hk, hjk⟩ := hab.1 key hkey
      obtain ⟨value', hvalue', j', k', hj', hk', hjk'⟩ := hab.2 value hvalue
      obtain ⟨ts, hts, js, ks, hjs, hks, hjks⟩ := ih hss
      exact ⟨_, .cons ⟨key', value', hkey', hvalue', rfl⟩ hts, _, _,
        .cons (Json.written_array (.cons hj (.cons hj' .nil))) hjs,
        .cons (Json.written_array (.cons hk (.cons hk' .nil))) hks, .cons hjk hjk' hjks⟩

theorem echoes_entries {as bs : List (Value × Value)}
    (h : List.Forall₂ (fun a b => f.Echoes a.1 b.1 .tagged ∧ f.Echoes a.2 b.2 .tagged) as bs)
    {s : String} (hs : encodeEntries (as.map fun e => (f.encode e.1, f.encode e.2)) = .ok s) :
    ∃ t, encodeEntries (bs.map fun e => (f.encode e.1, f.encode e.2)) = .ok t ∧
      Wire.Retagged (.map as) (.map bs) s t := by
  obtain ⟨ss, hss, rfl⟩ := encodeEntries_eq_ok_iff.1 hs
  rw [List.forall₂_map_left_iff] at hss
  obtain ⟨ts, hts, js, ks, hjs, hks, hjks⟩ := exists_entriesRetagged h hss
  exact ⟨_, encodeEntries_eq_ok_iff.2 ⟨ts, List.forall₂_map_left_iff.2 hts, rfl⟩, _, _,
    Json.written_array hjs, Json.written_array hks, .map hjks⟩

theorem echoes_list {as bs : List Value}
    (h : List.Forall₂ (fun a b => f.Echoes a b .tagged) as bs) {m : Marshaller}
    (hm : m.isForeign = false) : f.Echoes (.list as) (.list bs) (.through m) := by
  intro s hs
  rw [encode_list] at hs ⊢
  cases m with
  | list =>
    obtain ⟨t, ht, js, ks, hj, hk, hjk⟩ := echoes_items h hs
    exact ⟨t, ht, _, _, hj, hk, .list hjk⟩
  | foreign _ => cases hm
  | _ => cases hs

theorem echoes_set {as bs : List Value}
    (h : List.Forall₂ (fun a b => f.Echoes a b .tagged) as bs) {m : Marshaller}
    (hm : m.isForeign = false) : f.Echoes (.set as) (.set bs) (.through m) := by
  intro s hs
  rw [encode_set] at hs ⊢
  cases m with
  | set =>
    obtain ⟨t, ht, js, ks, hj, hk, hjk⟩ := echoes_items h hs
    exact ⟨t, ht, _, _, hj, hk, .set hjk⟩
  | foreign _ => cases hm
  | _ => cases hs

theorem echoes_map {as bs : List (Value × Value)}
    (h : List.Forall₂ (fun a b => f.Echoes a.1 b.1 .tagged ∧ f.Echoes a.2 b.2 .tagged) as bs)
    {m : Marshaller} (hm : m.isForeign = false) :
    f.Echoes (.map as) (.map bs) (.through m) := by
  intro s hs
  rw [encode_map] at hs ⊢
  cases m with
  | map => exact echoes_entries h hs
  | foreign _ => cases hm
  | _ => cases hs

theorem echoes_array {signature : ArraySignature} {as bs : List Value}
    (h : ∀ slot, f.Offers slot → List.Forall₂ (fun a b => f.Echoes a b slot) as bs)
    {m : Marshaller} (hm : m.isForeign = false) :
    f.Echoes (.array signature as) (.array signature bs) (.through m) := by
  intro s hs
  rw [encode_array] at hs ⊢
  cases m with
  | array shape =>
    obtain ⟨hshape, hs⟩ := encodeRows_eq_ok_iff.1 hs
    obtain ⟨t, ht, js, ks, hj, hk, hjk⟩ := echoes_items (h _ (f.offers_element _ _ _)) hs
    exact ⟨t, encodeRows_eq_ok_iff.2 ⟨hshape, ht⟩, _, _, hj, hk, .array hjk⟩
  | foreign _ => cases hm
  | _ => cases hs

theorem echoes_enumeration (hR : f.Synonyms R) (hf : f.Anchored) {a b : String} (hab : R a b)
    (variant : String) {m : Marshaller} (hoffered : f.Offers (.through m))
    (hm : m.isForeign = false) :
    f.Echoes (.enumeration a variant) (.enumeration b variant) (.through m) := by
  intro s hs
  rw [encode] at hs ⊢
  -- only the marshaller of an enum writes one
  cases m with
  | enumeration type variants =>
    change f.encodeConstant type variants a variant = _ at hs
    obtain ⟨hclaim, hs⟩ := guard_eq_ok_iff.1 hs
    split at hs
    · next hvariant =>
      cases hs
      rw [Bool.not_eq_true', Bool.not_eq_false] at hclaim
      have hclaim' := hR.acceptsClaim hf hoffered rfl rfl hab hclaim
      refine ⟨Wire.taggedText b [(Wire.constantKey, Json.quote variant)], ?_,
        .enumeration a b variant⟩
      show f.encodeConstant type variants b variant = _
      rw [encodeConstant, show f.acceptsClaim type b = true from hclaim']
      exact if_pos hvariant
    · cases hs
  | foreign _ => cases hm
  | _ => cases hs

theorem echoes_object (hR : f.Synonyms R) (hf : f.Anchored) {a b : String} (hab : R a b)
    {as bs : List (String × Value)} (hkeys : as.map (·.1) = bs.map (·.1))
    (hfields : ∀ name slot, f.Offers slot →
      f.Echoes (fieldValue as name) (fieldValue bs name) slot)
    {m : Marshaller} (hoffered : f.Offers (.through m)) (hm : m.isForeign = false) :
    f.Echoes (.object a as) (.object b bs) (.through m) := by
  intro s hs
  cases m with
  | object type declared =>
    obtain ⟨hclaim, hknown, ss, hss, rfl⟩ := f.encode_object_eq_ok_iff.1 hs
    have hclaim' := hR.acceptsClaim hf hoffered rfl rfl hab hclaim
    -- whether a field is declared is asked of its name alone
    have hknown' : ∀ e ∈ bs, ∃ field ∈ declared, field.name = e.1 := by
      rw [← List.forall_mem_map (f := Prod.fst)
        (P := fun name => ∃ field ∈ declared, field.name = name)] at hknown ⊢
      rwa [← hkeys]
    have hsame : List.Forall₂ Eq (declared.filter (·.readable)) (declared.filter (·.readable)) :=
      List.forall₂_same.2 fun _ _ => rfl
    obtain ⟨ts, hts, hretagged⟩ := exists_retagged (Q := f.WritesField type bs)
      (fun field => fieldValue as field.name) (fun field => fieldValue bs field.name) hsame
      (fun field _ s heq ht => by
        cases heq
        exact hfields field.name (.declared field.declared s!"{type}.{field.name}") trivial s ht)
      hss
    refine ⟨_, f.encode_object_eq_ok_iff.2 ⟨hclaim', hknown', ts, hts, rfl⟩, .object a b _ ?_⟩
    rwa [List.map_map, List.map_map]
  | foreign _ => cases hm
  | scalar _ | string | list | set | map | enumeration _ _ | array _ =>
    rw [encode_object] at hs
    cases hs

/-! ### The induction

It is on the first value, for the second and the slot at once: the parts of a pair of values are
pairs again, and a part is asked for in whatever slot its place says.  Each case says what every
marshaller of the factory does, which `echoes_of_through` takes to all slots. -/

theorem echoes_self (husual : f.Usual) (v : Value) {slot : Slot} (hslot : f.Offers slot) :
    f.Echoes v v slot := by
  intro s hs
  have husualSlot : slot.Usual := by
    cases slot with
    | tagged | declared _ _ | row _ _ => trivial
    | through m => exact husual.of_offers hslot
  obtain ⟨j, hj, -⟩ := denoted husual v slot husualSlot s hs
  exact ⟨s, hs, .refl hj v⟩

/-- By induction on the value, in every slot that the factory offers. -/
theorem echoed (hR : f.Synonyms R) (hf : f.Anchored) (husual : f.Usual) {v w : Value}
    (h : v.Renamed R w) {slot : Slot} (hslot : f.Offers slot) : f.Echoes v w slot := by
  have hforeign : ∀ m, f.Offers (.through m) → m.isForeign = false :=
    fun m hm => (husual.of_offers hm).isForeign
  have htagged : f.Offers .tagged := trivial
  induction v using Value.induction generalizing w slot with
  -- these name no type that could be renamed
  | null | scalar _ | string _ =>
    cases h
    exact echoes_self husual _ hslot
  | enumeration a variant =>
    cases h with
    | enumeration hab _ =>
      exact echoes_of_through hR husual (.enumeration hab variant)
        (fun m hm => echoes_enumeration hR hf hab variant hm (hforeign m hm)) hslot
  | list as ih =>
    cases h with
    | list h =>
      have hitems := forall₂_imp_of_mem h fun a ha b hab => ih a ha hab htagged
      exact echoes_of_through hR husual (.list h)
        (fun m hm => echoes_list hitems (hforeign m hm)) hslot
  | set as ih =>
    cases h with
    | set h =>
      have hitems := forall₂_imp_of_mem h fun a ha b hab => ih a ha hab htagged
      exact echoes_of_through hR husual (.set h)
        (fun m hm => echoes_set hitems (hforeign m hm)) hslot
  | array signature as ih =>
    cases h with
    | array _ h =>
      exact echoes_of_through hR husual (.array signature h) (fun m hm => echoes_array
        (fun slot hslot => forall₂_imp_of_mem h fun a ha b hab => ih a ha hab hslot)
        (hforeign m hm)) hslot
  | map as ih =>
    cases h with
    | @map _ bs keys values =>
      have hentries : List.Forall₂ (fun a b : Value × Value => f.Echoes a.1 b.1 .tagged ∧
          f.Echoes a.2 b.2 .tagged) as bs := by
        rw [List.forall₂_map_left_iff, List.forall₂_map_right_iff] at keys values
        -- keys and values are related one by one, and so are the entries
        have hboth := keys.mp (fun _ _ hk hv => And.intro hk hv) values
        exact forall₂_imp_of_mem hboth fun a ha b hab =>
          ⟨(ih a ha).1 hab.1 trivial, (ih a ha).2 hab.2 trivial⟩
      exact echoes_of_through hR husual (.map keys values)
        (fun m hm => echoes_map hentries (hforeign m hm)) hslot
  | object a as ih =>
    cases h with
    | object hab keys values =>
      -- a field that is missing in one object is missing in the other, and both are written null
      have hvalue := fieldValue_of_forall
        (p := fun v => ∀ {w}, v.Renamed R w → ∀ {slot}, f.Offers slot → f.Echoes v w slot)
        (fun h slot hslot => by
          cases h
          exact echoes_self husual _ hslot) ih
      refine echoes_of_through hR husual (.object hab keys values)
        (fun m hm => echoes_object hR hf hab keys ?_ hm (hforeign m hm)) hslot
      exact fun name slot hslot => hvalue name (.fieldValue keys values name) hslot

end Factory

namespace Generator

open Factory

variable {g : Generator} {d : Catalog} {package className : String} {f : Factory}

/-- Where only built-in classes are named, no class stands for an object or enum, so their
marshallers are those of types and are bound to the names of these. -/
theorem anchored_of_factory (hover : g.Over d)
    (hclasses : ∀ t ∈ d.types, ∀ name, t.className = some name →
      Providers.builtin.contains name = true)
    (hf : g.factory package className = .ok f) : f.Anchored := by
  intro id i hi hnominal
  obtain ⟨p, hplan, hf⟩ := bind_eq_ok_iff.1 hf
  obtain ⟨m, hm, -, hmakes⟩ := (lookup_iff hf id i).1 hi
  have hmarshaller := hmakes.marshaller
  have hstrategy : m.strategy.nominal? = some i.marshaller.ownId := by
    -- Of the four strategies those of objects and enums name the type.  A class could make such a
    -- marshaller too, but none of the library's does.
    cases hs : m.strategy with
    | array s =>
      rw [hs] at hmarshaller
      rw [← Except.ok.inj hmarshaller] at hnominal
      cases hnominal
    | explicit name type =>
      rw [hs] at hmarshaller
      rcases drawn_of_plan hplan m hm with ⟨s, hs'⟩ | ⟨t, ht, hdrawn⟩
      · cases hs.symm.trans hs'
      · rw [hs] at hdrawn
        have hstands := ExposedType.stands_of_strategy? hdrawn hmarshaller
        -- only the marshaller itself matters for what the type asks for
        generalize i.marshaller = made at hstands hnominal
        cases hstands with
        | ofClass declared created =>
          have hbasic := hover.create_basic (hover.classes hclasses t ht _ declared) created
          rw [hbasic.isNominal] at hnominal
          cases hnominal
        | object plain shape | enumeration plain shape =>
          simp [ExposedType.strategy?, plain, shape] at hdrawn
        | array plain shape spelled =>
          simp [ExposedType.strategy?, plain, shape, spelled] at hdrawn
    | enumeration _ _ | reflective _ _ =>
      rw [hs] at hmarshaller
      rw [← Except.ok.inj hmarshaller]
      rfl
  exact (lookup_iff hf _ i).2 ⟨m, hm, anchored_of_plan hplan hm hstrategy, hmakes⟩

/-- Replacing names that objects and enums claim by synonyms neither makes nor breaks an encoding,
and changes nothing in what is written but the tags of these objects and enums, each of which is
the name that the value claims there. -/
theorem marshalAs_renamed (hover : g.Over d)
    (hclasses : ∀ t ∈ d.types, ∀ name, t.className = some name →
      Providers.builtin.contains name = true)
    (hf : g.factory package className = .ok f) {R : String → String → Prop}
    (hR : ∀ a b, R a b → a = b ∨ ∃ i, f.lookup a = some i ∧ f.lookup b = some i) (type : TypeRef)
    {v w : Value} (h : v.Renamed R w) :
    ((∃ s, f.marshalAs type v = .ok s) ↔ ∃ t, f.marshalAs type w = .ok t) ∧
    ∀ s t, f.marshalAs type v = .ok s → f.marshalAs type w = .ok t →
      ∃ j k, Json.Retagged v w j k ∧ (Json.nesting s ≤ Json.nestingLimit → Wire.parse s = .ok j) ∧
        (Json.nesting t ≤ Json.nestingLimit → Wire.parse t = .ok k) := by
  have hanchored := anchored_of_factory hover hclasses hf
  have husual := usual_of_factory hover hclasses hf
  have hslot : f.Offers (.declared type type.id) := trivial
  have hflip : f.Synonyms (flip R) := by
    intro b a hab
    exact (hR a b hab).imp Eq.symm fun ⟨i, ha, hb⟩ => ⟨i, hb, ha⟩
  -- synonyms are symmetric, so one direction of the equivalence is enough to prove
  have hechoes := echoed hR hanchored husual h hslot
  refine ⟨⟨?_, ?_⟩, ?_⟩
  · rintro ⟨s, hs⟩
    obtain ⟨t, ht, -⟩ := hechoes s hs
    exact ⟨t, ht⟩
  · rintro ⟨t, ht⟩
    obtain ⟨s, hs, -⟩ := echoed hflip hanchored husual h.symm hslot t ht
    exact ⟨s, hs⟩
  · intro s t hs ht
    obtain ⟨t', ht', j, k, hj, hk, hjk⟩ := hechoes s hs
    cases ht.symm.trans ht'
    have hparse {s : String} {j : Json} (hj : Json.Written s j)
        (hlimit : Json.nesting s ≤ Json.nestingLimit) : Wire.parse s = .ok j := by
      rw [Wire.parse, hj.parse? hlimit]
    exact ⟨j, k, hjk, hparse hj, hparse hk⟩

/-- A knot, under any of its names, in a row of knots of another. -/
def namedKnot (outer inner : String) : Value :=
  .object outer [("ends", .array ⟨.named "Knot", 2⟩
    [.array ⟨.named "Knot", 1⟩ [.object inner [], .null], .null])]

theorem namedKnots_written : (factoryOver knots).toOption.any (fun f =>
    (f.lookup "Knot").isSome &&
      decide ((f.lookup "Loop").map (·.variableName) = (f.lookup "Knot").map (·.variableName)) &&
      [namedKnot "Knot" "Loop", namedKnot "Loop" "Knot"].all fun v =>
        (f.marshalAs (.named "Loop") v).toOption.any
          fun s => decide (Json.nesting s ≤ Json.nestingLimit)) = true := by
  decide +kernel

/-- The outer knot and the inner one exchange their names. -/
theorem marshalAs_renamed_knot : ∃ c f s t j k,
    (⟨c, Providers.builtin⟩ : Generator).factory "demo" "Factory" = .ok f ∧
    f.marshalAs (.named "Loop") (namedKnot "Knot" "Loop") = .ok s ∧ Wire.parse s = .ok j ∧
    f.marshalAs (.named "Loop") (namedKnot "Loop" "Knot") = .ok t ∧ Wire.parse t = .ok k ∧
    Json.Retagged (namedKnot "Knot" "Loop") (namedKnot "Loop" "Knot") j k := by
  obtain ⟨f, hf, hwritten⟩ := (Option.any_eq_true _ _).1 namedKnots_written
  obtain ⟨c, hstandard, hf⟩ :=
    standard_of_factoryOver parse_knotDocument (toOption_eq_some_iff.1 hf)
  simp only [Bool.and_eq_true, Option.isSome_iff_exists, List.all_cons, List.all_nil,
    Option.any_eq_true, toOption_eq_some_iff, decide_eq_true_eq, and_true] at hwritten
  obtain ⟨⟨⟨i, hi⟩, hsame⟩, ⟨s, hs, hlimit⟩, t, ht, hlimit'⟩ := hwritten
  rw [hi, Option.map_some, Option.map_eq_some_iff] at hsame
  obtain ⟨i', hi', hsame⟩ := hsame
  cases (generated_of_factory hstandard.spelled hf).identified _ _ _ _ hi' hi hsame
  have hrenamed : (namedKnot "Knot" "Loop").Renamed
      (fun a b => a = "Knot" ∧ b = "Loop" ∨ a = "Loop" ∧ b = "Knot") (namedKnot "Loop" "Knot") :=
    .object (.inl ⟨rfl, rfl⟩) rfl (.cons (.array _ (.cons (.array _ (.cons
      (.object (.inr ⟨rfl, rfl⟩) rfl .nil) (.cons .null .nil))) (.cons .null .nil))) .nil)
  obtain ⟨-, hdocuments⟩ := marshalAs_renamed hstandard.over (by simp [knots]) hf
    (by rintro _ _ (⟨rfl, rfl⟩ | ⟨rfl, rfl⟩)
        · exact .inr ⟨i, hi, hi'⟩
        · exact .inr ⟨i, hi', hi⟩) (.named "Loop") hrenamed
  obtain ⟨j, k, hjk, hj, hk⟩ := hdocuments s t hs ht
  exact ⟨c, f, s, t, j, k, hf, hs, hj hlimit, ht, hk hlimit', hjk⟩

end Generator
end TaggedWire
