import TaggedWire.Proofs.Factory.Coherent
import TaggedWire.Proofs.Factory.Readings

/-!
# Claims of what was read

An object or enum claims a type, and a marshaller accepts the claim if the factory has a marshaller
for the claimed type that handles its own type.  The marshaller of an array handles the type of its
components, so a document may claim an array where it stands for a component.  Such a value is
read, but cannot be written again; every other value that is read can.

* `rewrites`: what was read in any slot can be written there exactly if it is truthful.
* `readAsClaimed_of_truthful`: of a truthful value every object and enum was read by the instance
  that it claims.
* `marshalAs_iff`: what was read as a type can be written as that type exactly if all objects and
  enums in it claim types of objects and enums.
-/

namespace TaggedWire

/-- The type that an object or enum claims. -/
def Value.claim? : Value → Option String
  | .object claimed _ | .enumeration claimed _ => some claimed
  | .null | .scalar _ | .string _ | .list _ | .set _ | .map _ | .array _ _ => none

theorem Value.typeId?_of_claim? {v : Value} {claimed : String} (h : v.claim? = some claimed) :
    v.typeId? = some claimed := by
  cases v with
  | object _ _ | enumeration _ _ => exact h
  | _ => cases h

theorem ArraySignature.of_eq {s : ArraySignature} (h : s.type.Flat) :
    ArraySignature.of s.component s.dimensions = s := by
  obtain ⟨component, dimensions⟩ := s
  obtain ⟨hdimensions, hcomponent⟩ := h
  have hmax : max dimensions 1 = dimensions := Nat.max_eq_left hdimensions
  cases component with
  | array _ _ => cases hcomponent
  | _ => simp only [ArraySignature.of, hmax]

namespace Factory

/-- What the value claims, if it is an object or enum, is bound to a marshaller of these. -/
def Vouches (f : Factory) (v : Value) : Prop :=
  ∀ claimed, v.claim? = some claimed →
    ∃ i, f.lookup claimed = some i ∧ i.marshaller.isNominal = true

/-- All objects and enums in the value claim types of objects and enums. -/
def Truthful (f : Factory) (v : Value) : Prop := v.Throughout f.Vouches

/-- The value can be written in the slot. -/
def Writes (f : Factory) (v : Value) (slot : Slot) : Prop := ∃ s, f.encode v slot = .ok s

variable {f : Factory}

theorem Reads.isNull {j : Json} {m : Marshaller} {v : Value} (h : f.Reads j m v) :
    v.isNull = j.isNull := by
  cases h with
  | scalar read => exact (Scalar.isNull_of_readScalar read).symm
  | enumeration isNull => exact isNull.symm
  | null | string | list | set | map | object | array => rfl

/-- An object or enum claims a type that its marshaller accepts. -/
theorem Reads.exists_claim {j : Json} {m : Marshaller} {v : Value} (h : f.Reads j m v)
    (hm : m.isNominal = true) (hnull : v.isNull = false) :
    ∃ claimed, v.claim? = some claimed ∧ f.acceptsClaim m.ownId claimed = true := by
  cases h with
  | null => cases hnull
  | enumeration _ accepted => exact ⟨_, rfl, accepted⟩
  | object accepted => exact ⟨_, rfl, accepted⟩
  | scalar | string | list | set | map | array => cases hm

/-- Nothing else claims a type. -/
theorem Reads.accepts_claim {j : Json} {m : Marshaller} {v : Value} (h : f.Reads j m v)
    {claimed : String} (hclaim : v.claim? = some claimed) :
    m.isNominal = true ∧ f.acceptsClaim m.ownId claimed = true := by
  cases h with
  | enumeration _ accepted | object accepted =>
    cases hclaim
    exact ⟨rfl, accepted⟩
  | null | scalar | string | list | set | map | array => cases hclaim

/-- Without a tag an object or enum claims the type of its marshaller. -/
theorem Reads.claim?_of_untagged {j : Json} {m : Marshaller} {v : Value} (h : f.Reads j m v)
    (hm : m.isNominal = true) (hnull : v.isNull = false) (huntagged : Wire.isTagged j = false) :
    v.claim? = some m.ownId := by
  cases h with
  | null => cases hnull
  | enumeration _ _ untagged => exact congrArg some (untagged huntagged)
  | object _ untagged => exact congrArg some (untagged huntagged)
  | scalar | string | list | set | map | array => cases hm

/-- Any other value claims nothing and has the type of its marshaller. -/
theorem Reads.typeId? {j : Json} (hj : j.Finite) {m : Marshaller} {v : Value}
    (h : f.Reads j m v) (hfitted : f.Fitted m) (hm : m.isNominal = false) :
    v.claim? = none ∧ (v.isNull = false → v.typeId? = some m.ownId) := by
  cases h with
  | null => exact ⟨rfl, fun h => nomatch h⟩
  | scalar read =>
    obtain ⟨rfl, -⟩ := Scalar.exists_text_of_read hj read
    exact ⟨rfl, fun _ => rfl⟩
  | string | list | set | map => exact ⟨rfl, fun _ => rfl⟩
  | array read =>
    refine ⟨rfl, ?_⟩
    intro _
    rw [ArraySignature.of_eq hfitted.1]
    rfl
  | enumeration | object => cases hm

/-! ### Writing part by part

A value is written by a marshaller if its parts are written in their slots.  For scalars, strings
and enums nothing remains to be shown. -/

theorem writes_items {vs : List Value} {slot : Slot} :
    (∃ s, encodeItems slot (vs.map f.encode) = .ok s) ↔ ∀ v ∈ vs, f.Writes v slot := by
  simp only [encodeItems_eq_ok_iff, List.forall₂_map_left_iff]
  constructor
  · rintro ⟨_, texts, htexts, -⟩ v hv
    obtain ⟨t, -, ht⟩ := exists_of_forall₂ htexts v hv
    exact ⟨t, ht⟩
  · intro h
    obtain ⟨texts, htexts⟩ := exists_forall₂ h
    exact ⟨_, texts, htexts, rfl⟩

theorem writes_list {vs : List Value} :
    f.Writes (.list vs) (.through .list) ↔ ∀ v ∈ vs, f.Writes v .tagged := by
  rw [Writes, encode_list]
  exact writes_items

theorem writes_set {vs : List Value} :
    f.Writes (.set vs) (.through .set) ↔ ∀ v ∈ vs, f.Writes v .tagged := by
  rw [Writes, encode_set]
  exact writes_items

theorem writes_array {component : TypeRef} {dimensions : Nat} {vs : List Value} :
    f.Writes (.array (.of component dimensions) vs) (.through (.array ⟨component, dimensions⟩)) ↔
      ∀ v ∈ vs, f.Writes v
        (.element component dimensions (ArraySignature.of component dimensions).id) := by
  rw [Writes, encode_array, ← writes_items]
  exact exists_congr fun s => (encodeRows_eq_ok_iff).trans (and_iff_right rfl)

theorem writes_map {entries : List (Value × Value)} :
    f.Writes (.map entries) (.through .map) ↔
      ∀ e ∈ entries, f.Writes e.1 .tagged ∧ f.Writes e.2 .tagged := by
  have hencode : f.encode (.map entries) (.through .map) =
      encodeEntries (entries.map fun e => (f.encode e.1, f.encode e.2)) := by
    rw [encode_map]
    rfl
  simp only [Writes, hencode, encodeEntries_eq_ok_iff, List.forall₂_map_left_iff]
  -- the text of an entry is the text of the pair, and there is one exactly if both parts have one
  constructor
  · rintro ⟨_, texts, htexts, -⟩ e he
    obtain ⟨t, -, k, v, hk, hv, -⟩ := exists_of_forall₂ htexts e he
    exact ⟨⟨k, hk⟩, v, hv⟩
  · intro h
    have hpairs : ∀ e ∈ entries, ∃ t k v, f.encode e.1 .tagged = .ok k ∧
        f.encode e.2 .tagged = .ok v ∧ t = Json.arrayText [k, v] := by
      intro e he
      obtain ⟨⟨k, hk⟩, v, hv⟩ := h e he
      exact ⟨_, k, v, hk, hv, rfl⟩
    obtain ⟨texts, htexts⟩ := exists_forall₂ hpairs
    exact ⟨_, texts, htexts, rfl⟩

/-- An object whose claim is accepted and whose fields are declared is written if its fields are. -/
theorem writes_object {type claimed : String} {declared : List Field}
    {fields : List (String × Value)} (haccepts : f.acceptsClaim type claimed = true)
    (hknown : ∀ e ∈ fields, ∃ field ∈ declared, field.name = e.1) :
    f.Writes (.object claimed fields) (.through (.object type declared)) ↔
      ∀ field ∈ declared.filter (·.readable), f.Writes (fieldValue fields field.name)
        (.declared field.declared s!"{type}.{field.name}") := by
  simp only [Writes, encode_object_eq_ok_iff]
  constructor
  · rintro ⟨_, -, -, texts, htexts, -⟩ field hfield
    obtain ⟨t, -, ht⟩ := exists_of_forall₂ htexts field hfield
    exact ⟨t, ht⟩
  · intro h
    obtain ⟨texts, htexts⟩ := exists_forall₂ h
    exact ⟨_, haccepts, hknown, texts, htexts, rfl⟩

theorem writes_enumeration {type claimed variant : String} {variants : List String}
    (haccepts : f.acceptsClaim type claimed = true) (hmem : variant ∈ variants) :
    f.Writes (.enumeration claimed variant) (.through (.enumeration type variants)) := by
  refine ⟨Wire.taggedText claimed [(Wire.constantKey, Json.quote variant)], ?_⟩
  rw [encode]
  show f.encodeConstant type variants claimed variant = _
  rw [encodeConstant, haccepts]
  exact if_pos hmem

theorem writes_scalar {x : Scalar} (h : ∃ t, x.text = .ok t) :
    f.Writes (.scalar x) (.through (.scalar x.primitive)) := by
  obtain ⟨t, ht⟩ := h
  refine ⟨t, ?_⟩
  rw [encode]
  exact (if_pos rfl).trans ht

theorem writes_string (s : String) : f.Writes (.string s) (.through .string) :=
  ⟨Json.quote s, by rw [encode]; rfl⟩

theorem writes_null {slot : Slot} (h : ∀ type owner, slot = .declared type owner →
    type.isNullable = true) : f.Writes .null slot := by
  refine ⟨Wire.nullText, ?_⟩
  rw [encode]
  cases slot with
  | tagged | row _ _ => rfl
  | through m => cases m <;> rfl
  | declared type owner => exact if_pos (h type owner rfl)

/-- Under its own type a value is written if the marshaller of that type writes it. -/
theorem writes_tagged {v : Value} {id : String} {i : Instance} (hid : v.typeId? = some id)
    (hi : f.lookup id = some i) : f.Writes v .tagged ↔ f.Writes v (.through i.marshaller) := by
  simp only [Writes, encode_tagged, hid, bind_eq_ok_iff, f.require_eq_ok_iff, hi]
  constructor
  · rintro ⟨_, _, hsame, plain, hplain, -⟩
    cases hsame
    exact ⟨plain, hplain⟩
  · rintro ⟨plain, hplain⟩
    exact ⟨_, i, rfl, plain, hplain, rfl⟩

/-! ### What was read is written again

`Rewrites` is what the induction over documents carries: whatever is read from the document, in any
slot, can be written in this slot exactly if it is truthful.  The cases follow the slots and, within
a marshaller, the readings. -/

/-- Whatever is read from the document is written again exactly if it is truthful.  Of a value that
goes to a given marshaller only the parts count, for nobody asks what it claims. -/
structure Rewrites (f : Factory) (j : Json) : Prop where
  through : ∀ m v, f.Fitted m → f.Reads j m v →
    (f.Writes v (.through m) ↔ v.PartsThroughout f.Vouches)
  tagged : ∀ v, f.decode j .tagged = .ok v → (f.Writes v .tagged ↔ f.Truthful v)
  declared : ∀ type owner v, f.Admits type → f.decode j (.declared type owner) = .ok v →
    (f.Writes v (.declared type owner) ↔ f.Truthful v)
  row : ∀ component dimensions v, (TypeRef.array component dimensions).Flat → f.Admits component →
    f.decode j (.row component dimensions) = .ok v →
    (f.Writes v (.row component dimensions) ↔ f.Truthful v)

theorem truthful_iff_of_claim? {v : Value} (h : v.claim? = none) :
    f.Truthful v ↔ v.PartsThroughout f.Vouches := by
  refine Value.throughout_iff.trans (and_iff_right fun claimed hclaimed => ?_)
  rw [h] at hclaimed
  cases hclaimed

theorem truthful_null : f.Truthful .null := (truthful_iff_of_claim? rfl).2 trivial

/-- Whoever handles a named type is an array of it, or the marshaller of the type itself. -/
theorem Coherent.lookup_of_acceptsClaim (hf : f.Coherent) {id : String} {i : Instance}
    (hi : f.lookup id = some i) {claimed : String}
    (haccepts : f.acceptsClaim i.marshaller.ownId claimed = true) :
    f.lookup claimed = some i ∨ ∃ i' s, f.lookup claimed = some i' ∧ i'.marshaller = .array s := by
  have hown := hf.own id i hi
  rw [acceptsClaim, Bool.or_eq_true, decide_eq_true_eq] at haccepts
  -- accepted by name, or because the claimed type is the one this marshaller handles
  rcases haccepts with rfl | hresolves
  · exact .inl hown
  obtain ⟨i', hi', hhandled⟩ := (Option.any_eq_true _ _).1 hresolves
  have hhandled := of_decide_eq_true hhandled
  have hown' := hf.own _ i' hi'
  have hfitted' := hf.fitted _ i' hi'
  cases hm : i'.marshaller with
  | array s => exact .inr ⟨i', s, hi', hm⟩
  | enumeration type _ | object type _ =>
    -- the claimed type is the marshaller's own, under its name or an alias
    rw [hm] at hhandled hown'
    cases hhandled
    have hsame : some i = some i' := hown.symm.trans hown'
    exact .inl (hsame ▸ hi')
  | foreign _ =>
    rw [hm] at hfitted'
    exact hfitted'.elim
  | scalar _ | string | list | set | map =>
    rw [hm] at hhandled
    cases hhandled

/-- A value that a bound marshaller has read is written under its own type if it is truthful. -/
theorem writes_tagged_iff (hf : f.Coherent) {j : Json} (hj : j.Finite) {id : String} {i : Instance}
    (hi : f.lookup id = some i) {v : Value} (hreads : f.Reads j i.marshaller v)
    (hthrough : f.Writes v (.through i.marshaller) ↔
      v.PartsThroughout f.Vouches) : f.Writes v .tagged ↔ f.Truthful v := by
  cases hnull : v.isNull with
  | true =>
    cases v with
    | null => exact iff_of_true (writes_null nofun) truthful_null
    | _ => cases hnull
  | false =>
    cases hnominal : i.marshaller.isNominal with
    | false =>
      -- not an object or enum: nothing is claimed, and the value goes by the type of its marshaller
      obtain ⟨hclaim, hid⟩ := hreads.typeId? hj (hf.fitted id i hi) hnominal
      rw [writes_tagged (hid hnull) (hf.own id i hi), hthrough, truthful_iff_of_claim? hclaim]
    | true =>
      -- an object or enum may claim the identifier of another marshaller, an array's for one
      obtain ⟨claimed, hclaim, haccepts⟩ := hreads.exists_claim hnominal hnull
      have hid := Value.typeId?_of_claim? hclaim
      rcases hf.lookup_of_acceptsClaim hi haccepts with hlookup | ⟨i', s, hlookup, harray⟩
      · have hvouches : f.Vouches v := by
          intro claimed' hclaim'
          rw [hclaim] at hclaim'
          cases hclaim'
          exact ⟨i, hlookup, hnominal⟩
        rw [writes_tagged hid hlookup, hthrough]
        exact (Value.throughout_iff.trans (and_iff_right hvouches)).symm
      · -- the array's marshaller writes neither objects nor enums, and vouches for none
        have hunwritten : ¬f.Writes v (.through i'.marshaller) := by
          rw [harray]
          rintro ⟨t, ht⟩
          rw [encode_eq] at ht
          cases v with
          | object _ _ | enumeration _ _ => cases ht
          | _ => cases hclaim
        have hfalse : ¬f.Truthful v := by
          intro h
          obtain ⟨i'', hlookup', hnominal'⟩ := (Value.throughout_iff.1 h).1 claimed hclaim
          rw [hlookup] at hlookup'
          cases hlookup'
          rw [harray] at hnominal'
          cases hnominal'
        rw [writes_tagged hid hlookup]
        exact iff_of_false hunwritten hfalse

/-- What was read for a field is written in the field. -/
theorem writes_field_iff {type : String} {members : List (String × Json)}
    (hmembers : ∀ m ∈ members, f.Rewrites m.2) {field : Field} (hadmits : f.Admits field.declared)
    {w : Value} (hread : f.readField type members field = .ok w) :
    f.Writes w (.declared field.declared s!"{type}.{field.name}") ↔ f.Truthful w := by
  unfold readField at hread
  split at hread
  · next j hfind =>
    obtain ⟨m, hmem, rfl⟩ := Json.mem_of_find? hfind
    exact (hmembers m hmem).declared _ _ w hadmits hread
  · unfold decodeNull at hread
    split at hread
    · next hnullable =>
      cases hread
      refine iff_of_true (writes_null fun _ _ h => ?_) truthful_null
      cases h
      exact hnullable
    · cases hread

/-- Of an object, the fields that were read are written. -/
theorem writes_fields_iff {type claimed : String} {declared : List Field}
    {members : List (String × Json)} {ws : List Value} (hfitted : f.Fitted (.object type declared))
    (hmembers : ∀ m ∈ members, f.Rewrites m.2) (haccepts : f.acceptsClaim type claimed = true)
    (hread : List.Forall₂ (fun field w => f.readField type members field = .ok w)
      (declared.filter (·.writable)) ws) {fields : List (String × Value)}
    (hentries : fields =
      (Table.ofList (((declared.filter (·.writable)).map (·.name)).zip ws)).entries) :
    f.Writes (.object claimed fields) (.through (.object type declared)) ↔
      ∀ e ∈ fields, f.Truthful e.2 := by
  obtain ⟨hnodup, hfields⟩ := hfitted
  -- every declared field is read and written, so the fields read are the fields asked for again
  have hwritable : declared.filter (·.writable) = declared :=
    List.filter_eq_self.2 fun field hfield => (hfields field hfield).2.1
  have hreadable : declared.filter (·.readable) = declared :=
    List.filter_eq_self.2 fun field hfield => (hfields field hfield).1
  rw [hwritable] at hread hentries
  obtain ⟨rs, rfl, hrs, hmem⟩ := exists_fields hnodup hread
  rw [← hentries] at hmem
  -- the value found under the name of a field is the one read for it, as no name is declared twice
  have hvalue : ∀ r ∈ rs, fieldValue fields r.1.name = r.2 := by
    intro r hr
    have hr := (hmem _).2 ⟨r, hr, rfl⟩
    rw [hentries] at hr ⊢
    rw [fieldValue, Entries.get?_of_mem (Table.ofList _).ordered hr]
    rfl
  have hknown : ∀ e ∈ fields, ∃ field ∈ rs.map (·.1), field.name = e.1 := by
    intro e he
    obtain ⟨r, hr, rfl⟩ := (hmem e).1 he
    exact ⟨r.1, List.mem_map_of_mem hr, rfl⟩
  have hiff : ∀ r ∈ rs, f.Writes r.2 (.declared r.1.declared s!"{type}.{r.1.name}") ↔
      f.Truthful r.2 := fun r hr =>
    writes_field_iff hmembers (hfields r.1 (List.mem_map_of_mem hr)).2.2 (hrs r hr)
  rw [writes_object haccepts hknown, hreadable]
  constructor
  · intro h e he
    obtain ⟨r, hr, rfl⟩ := (hmem e).1 he
    have hwrites := h r.1 (List.mem_map_of_mem hr)
    rw [hvalue r hr] at hwrites
    exact (hiff r hr).1 hwrites
  · intro h field hfield
    obtain ⟨r, hr, rfl⟩ := List.mem_map.1 hfield
    rw [hvalue r hr]
    exact (hiff r hr).2 (h _ ((hmem _).2 ⟨r, hr, rfl⟩))

theorem writes_element_iff {j : Json} (hj : f.Rewrites j) {s : ArraySignature}
    (hfitted : f.Fitted (.array s)) {owner : String} {v : Value}
    (h : f.decode j (.element s.component s.dimensions owner) = .ok v) :
    f.Writes v (.element s.component s.dimensions owner) ↔ f.Truthful v := by
  obtain ⟨⟨hdimensions, hcomponent⟩, hadmits⟩ := hfitted
  unfold Slot.element at h ⊢
  split at h
  · next hone =>
    rw [if_pos hone]
    exact hj.declared _ _ v hadmits h
  · next hmore =>
    rw [if_neg hmore]
    refine hj.row _ _ v ⟨?_, hcomponent⟩ hadmits h
    change 1 ≤ s.dimensions at hdimensions
    omega

theorem writes_through_iff {j : Json} (hj : j.Finite)
    (hitems : ∀ items, j = .array items → ∀ i ∈ items, f.Rewrites i)
    (hpairs : ∀ items, j = .array items → ∀ pair, .array pair ∈ items → ∀ i ∈ pair, f.Rewrites i)
    (hmembers : ∀ members, j = .object members → ∀ m ∈ members, f.Rewrites m.2)
    {m : Marshaller} {v : Value} (hfitted : f.Fitted m) (h : f.Reads j m v) :
    f.Writes v (.through m) ↔ v.PartsThroughout f.Vouches := by
  -- by the way in which the value was read; an element was read from an element of the document
  cases h with
  | null => exact iff_of_true (writes_null nofun) trivial
  | scalar read =>
    obtain ⟨rfl, htext⟩ := Scalar.exists_text_of_read hj read
    exact iff_of_true (writes_scalar htext) trivial
  | string s => exact iff_of_true (writes_string s) trivial
  | enumeration isNull accepted _ mem =>
    exact iff_of_true (writes_enumeration accepted mem) trivial
  | list read =>
    rw [writes_list]
    apply forall₂_congr
    intro v hv
    obtain ⟨i, hi, hdecode⟩ := exists_of_forall₂ read.flip v hv
    exact (hitems _ rfl i hi).tagged v hdecode
  | set read =>
    apply writes_set.trans
    apply forall₂_congr
    intro v hv
    obtain ⟨i, hi, hdecode⟩ := exists_of_forall₂ read.flip v (Value.mem_distinct hv)
    exact (hitems _ rfl i hi).tagged v hdecode
  | map read =>
    rw [writes_map]
    apply forall₂_congr
    intro e he
    obtain ⟨⟨k, _, hkmem, hk⟩, _, v, hvmem, hv⟩ := read e he
    have hkey := hpairs _ rfl _ hkmem k List.mem_cons_self
    have hvalue := hpairs _ rfl _ hvmem v (List.mem_cons_of_mem _ List.mem_cons_self)
    exact and_congr (hkey.tagged _ hk) (hvalue.tagged _ hv)
  | object accepted _ read => exact writes_fields_iff hfitted (hmembers _ rfl) accepted read rfl
  | array read =>
    rw [writes_array]
    apply forall₂_congr
    intro v hv
    obtain ⟨i, hi, hdecode⟩ := exists_of_forall₂ read.flip v hv
    exact writes_element_iff (hitems _ rfl i hi) hfitted hdecode

/-- What was read from a document that tells its type. -/
theorem writes_tagged_of_decode (hf : f.Coherent) {j : Json} (hj : j.Finite)
    (hthrough : ∀ m v, f.Fitted m → f.Reads j m v →
      (f.Writes v (.through m) ↔ v.PartsThroughout f.Vouches))
    (hmembers : ∀ members, j = .object members → ∀ m ∈ members, f.Rewrites m.2)
    {v : Value} (h : f.decode j .tagged = .ok v) : f.Writes v .tagged ↔ f.Truthful v := by
  -- A truth value and a string stand for themselves, a number and an array need a tag.
  cases hj with
  | null =>
    rw [decode_eq] at h
    cases h
    exact iff_of_true (writes_null nofun) truthful_null
  | bool b =>
    rw [decode_eq] at h
    cases h
    obtain ⟨i, hi, hm⟩ := hf.basic (.scalar .bool) trivial
    refine iff_of_true ((writes_tagged rfl hi).2 ?_) ((truthful_iff_of_claim? rfl).2 trivial)
    rw [hm]
    exact writes_scalar ⟨_, rfl⟩
  | string s =>
    rw [decode_eq] at h
    cases h
    obtain ⟨i, hi, hm⟩ := hf.basic .string trivial
    refine iff_of_true ((writes_tagged rfl hi).2 ?_) ((truthful_iff_of_claim? rfl).2 trivial)
    rw [hm]
    exact writes_string s
  | number | array =>
    rw [decode_eq] at h
    cases h
  | @object members hfinite =>
    rw [decode_object_tagged] at h
    split at h
    · cases h
    · next tag htag =>
      obtain ⟨i, hi, h⟩ := bind_eq_ok_iff.1 h
      have hi := (f.require_eq_ok_iff _ _ _).1 hi
      have hfitted := hf.fitted tag i hi
      split at h
      · -- the tag is around a payload, which is a member
        next payload hpayload =>
        split at h
        · obtain ⟨m, hmem, rfl⟩ := Json.mem_of_find? hpayload
          have hreads := reads_of_decode hfitted.isForeign h
          exact writes_tagged_iff hf (hfinite m hmem) hi hreads
            ((hmembers members rfl m hmem).through _ v hfitted hreads)
        · cases h
      · split at h
        · have hreads := reads_of_decode hfitted.isForeign h
          exact writes_tagged_iff hf (.object hfinite) hi hreads (hthrough _ v hfitted hreads)
        · cases h

/-- As a named type a value is written if its own type may stand there. -/
theorem writes_named {v : Value} {name owner : String}
    (hassign : f.checkAssignable name v owner = .ok ()) :
    f.Writes v (.declared (.named name) owner) ↔ f.Writes v .tagged := by
  cases hnull : v.isNull with
  | true =>
    cases v with
    | null =>
      refine iff_of_true (writes_null fun _ _ h => ?_) (writes_null nofun)
      cases h
      rfl
    | _ => cases hnull
  | false =>
    have hencode : f.encode v (.declared (.named name) owner) =
        (f.checkAssignable name v owner >>= fun _ => f.encode v .tagged) := by
      rw [encode_declared, hnull]
      rfl
    rw [Writes, hencode, hassign]
    rfl

/-- A value that was read without a tag, as a named type, may stand where the type is declared. -/
theorem checkAssignable_of_untagged (hf : f.Coherent) {j : Json} (hj : j.Finite)
    (huntagged : Wire.isTagged j = false) {name : String} (owner : String) {i : Instance}
    (hi : f.lookup name = some i) {v : Value} (hreads : f.Reads j i.marshaller v) :
    f.checkAssignable name v owner = .ok () := by
  cases hnull : v.isNull with
  | true =>
    cases v with
    | null => rfl
    | _ => cases hnull
  | false =>
    -- without a tag the value has the type of the marshaller that read it
    have hid : v.typeId? = some i.marshaller.ownId := by
      cases hnominal : i.marshaller.isNominal with
      | true => exact Value.typeId?_of_claim? (hreads.claim?_of_untagged hnominal hnull huntagged)
      | false => exact (hreads.typeId? hj (hf.fitted name i hi) hnominal).2 hnull
    unfold checkAssignable
    rw [hid]
    -- the name looked up and the type found lead to one instance
    refine bind_eq_ok_iff.2 ⟨i, (f.require_eq_ok_iff _ _ _).2 hi, ?_⟩
    refine bind_eq_ok_iff.2 ⟨i, (f.require_eq_ok_iff _ _ _).2 (hf.own name i hi), ?_⟩
    exact if_pos rfl

/-- A type that is fixed is read and written by the marshaller it is bound to, which claims
nothing. -/
theorem writes_static_of_decode (hf : f.Coherent) {j : Json} (hj : j.Finite)
    (hnull : j.isNull = false)
    (hthrough : ∀ m v, f.Fitted m → f.Reads j m v →
      (f.Writes v (.through m) ↔ v.PartsThroughout f.Vouches))
    {type : TypeRef} (hstatic : type.isDynamic = false) {owner : String}
    (hadmits : f.Admits type) {v : Value} (h : f.decode j (.declared type owner) = .ok v) :
    f.Writes v (.declared type owner) ↔ f.Truthful v := by
  rw [f.decode_static hstatic hnull] at h
  obtain ⟨i, hrequire, h⟩ := bind_eq_ok_iff.1 h
  have hi := (f.require_eq_ok_iff _ _ _).1 hrequire
  have hfitted := hf.fitted _ i hi
  have hreads := reads_of_decode hfitted.isForeign h
  have hclaim := (hreads.typeId? hj hfitted (hadmits.structural hstatic i hi)).1
  rw [Writes, f.encode_static hstatic (hreads.isNull.trans hnull), hrequire]
  exact (hthrough _ v hfitted hreads).trans (truthful_iff_of_claim? hclaim).symm

/-- What was read as a declared type. -/
theorem writes_declared_of_decode (hf : f.Coherent) {j : Json} (hj : j.Finite)
    (hthrough : ∀ m v, f.Fitted m → f.Reads j m v →
      (f.Writes v (.through m) ↔ v.PartsThroughout f.Vouches))
    (htagged : ∀ v, f.decode j .tagged = .ok v → (f.Writes v .tagged ↔ f.Truthful v))
    {type : TypeRef} {owner : String} (hadmits : f.Admits type) {v : Value}
    (h : f.decode j (.declared type owner) = .ok v) :
    f.Writes v (.declared type owner) ↔ f.Truthful v := by
  cases hnull : j.isNull with
  | true =>
    rw [decode_declared, if_pos hnull] at h
    unfold decodeNull at h
    split at h
    · next hnullable =>
      cases h
      -- null was read, so the type admits it, and what is admitted is written
      refine iff_of_true (writes_null fun _ _ h => ?_) truthful_null
      cases h
      exact hnullable
    · cases h
  | false =>
    cases type with
    | any =>
      rw [decode_any] at h
      rw [Writes, encode_any]
      exact htagged v h
    | named name =>
      -- a tagged document tells the type, and what it tells is checked; the other cases, a bare
      -- constant among them, are left to the marshaller of the name
      rw [decode_declared, hnull] at h
      cases htag : Wire.isTagged j with
      | true =>
        obtain ⟨v', hv', h⟩ := bind_eq_ok_iff.1 ((if_pos htag).symm.trans h)
        obtain ⟨⟨⟩, hassign, h⟩ := bind_eq_ok_iff.1 h
        cases h
        exact (writes_named hassign).trans (htagged v hv')
      | false =>
        have htag' : ¬Wire.isTagged j = true := by rw [htag]; exact Bool.false_ne_true
        obtain ⟨i, hrequire, h⟩ := bind_eq_ok_iff.1 ((if_neg htag').symm.trans h)
        have hi := (f.require_eq_ok_iff _ _ _).1 hrequire
        have hreads := reads_of_decode (hf.fitted name i hi).isForeign h
        have hassign := checkAssignable_of_untagged hf hj htag owner hi hreads
        exact (writes_named hassign).trans
          (writes_tagged_iff hf hj hi hreads (hthrough _ v (hf.fitted name i hi) hreads))
    | _ => exact writes_static_of_decode hf hj hnull hthrough rfl hadmits h

/-- What was read as a row. -/
theorem writes_row_of_decode {j : Json} (hj : j.Finite)
    (hthrough : ∀ m v, f.Fitted m → f.Reads j m v →
      (f.Writes v (.through m) ↔ v.PartsThroughout f.Vouches))
    {component : TypeRef} {dimensions : Nat} (hflat : (TypeRef.array component dimensions).Flat)
    (hadmits : f.Admits component) {v : Value}
    (h : f.decode j (.row component dimensions) = .ok v) :
    f.Writes v (.row component dimensions) ↔ f.Truthful v := by
  rw [decode_row] at h
  split at h
  · cases h
    exact iff_of_true (writes_null nofun) truthful_null
  · next hnull =>
    have hfitted : f.Fitted (.array ⟨component, dimensions⟩) := ⟨hflat, hadmits⟩
    have hreads := reads_of_decode hfitted.isForeign h
    have hclaim := (hreads.typeId? hj hfitted rfl).1
    -- a row is written by the array marshaller of its shape, to which it was read
    have hencode : f.encode v (.row component dimensions) =
        f.encode v (.through (.array ⟨component, dimensions⟩)) := by
      rw [encode_row]
      cases hreads with
      | null => exact absurd rfl hnull
      | array => rfl
    rw [Writes, hencode]
    exact (hthrough _ v hfitted hreads).trans (truthful_iff_of_claim? hclaim).symm

theorem rewrites_of_parts (hf : f.Coherent) {j : Json} (hj : j.Finite)
    (hitems : ∀ items, j = .array items → ∀ i ∈ items, f.Rewrites i)
    (hpairs : ∀ items, j = .array items → ∀ pair, .array pair ∈ items → ∀ i ∈ pair, f.Rewrites i)
    (hmembers : ∀ members, j = .object members → ∀ m ∈ members, f.Rewrites m.2) :
    f.Rewrites j := by
  have hthrough : ∀ m v, f.Fitted m → f.Reads j m v →
      (f.Writes v (.through m) ↔ v.PartsThroughout f.Vouches) :=
    fun _ _ hfitted h => writes_through_iff hj hitems hpairs hmembers hfitted h
  have htagged : ∀ v, f.decode j .tagged = .ok v → (f.Writes v .tagged ↔ f.Truthful v) :=
    fun _ h => writes_tagged_of_decode hf hj hthrough hmembers h
  exact ⟨hthrough, htagged,
    fun _ _ _ hadmits h => writes_declared_of_decode hf hj hthrough htagged hadmits h,
    fun _ _ _ hflat hadmits h => writes_row_of_decode hj hthrough hflat hadmits h⟩

/-- By induction on the document, whose parts are written again if they claim what they should. -/
theorem rewrites (hf : f.Coherent) {j : Json} (hj : j.Finite) : f.Rewrites j := by
  induction j using Json.parts_induction with
  | step j hitems hpairs hmembers =>
    apply rewrites_of_parts hf hj
    · rintro items rfl i hi
      cases hj with
      | array h => exact hitems items rfl i hi (h i hi)
    · rintro items rfl pair hpair i hi
      cases hj with
      | array h =>
        cases h _ hpair with
        | array h => exact hpairs items rfl pair hpair i hi (h i hi)
    · rintro members rfl m hm
      cases hj with
      | object h => exact hmembers members rfl m hm (h m hm)

/-! ### Who has read what

A truthful value was not only read as something; each object and enum in it was read by the very
instance that its claim is bound to. -/

/-- If the value is an object or enum, its claim is bound to an instance that has read it from a
part of the document. -/
def ReadAsClaimed (f : Factory) (j : Json) (v : Value) : Prop :=
  ∀ claimed, v.claim? = some claimed → ∃ part i, Json.Within part j ∧
    f.lookup claimed = some i ∧ f.decode part (.through i.marshaller) = .ok v

theorem Coherent.isForeign (hf : f.Coherent) {m : Marshaller} (h : f.Offers (.through m)) :
    m.isForeign = false := by
  rcases h with ⟨id, i, hi, rfl⟩ | ⟨s, rfl⟩
  · exact (hf.fitted id i hi).isForeign
  · rfl

/-- The instance that reads an object or enum is that of the claim, unless the claim is bound to an
array, and then it is not vouched for. -/
theorem readAsClaimed_of_truthful (hf : f.Coherent) {j : Json} {slot : Slot} {v : Value}
    (hslot : f.Offers slot) (h : f.decode j slot = .ok v) (htruthful : f.Truthful v) :
    v.Throughout (f.ReadAsClaimed j) := by
  have hvouched : f.Imbues j fun u => f.Vouches u → f.ReadAsClaimed j u := by
    refine throughout_of_decode (fun m => hf.isForeign) ⟨nofun, nofun, nofun, ?_⟩
    intro part m u hwithin hoffered hdecode hreads hvouches claimed hclaim
    obtain ⟨hnominal, haccepts⟩ := hreads.accepts_claim hclaim
    rcases hoffered with ⟨id, i, hi, rfl⟩ | ⟨s, rfl⟩
    · rcases hf.lookup_of_acceptsClaim hi haccepts with hlookup | ⟨i', s, hlookup, harray⟩
      · exact ⟨part, i, hwithin, hlookup, hdecode⟩
      · obtain ⟨i'', hlookup', hnominal'⟩ := hvouches claimed hclaim
        cases hlookup.symm.trans hlookup'
        rw [harray] at hnominal'
        cases hnominal'
    · cases hnominal
  exact fun u hu => hvouched slot v hslot h u hu (htruthful u hu)

end Factory

namespace Generator

variable {g : Generator} {d : Catalog} {package className : String} {f : Factory}

/-- What the factory of a document has read as a type it can write as that type, exactly if all
objects and enums in it claim types of objects and enums.  In that case each of them was read by the
instance that it claims. -/
theorem marshalAs_iff (hstandard : g.Standard d) (hplain : ∀ t ∈ d.types, t.className = none)
    (hwhole : ∀ t ∈ d.types, t.shape.Whole) (hf : g.factory package className = .ok f)
    (type : TypeRef) (hflat : type.Flat) (hfound : f.Finds type) {text : String} {v : Value}
    (h : f.unmarshalAs type text = .ok v) :
    ((∃ s, f.marshalAs type v = .ok s) ↔ f.Truthful v) ∧
      (f.Truthful v → ∃ j, Wire.parse text = .ok j ∧ v.Throughout (f.ReadAsClaimed j)) := by
  have hgenerated := generated_of_factory hstandard.spelled hf
  have hcoherent := coherent_of_factory hstandard hplain hwhole hf
  obtain ⟨j, hparse, hdecode⟩ := bind_eq_ok_iff.1 h
  -- a text has no numbers without a finite value, so neither has its document
  have hfinite : j.Finite := by
    unfold Wire.parse at hparse
    split at hparse
    · next hparsed =>
      cases hparse
      exact Json.finite_of_parse? hparsed
    · cases hparse
  have hadmits := hstandard.admits hgenerated hplain hflat hfound
  refine ⟨(Factory.rewrites hcoherent hfinite).declared _ _ v hadmits hdecode, fun htruthful => ?_⟩
  have hslot : f.Offers (.declared type type.id) := trivial
  exact ⟨j, hparse, Factory.readAsClaimed_of_truthful hcoherent hslot hdecode htruthful⟩

/-- A knot under its alias, whose field holds a row with a knot. -/
def loopText : String :=
  "\x7b\"^EncodedType\":\"Loop\",\"ends\":[[\x7b\"^EncodedType\":\"Knot\"\x7d],null]\x7d"

/-- A knot that claims to be an array of rows of knots. -/
def misclaimText : String :=
  "\x7b\"^EncodedType\":\"Knot\",\"^Value\":\x7b\"^EncodedType\":\"Knot[][]\"\x7d\x7d"

theorem knots_read : (factoryOver knots).toOption.any (fun f =>
    (f.lookup "Knot").isSome && (f.unmarshalAs (.named "Knot") loopText).toOption.isSome &&
      (f.unmarshalAs .any misclaimText).toOption.any fun v =>
        (f.marshalAs .any v).toOption.isNone) = true := by
  decide +kernel

/-- A knot under its alias, with a grid that holds a knot and a null. -/
theorem marshalAs_iff_loop : ∃ c f v,
    (⟨c, Providers.builtin⟩ : Generator).factory "demo" "Factory" = .ok f ∧
    f.unmarshalAs (.named "Knot") loopText = .ok v ∧
      ((∃ s, f.marshalAs (.named "Knot") v = .ok s) ↔ f.Truthful v) ∧
        (f.Truthful v → ∃ j, Wire.parse loopText = .ok j ∧ v.Throughout (f.ReadAsClaimed j)) := by
  obtain ⟨f, hf, hread⟩ := (Option.any_eq_true _ _).1 knots_read
  obtain ⟨c, hstandard, hf⟩ :=
    standard_of_factoryOver parse_knotDocument (toOption_eq_some_iff.1 hf)
  rw [Bool.and_eq_true, Bool.and_eq_true] at hread
  obtain ⟨v, hv⟩ := Option.isSome_iff_exists.1 hread.1.2
  have hv := toOption_eq_some_iff.1 hv
  have hfound : f.Finds (.named "Knot") := .inr (Option.isSome_iff_exists.1 hread.1.1)
  exact ⟨c, f, v, hf, hv, marshalAs_iff hstandard (by simp [knots]) (by simp [knots, Shape.Whole])
    hf (.named "Knot") trivial hfound hv⟩

/-- A knot may claim an array of knots, is read, and cannot be written. -/
theorem misclaimed_knot : ∃ c f v, (⟨c, Providers.builtin⟩ : Generator).Standard knots ∧
    (∀ t ∈ knots.types, t.className = none ∧ t.shape.Whole) ∧
    (⟨c, Providers.builtin⟩ : Generator).factory "demo" "Factory" = .ok f ∧
    f.unmarshalAs .any misclaimText = .ok v ∧ ¬∃ s, f.marshalAs .any v = .ok s := by
  obtain ⟨f, hf, hread⟩ := (Option.any_eq_true _ _).1 knots_read
  obtain ⟨c, hstandard, hf⟩ :=
    standard_of_factoryOver parse_knotDocument (toOption_eq_some_iff.1 hf)
  rw [Bool.and_eq_true] at hread
  obtain ⟨v, hv, hnone⟩ := (Option.any_eq_true _ _).1 hread.2
  refine ⟨c, f, v, hstandard, by simp [knots, Shape.Whole], hf, toOption_eq_some_iff.1 hv, ?_⟩
  rintro ⟨s, hs⟩
  rw [hs] at hnone
  cases hnone

end Generator
end TaggedWire
