import TaggedWire.Proofs.Factory.Coding
import TaggedWire.Proofs.Factory.Generated
import TaggedWire.Proofs.Marshaller.Scalar
import TaggedWire.Proofs.Table
import TaggedWire.Proofs.Value.Parts

/-!
# Readings

What a factory reads comes from its marshallers.  A slot decides which of them gets the document, or
the payload that a tag is put around; the marshaller decides what becomes of it, and sends the parts
of the document to slots of its own.  So there are two things to know about a reading, and with them
nobody has to look into the decoder again.

* `Reads`: what a marshaller reads, kind by kind.  A foreign marshaller is not among them, since it
  may read whatever it likes.
* `Passes`: which document goes to which marshaller.

Together they give the induction by which most is proved about what was read.

* `throughout_of_decode`: what holds of whatever a marshaller reads from a part of the document
  holds throughout the value that is read from the document.
-/

namespace TaggedWire

/-- The first document is the second one, or stands in it at any depth. -/
inductive Json.Within (i : Json) : Json → Prop
  | self : Within i i
  | item {items : List Json} {j : Json} (mem : j ∈ items) (h : Within i j) :
    Within i (.array items)
  | member {members : List (String × Json)} {m : String × Json} (mem : m ∈ members)
    (h : Within i m.2) : Within i (.object members)

namespace Factory

/-! ### What a marshaller reads

There is one way of reading for each marshaller, and null is read by all of them.  The entries of a
map are an exception: a key that comes again gives its value to the first, so an entry need not have
been read from one pair. -/

/-- The entry is put together from the keys and values of pairs. -/
def ReadsEntry (f : Factory) (items : List Json) (e : Value × Value) : Prop :=
  (∃ k v, .array [k, v] ∈ items ∧ f.decode k .tagged = .ok e.1) ∧
    ∃ k v, .array [k, v] ∈ items ∧ f.decode v .tagged = .ok e.2

/-- The marshaller reads the document as the value. -/
inductive Reads (f : Factory) : Json → Marshaller → Value → Prop
  | null {m : Marshaller} : Reads f .null m .null
  | scalar {j : Json} {p : Primitive} {x : Scalar} (read : Scalar.readScalar p j = .ok x) :
    Reads f j (.scalar p) (.scalar x)
  | string (s : String) : Reads f (.string s) .string (.string s)
  | list {items : List Json} {vs : List Value}
    (read : List.Forall₂ (fun j v => f.decode j .tagged = .ok v) items vs) :
    Reads f (.array items) .list (.list vs)
  | set {items : List Json} {vs : List Value}
    (read : List.Forall₂ (fun j v => f.decode j .tagged = .ok v) items vs) :
    Reads f (.array items) .set (.setOf vs)
  | map {items : List Json} {entries : List (Value × Value)}
    (read : ∀ e ∈ entries, f.ReadsEntry items e) (unequal : Value.Unequal (entries.map (·.1))) :
    Reads f (.array items) .map (.map entries)
  | enumeration {j : Json} {type claimed variant : String} {variants : List String}
    (isNull : j.isNull = false) (accepted : f.acceptsClaim type claimed = true)
    (untagged : Wire.isTagged j = false → claimed = type) (mem : variant ∈ variants) :
    Reads f j (.enumeration type variants) (.enumeration claimed variant)
  | object {members : List (String × Json)} {type claimed : String} {declared : List Field}
    {ws : List Value} (accepted : f.acceptsClaim type claimed = true)
    (untagged : Wire.isTagged (.object members) = false → claimed = type)
    (read : List.Forall₂ (fun field w => f.readField type members field = .ok w)
      (declared.filter (·.writable)) ws) :
    Reads f (.object members) (.object type declared) (.object claimed
      (Table.ofList (((declared.filter (·.writable)).map (·.name)).zip ws)).entries)
  | array {items : List Json} {s : ArraySignature} {vs : List Value}
    (read : List.Forall₂ (fun j v => f.decode j
      (.element s.component s.dimensions (ArraySignature.of s.component s.dimensions).id) = .ok v)
        items vs) :
    Reads f (.array items) (.array s) (.array (.of s.component s.dimensions) vs)

variable {f : Factory}

/-- A claim is accepted; without a tag it is the type of the marshaller. -/
theorem claimedType_cases {type claimed : String} {j : Json}
    (h : f.claimedType type j = .ok claimed) :
    f.acceptsClaim type claimed = true ∧ (Wire.isTagged j = false → claimed = type) := by
  unfold claimedType at h
  split at h
  · cases h
    exact ⟨by simp [acceptsClaim], fun _ => rfl⟩
  · next tag htag =>
    split at h
    · next haccepts =>
      cases h
      refine ⟨haccepts, ?_⟩
      intro huntagged
      rw [Wire.isTagged, htag] at huntagged
      cases huntagged
    · cases h

theorem readsEntry_of_decodeEntries {items : List Json} {entries : List (Value × Value)}
    (h : decodeEntries (items.map f.entryDecoder) = .ok entries) :
    ∀ e ∈ entries, f.ReadsEntry items e := by
  rw [decodeEntries_map] at h
  refine holds_of_foldlM (p := fun done => ∀ e ∈ done, f.ReadsEntry items e)
    (fun _ h => absurd h List.not_mem_nil) ?_ h
  -- an entry may replace the value of an older one, but not its key
  intro j hj done done' hdone hstep e he
  obtain ⟨_, ⟨jk, jv, rfl, hk, hv⟩, rfl⟩ := f.readEntry_eq_ok_iff.1 hstep
  rcases Value.mem_put he with he | ⟨hvalue, hkey⟩
  · exact hdone e he
  · refine ⟨?_, jk, jv, hj, hvalue ▸ hv⟩
    rcases hkey with hkey | ⟨e', he', hkey⟩
    · exact ⟨jk, jv, hj, hkey ▸ hk⟩
    · exact hkey ▸ (hdone e' he').1

theorem unequal_of_decodeEntries {items : List Json} {entries : List (Value × Value)}
    (h : decodeEntries (items.map f.entryDecoder) = .ok entries) :
    Value.Unequal (entries.map (·.1)) := by
  rw [decodeEntries_map] at h
  have hnone : Value.Unequal (([] : List (Value × Value)).map (·.1)) := List.Pairwise.nil
  refine holds_of_foldlM (p := fun done => Value.Unequal (done.map (·.1))) hnone ?_ h
  intro j _ done done' hdone hstep
  obtain ⟨e, -, rfl⟩ := f.readEntry_eq_ok_iff.1 hstep
  exact Value.unequal_put hdone

/-- The marshallers of collections read arrays. -/
theorem exists_items {j : Json} {m : Marshaller} {v : Value} (hnull : j ≠ .null)
    (hm : m = .list ∨ m = .set ∨ m = .map ∨ ∃ s, m = .array s)
    (h : f.decode j (.through m) = .ok v) : ∃ items, j = .array items := by
  cases j with
  | array items => exact ⟨items, rfl⟩
  | null => exact absurd rfl hnull
  | _ =>
    rw [decode_eq] at h
    obtain rfl | rfl | rfl | ⟨s, rfl⟩ := hm <;> cases h

theorem reads_items {items : List Json} {m : Marshaller} {v : Value}
    (hm : m = .list ∨ m = .set ∨ m = .map ∨ ∃ s, m = .array s)
    (h : f.decode (.array items) (.through m) = .ok v) : f.Reads (.array items) m v := by
  rw [decode_array] at h
  -- the containers of a document are all checked before any of their parts is read
  obtain rfl | rfl | rfl | ⟨s, rfl⟩ := hm
  all_goals obtain ⟨_, -, h⟩ := bind_eq_ok_iff.1 h
  · obtain ⟨vs, hvs, hv⟩ := bind_eq_ok_iff.1 h
    cases hv
    exact .list (List.forall₂_map_left_iff.1 (decodeItems_eq_ok_iff.1 hvs))
  · obtain ⟨vs, hvs, hv⟩ := bind_eq_ok_iff.1 h
    cases hv
    exact .set (List.forall₂_map_left_iff.1 (decodeItems_eq_ok_iff.1 hvs))
  · obtain ⟨entries, hentries, hv⟩ := bind_eq_ok_iff.1 h
    cases hv
    exact .map (readsEntry_of_decodeEntries hentries) (unequal_of_decodeEntries hentries)
  · obtain ⟨vs, hvs, hv⟩ := bind_eq_ok_iff.1 h
    cases hv
    exact .array (List.forall₂_map_left_iff.1 (decodeItems_eq_ok_iff.1 hvs))

theorem reads_constant {j : Json} {type claimed variant : String} {variants : List String}
    {v : Value} (hplain : j.isNull = false) (haccepts : f.acceptsClaim type claimed = true)
    (huntagged : Wire.isTagged j = false → claimed = type)
    (h : decodeConstant type variants claimed variant = .ok v) :
    f.Reads j (.enumeration type variants) v := by
  unfold decodeConstant at h
  split at h
  · next hmem =>
    cases h
    exact .enumeration hplain haccepts huntagged hmem
  · cases h

/-- A constant stands alone, or in an object that may claim a type. -/
theorem reads_enumeration {j : Json} {type : String} {variants : List String} {v : Value}
    (hnull : j ≠ .null) (h : f.decode j (.through (.enumeration type variants)) = .ok v) :
    f.Reads j (.enumeration type variants) v := by
  cases j with
  | string s =>
    rw [decode_eq] at h
    exact reads_constant rfl (by simp [acceptsClaim]) (fun _ => rfl) h
  | object members =>
    rw [decode_object] at h
    obtain ⟨_, -, h⟩ := bind_eq_ok_iff.1 h
    obtain ⟨claimed, hclaimed, h⟩ := bind_eq_ok_iff.1 h
    obtain ⟨haccepts, huntagged⟩ := claimedType_cases hclaimed
    split at h
    · cases h
    · exact reads_constant rfl haccepts huntagged h
  | null => exact absurd rfl hnull
  | _ =>
    rw [decode_eq] at h
    cases h

theorem reads_of_decode {j : Json} {m : Marshaller} {v : Value} (hm : m.isForeign = false)
    (h : f.decode j (.through m) = .ok v) : f.Reads j m v := by
  by_cases hnull : j = .null
  · subst hnull
    rw [decode_null_through] at h
    cases h
    exact .null
  -- null is done; of the other documents each marshaller takes one kind, or two for constants
  cases m with
  | foreign _ => cases hm
  | scalar p =>
    have hplain : j.isNull = false := by
      cases j with
      | null => exact absurd rfl hnull
      | _ => rfl
    rw [f.decode_scalar_through hplain] at h
    obtain ⟨x, hx, rfl⟩ := map_eq_ok_iff.1 h
    exact .scalar hx
  | string =>
    rw [decode_eq] at h
    cases j with
    | string s =>
      cases h
      exact .string s
    | null => exact absurd rfl hnull
    | _ => cases h
  | list =>
    obtain ⟨items, rfl⟩ := exists_items hnull (.inl rfl) h
    exact reads_items (.inl rfl) h
  | set =>
    obtain ⟨items, rfl⟩ := exists_items hnull (.inr (.inl rfl)) h
    exact reads_items (.inr (.inl rfl)) h
  | map =>
    obtain ⟨items, rfl⟩ := exists_items hnull (.inr (.inr (.inl rfl))) h
    exact reads_items (.inr (.inr (.inl rfl))) h
  | array s =>
    obtain ⟨items, rfl⟩ := exists_items hnull (.inr (.inr (.inr ⟨s, rfl⟩))) h
    exact reads_items (.inr (.inr (.inr ⟨s, rfl⟩))) h
  | enumeration type variants => exact reads_enumeration hnull h
  | object type declared =>
    cases j with
    | object members =>
      obtain ⟨claimed, ws, hclaimed, hws, rfl⟩ := (decode_object_eq_ok_iff f).1 h
      obtain ⟨haccepts, huntagged⟩ := claimedType_cases hclaimed
      exact .object haccepts huntagged hws
    | null => exact absurd rfl hnull
    | _ =>
      rw [decode_eq] at h
      cases h

/-! ### The type of what was read

The fields of an object are read in the order of their declaration, and kept in that of their
names. -/

/-- The fields that were read, each with its value, are the entries of the object. -/
theorem exists_fields {R : Field → Value → Prop} {declared : List Field} {ws : List Value}
    (hnodup : (declared.map (·.name)).Nodup) (hread : List.Forall₂ R declared ws) :
    ∃ rs : List (Field × Value), rs.map (·.1) = declared ∧ (∀ r ∈ rs, R r.1 r.2) ∧
      ∀ e, e ∈ (Table.ofList ((declared.map (·.name)).zip ws)).entries ↔
        ∃ r ∈ rs, (r.1.name, r.2) = e := by
  obtain ⟨rs, rfl, rfl, hrs⟩ := exists_pairs hread
  rw [List.map_map] at hnodup
  have hzip : ((rs.map (·.1)).map Field.name).zip (rs.map (·.2)) =
      rs.map fun r => (r.1.name, r.2) := by
    rw [List.map_map, List.zip_map']
    rfl
  refine ⟨rs, rfl, hrs, ?_⟩
  intro e
  rw [hzip, Table.mem_entries_iff, Table.get?_ofList, List.mem_map]
  rw [List.map_map]
  exact hnodup

/-! ### Slots come down to marshallers

A document that is not read by a marshaller is null, a truth value or a string.  Else it is the
document itself that a marshaller gets, or the payload of its tag. -/

/-- A document stands for the value by itself, or a marshaller of the factory has read the value
from it, or from what a tag is put around. -/
inductive Passes (f : Factory) : Json → Value → Prop
  | null {j : Json} : Passes f j .null
  | bool (b : Bool) : Passes f (.bool b) (.scalar (.bool b))
  | string (s : String) : Passes f (.string s) (.string s)
  | whole {j : Json} {m : Marshaller} {v : Value} (offered : f.Offers (.through m))
    (decoded : f.decode j (.through m) = .ok v) : Passes f j v
  | payload {members : List (String × Json)} {e : String × Json} {m : Marshaller} {v : Value}
    (mem : e ∈ members) (offered : f.Offers (.through m))
    (decoded : f.decode e.2 (.through m) = .ok v) : Passes f (.object members) v

theorem passes_tagged {j : Json} {v : Value} (h : f.decode j .tagged = .ok v) : f.Passes j v := by
  cases j with
  | null =>
    rw [decode_eq] at h
    cases h
    exact .null
  | bool b =>
    rw [decode_eq] at h
    cases h
    exact .bool b
  | string s =>
    rw [decode_eq] at h
    cases h
    exact .string s
  | number _ | array _ =>
    rw [decode_eq] at h
    cases h
  | object members =>
    rw [decode_object_tagged] at h
    split at h
    · cases h
    · next tag _ =>
      -- the tag names the marshaller, and the payload is a member if there is one
      obtain ⟨i, hi, h⟩ := bind_eq_ok_iff.1 h
      have hoffered : f.Offers (.through i.marshaller) :=
        .inl ⟨tag, i, (f.require_eq_ok_iff _ _ _).1 hi, rfl⟩
      split at h
      · next hpayload =>
        split at h
        · obtain ⟨e, he, rfl⟩ := Json.mem_of_find? hpayload
          exact .payload he hoffered h
        · cases h
      · split at h
        · exact .whole hoffered h
        · cases h

theorem passes_of_decode {j : Json} {slot : Slot} {v : Value} (hslot : f.Offers slot)
    (h : f.decode j slot = .ok v) : f.Passes j v := by
  -- most declared types are read by the marshaller that their identifier is bound to
  have hrequired : ∀ {id owner : String}, (do
      let i ← f.require id owner
      f.decode j (.through i.marshaller)) = (.ok v : Except Error Value) → f.Passes j v := by
    intro id owner h
    obtain ⟨i, hi, h⟩ := bind_eq_ok_iff.1 h
    exact .whole (.inl ⟨id, i, (f.require_eq_ok_iff _ _ _).1 hi, rfl⟩) h
  cases slot with
  | tagged => exact passes_tagged h
  | through m => exact .whole hslot h
  | row component dimensions =>
    rw [decode_row] at h
    split at h
    · cases h
      exact .null
    · exact .whole (.inr ⟨_, rfl⟩) h
  | declared type owner =>
    rw [decode_declared] at h
    split at h
    · rw [eq_null_of_decodeNull h]
      exact .null
    · cases type with
      | any => exact passes_tagged h
      -- a tag is followed instead, and checked against the declared type afterwards
      | named name =>
        change (if Wire.isTagged j then _ else _) = _ at h
        split at h
        · obtain ⟨w, hw, h⟩ := bind_eq_ok_iff.1 h
          obtain ⟨⟨⟩, -, h⟩ := bind_eq_ok_iff.1 h
          cases h
          exact passes_tagged hw
        · exact hrequired h
      | _ => exact hrequired h

/-! ### Throughout what was read

A property of values that is to hold throughout what is read from a document need only be looked at
where a marshaller gives its answer, apart from the three kinds of values that tell their type
without one. -/

/-- The property holds of null, booleans and strings, and of whatever a marshaller of the factory
reads from a document within this one. -/
structure Instils (f : Factory) (j : Json) (p : Value → Prop) : Prop where
  null : p .null
  bool : ∀ b, p (.scalar (.bool b))
  string : ∀ s, p (.string s)
  through : ∀ {i : Json} {m : Marshaller} {v : Value}, Json.Within i j → f.Offers (.through m) →
    f.decode i (.through m) = .ok v → f.Reads i m v → p v

/-- The property holds throughout what is read from the document in any slot. -/
def Imbues (f : Factory) (j : Json) (p : Value → Prop) : Prop :=
  ∀ slot v, f.Offers slot → f.decode j slot = .ok v → v.Throughout p

variable {p : Value → Prop}

theorem Instils.of_within {i j : Json} (h : f.Instils j p)
    (hwithin : ∀ {k : Json}, Json.Within k i → Json.Within k j) : f.Instils i p :=
  ⟨h.null, h.bool, h.string, fun hk => h.through (hwithin hk)⟩

theorem Instils.throughout_null {j : Json} (h : f.Instils j p) : Value.null.Throughout p :=
  Value.throughout_iff.2 ⟨h.null, trivial⟩

theorem Instils.field {j : Json} (h : f.Instils j p) {type : String}
    {members : List (String × Json)} (hmembers : ∀ m ∈ members, f.Imbues m.2 p) {field : Field}
    {w : Value} (hread : f.readField type members field = .ok w) : w.Throughout p := by
  unfold readField at hread
  split at hread
  · next hfind =>
    obtain ⟨m, hm, rfl⟩ := Json.mem_of_find? hfind
    exact hmembers m hm (.declared _ _) w trivial hread
  · rw [eq_null_of_decodeNull hread]
    exact h.throughout_null

/-- The parts of what a marshaller reads are read from the parts of the document. -/
theorem Instils.parts {j : Json} (h : f.Instils j p)
    (hitems : ∀ items, j = .array items → ∀ i ∈ items, f.Imbues i p)
    (hpairs : ∀ items, j = .array items → ∀ pair, .array pair ∈ items → ∀ i ∈ pair, f.Imbues i p)
    (hmembers : ∀ members, j = .object members → ∀ m ∈ members, f.Imbues m.2 p)
    {m : Marshaller} {v : Value} (hreads : f.Reads j m v) : v.PartsThroughout p := by
  -- the slots of elements are tagged ones, or those of rows
  cases hreads with
  | null | scalar _ | string _ | enumeration _ _ _ _ => trivial
  | list read =>
    intro v hv
    obtain ⟨i, hi, hdecode⟩ := exists_of_forall₂ read.flip v hv
    exact hitems _ rfl i hi .tagged v trivial hdecode
  | set read =>
    intro v hv
    obtain ⟨i, hi, hdecode⟩ := exists_of_forall₂ read.flip v (Value.mem_distinct hv)
    exact hitems _ rfl i hi .tagged v trivial hdecode
  | map read _ =>
    intro e he
    obtain ⟨⟨k, _, hkmem, hk⟩, _, v, hvmem, hv⟩ := read e he
    have hkey := hpairs _ rfl _ hkmem k List.mem_cons_self
    have hvalue := hpairs _ rfl _ hvmem v (List.mem_cons_of_mem _ List.mem_cons_self)
    exact ⟨hkey .tagged _ trivial hk, hvalue .tagged _ trivial hv⟩
  | object _ _ read =>
    -- an entry of the object has the name of a field, and the value that was read for it
    intro e he
    have hzip := Table.mem_of_mem_ofList he
    obtain ⟨field, -, hread⟩ := exists_of_forall₂ read.flip e.2 (List.of_mem_zip hzip).2
    exact h.field (hmembers _ rfl) hread
  | array read =>
    intro v hv
    obtain ⟨i, hi, hdecode⟩ := exists_of_forall₂ read.flip v hv
    exact hitems _ rfl i hi _ v (f.offers_element _ _ _) hdecode

/-- By induction on the document, for all slots at once. -/
theorem throughout_of_decode (hplain : ∀ m, f.Offers (.through m) → m.isForeign = false) {j : Json}
    (h : f.Instils j p) : f.Imbues j p := by
  -- by induction on the document; the items of the pairs in an array are parts as well
  induction j using Json.parts_induction with
  | step j hitems hpairs hmembers =>
    have hmembers : ∀ members, j = .object members → ∀ m ∈ members, f.Imbues m.2 p := by
      rintro members rfl m hm
      exact hmembers members rfl m hm (h.of_within fun hk => .member hm hk)
    have hthrough : ∀ m v, f.Offers (.through m) → f.decode j (.through m) = .ok v →
        v.Throughout p := by
      intro m v hoffered hdecode
      have hreads := reads_of_decode (hplain m hoffered) hdecode
      refine Value.throughout_iff.2 ⟨h.through .self hoffered hdecode hreads, ?_⟩
      refine h.parts ?_ ?_ hmembers hreads
      · rintro items rfl i hi
        exact hitems items rfl i hi (h.of_within fun hk => .item hi hk)
      · rintro items rfl pair hpair i hi
        exact hpairs items rfl pair hpair i hi (h.of_within fun hk => .item hpair (.item hi hk))
    intro slot v hslot hdecode
    cases passes_of_decode hslot hdecode with
    | null => exact h.throughout_null
    | bool b => exact Value.throughout_iff.2 ⟨h.bool b, trivial⟩
    | string s => exact Value.throughout_iff.2 ⟨h.string s, trivial⟩
    | whole offered decoded => exact hthrough _ v offered decoded
    | payload mem offered decoded => exact hmembers _ rfl _ mem (.through _) v offered decoded

end Factory
end TaggedWire
