import TaggedWire.Factory.Decode
import TaggedWire.Factory.Encode
import TaggedWire.Proofs.Results

/-!
# Coding slot by slot

What a slot asks of a value comes down to what a marshaller does with it.  The equations here say so
for encoding and decoding alike, without the parts that both are made of.

* `encode_tagged`, `encode_declared`, `encode_row`: encoding in a slot, from encoding through a
  marshaller.
* `decode_object_tagged`, `decode_declared`, `decode_row`: the same for decoding.
-/

namespace TaggedWire.Factory

variable (f : Factory)

/-- The slot asks for a marshaller of the factory, or for that of an array. -/
def Offers : Slot → Prop
  | .through m => (∃ id i, f.lookup id = some i ∧ i.marshaller = m) ∨ ∃ shape, m = .array shape
  | .tagged | .declared _ _ | .row _ _ => True

theorem offers_element (component : TypeRef) (dimensions : Nat) (owner : String) :
    f.Offers (.element component dimensions owner) := by
  unfold Slot.element
  split <;> trivial

/-! ### Encoding

The encoder is defined over the parts of a value, each of which is a function of the slot.  Here the
parts are the encodings of the values themselves. -/

/-- The encoders of the parts of a value. -/
def encodedParts : Value → EncodedParts
  | .null | .scalar _ | .string _ | .enumeration _ _ => {}
  | .list items | .set items | .array _ items => { items := items.map f.encode }
  | .map entries => { entries := entries.map fun e => (f.encode e.1, f.encode e.2) }
  | .object _ fields => { fields := fields.map fun e => (e.1, f.encode e.2) }

theorem encode_eq (v : Value) : f.encode v = f.encodeNode v (f.encodedParts v) := by
  cases v with
  | null | scalar _ | string _ | enumeration _ _ => rw [encode, encodedParts]
  | list items => exact encode_list f items
  | set items => exact encode_set f items
  | map entries => exact encode_map f entries
  | array signature items => exact encode_array f signature items
  | object type fields => exact encode_object f type fields

theorem encode_tagged (v : Value) : f.encode v .tagged =
    match v.typeId? with
    | none => .ok Wire.nullText
    | some id => (do
      let m ← f.require id "tagged element"
      let plain ← f.encode v (.through m.marshaller)
      return if m.marshaller.isSelfDescribing then plain else Wire.wrapText id plain) := by
  rw [encode_eq]
  rfl

theorem encode_declared (v : Value) (type : TypeRef) (owner : String) :
    f.encode v (.declared type owner) =
      if v.isNull then
        if type.isNullable then .ok Wire.nullText
        else .error (.mismatch s!"{owner}: {type.id}" "non-null primitive" "null")
      else
        match type with
        | .any => f.encode v .tagged
        | .named name => do
          f.checkAssignable name v owner
          f.encode v .tagged
        | type => (do
          let m ← f.require type.id owner
          f.encode v (.through m.marshaller)) := by
  rw [encode_eq]
  rfl

/-- As any type a value is written as its own. -/
theorem encode_any (v : Value) (owner : String) :
    f.encode v (.declared .any owner) = f.encode v .tagged := by
  rw [encode_declared]
  cases hnull : v.isNull with
  | false => rfl
  | true =>
    rw [encode_tagged]
    cases v with
    | null => rfl
    | _ => cases hnull

/-- As a type that is fixed, a value is written by the marshaller that the type is bound to. -/
theorem encode_static {type : TypeRef} (hstatic : type.isDynamic = false) {v : Value}
    (hnull : v.isNull = false) (owner : String) :
    f.encode v (.declared type owner) = (do
      let i ← f.require type.id owner
      f.encode v (.through i.marshaller)) := by
  rw [encode_declared, hnull]
  cases type with
  | any | named _ => cases hstatic
  | _ => rfl

theorem encode_row (v : Value) (component : TypeRef) (dimensions : Nat) :
    f.encode v (.row component dimensions) =
      match v with
      | .null => .ok Wire.nullText
      | .array _ _ => f.encode v (.through (.array ⟨component, dimensions⟩))
      | v => .error (.mismatch (ArraySignature.of component (dimensions + 1)).id "array"
          v.kind) := by
  rw [encode_eq]
  cases v <;> rfl

theorem encodeItems_eq_ok_iff {slot : Slot} {items : List Encoder} {s : String} :
    encodeItems slot items = .ok s ↔
      ∃ texts, List.Forall₂ (fun item t => item slot = .ok t) items texts ∧
        s = Json.arrayText texts := by
  unfold encodeItems
  rw [bind_eq_ok_iff]
  simp only [mapM_eq_ok_iff]
  exact ⟨fun ⟨texts, h, hs⟩ => ⟨texts, h, (Except.ok.inj hs).symm⟩,
    fun ⟨texts, h, hs⟩ => ⟨texts, h, hs ▸ rfl⟩⟩

theorem encodeRows_eq_ok_iff {component : TypeRef} {dimensions : Nat}
    {signature : ArraySignature} {items : List Encoder} {s : String} :
    encodeRows component dimensions signature items = .ok s ↔
      signature = .of component dimensions ∧
        encodeItems (.element component dimensions signature.id) items = .ok s := by
  unfold encodeRows
  by_cases h : signature = .of component dimensions <;> simp [h]

theorem encodeEntries_eq_ok_iff {entries : List (Encoder × Encoder)} {s : String} :
    encodeEntries entries = .ok s ↔
      ∃ texts, List.Forall₂ (fun e t => ∃ k v, e.1 .tagged = .ok k ∧ e.2 .tagged = .ok v ∧
        t = Json.arrayText [k, v]) entries texts ∧ s = Json.arrayText texts := by
  have hpair : ∀ (e : Encoder × Encoder) (t : String),
      (do return Json.arrayText [← e.1 .tagged, ← e.2 .tagged]) = (.ok t : Except Error String) ↔
        ∃ k v, e.1 .tagged = .ok k ∧ e.2 .tagged = .ok v ∧ t = Json.arrayText [k, v] := by
    intro e t
    constructor
    · intro h
      obtain ⟨k, hk, h⟩ := bind_eq_ok_iff.1 h
      obtain ⟨v, hv, h⟩ := bind_eq_ok_iff.1 h
      exact ⟨k, v, hk, hv, (Except.ok.inj h).symm⟩
    · rintro ⟨k, v, hk, hv, rfl⟩
      exact bind_eq_ok_iff.2 ⟨k, hk, bind_eq_ok_iff.2 ⟨v, hv, rfl⟩⟩
  unfold encodeEntries
  rw [bind_eq_ok_iff]
  constructor
  · rintro ⟨texts, h, hs⟩
    exact ⟨texts, (mapM_eq_ok_iff.1 h).imp fun e t => (hpair e t).1, (Except.ok.inj hs).symm⟩
  · rintro ⟨texts, h, rfl⟩
    exact ⟨texts, mapM_eq_ok_iff.2 (h.imp fun e t => (hpair e t).2), rfl⟩

/-! ### Decoding

The same for documents.  The entries of a map are decoded in pairs, and folded into the map one
after the other. -/

/-- The decoders of the parts of a document. -/
def decodedParts : Json → DecodedParts
  | .null | .bool _ | .number _ | .string _ => {}
  | .array items => { items := items.map f.decode, entries := items.map f.entryDecoder }
  | .object members => { members := members.map fun m => (m.1, f.decode m.2) }

theorem decode_eq (j : Json) : f.decode j = f.decodeNode j (f.decodedParts j) := by
  cases j with
  | null | bool _ | number _ | string _ => rw [decode, decodedParts]
  | array items => exact decode_array f items
  | object members => exact decode_object f members

theorem find?_map {g : α → β} (key : String) (members : List (String × α)) :
    Json.find? key (members.map fun m => (m.1, g m.2)) = (Json.find? key members).map g := by
  unfold Json.find?
  rw [← List.map_reverse, List.find?_map, Option.map_map, Option.map_map]
  rfl

/-- An object that is read as its tag says: what the tag is put around, or the object itself. -/
theorem decode_object_tagged (members : List (String × Json)) :
    f.decode (.object members) .tagged =
      match Wire.tag? (.object members) with
      | none => .error (.mismatch "any" "tagged object" "untagged object")
      | some tag => (do
        let m ← f.require tag "tagged element"
        match Json.find? Wire.valueKey members with
        | some payload =>
          if m.marshaller.accepts payload then f.decode payload (.through m.marshaller)
          else .error (.mismatch tag tag payload.kind)
        | none =>
          if m.marshaller.accepts (.object members) then
            f.decode (.object members) (.through m.marshaller)
          else .error (.mismatch tag tag "object")) := by
  rw [decode_object]
  show f.decodeTagged (.object members) _ = _
  unfold decodeTagged
  cases htag : Wire.tag? (.object members) with
  | none => rfl
  | some tag =>
    -- members and their decoders are found by the same search
    simp only [find?_map]
    show (f.require tag "tagged element").bind _ = (f.require tag "tagged element").bind _
    congr 1
    funext m
    have hget : (Json.object members).get? Wire.valueKey = Json.find? Wire.valueKey members := rfl
    rw [hget]
    cases Json.find? Wire.valueKey members <;> rfl

theorem decode_declared (j : Json) (type : TypeRef) (owner : String) :
    f.decode j (.declared type owner) =
      if j.isNull then decodeNull type owner
      else
        match type with
        | .any => f.decode j .tagged
        | .named name =>
          if Wire.isTagged j then do
            let v ← f.decode j .tagged
            f.checkAssignable name v owner
            return v
          else do
            let m ← f.require name owner
            f.decode j (.through m.marshaller)
        | type => (do
          let m ← f.require type.id owner
          f.decode j (.through m.marshaller)) := by
  rw [decode_eq]
  rfl

/-- As a type that is fixed, a document is read by the marshaller that the type is bound to. -/
theorem decode_static {type : TypeRef} (hstatic : type.isDynamic = false) {j : Json}
    (hnull : j.isNull = false) (owner : String) :
    f.decode j (.declared type owner) = (do
      let i ← f.require type.id owner
      f.decode j (.through i.marshaller)) := by
  rw [decode_declared, hnull]
  cases type with
  | any | named _ => cases hstatic
  | _ => rfl

/-- As any type a document is read as it tells itself. -/
theorem decode_any (j : Json) (owner : String) :
    f.decode j (.declared .any owner) = f.decode j .tagged := by
  rw [decode_declared]
  cases hnull : j.isNull with
  | false => rfl
  | true =>
    cases j with
    | null =>
      rw [decode]
      rfl
    | _ => cases hnull

theorem decode_row (j : Json) (component : TypeRef) (dimensions : Nat) :
    f.decode j (.row component dimensions) =
      if j.isNull then .ok .null
      else f.decode j (.through (.array ⟨component, dimensions⟩)) := by
  rw [decode_eq]
  cases j <;> rfl

theorem decode_null_through (m : Marshaller) : f.decode .null (.through m) = .ok .null := by
  rw [decode]
  cases m <;> rfl

/-- In every slot null is written as null, wherever it can be written at all, and read back. -/
theorem coding_null {slot : Slot} {s : String} (h : f.encode .null slot = .ok s) :
    s = Wire.nullText ∧ f.decode .null slot = .ok .null := by
  rw [encode] at h
  rw [decode]
  -- a declared type may refuse null; no other slot does
  cases slot with
  | tagged | row component dimensions =>
    cases h
    exact ⟨rfl, rfl⟩
  | through m =>
    cases m <;> cases h <;> exact ⟨rfl, rfl⟩
  | declared type owner =>
    show s = Wire.nullText ∧ decodeNull type owner = .ok .null
    change (if type.isNullable then Except.ok Wire.nullText else _) = _ at h
    unfold decodeNull
    split at h
    · next hnullable =>
      cases h
      exact ⟨rfl, if_pos hnullable⟩
    · cases h

theorem decode_scalar_through {j : Json} (hj : j.isNull = false) (p : Primitive) :
    f.decode j (.through (.scalar p)) = Scalar.read p j := by
  rw [decode_eq]
  cases j with
  | null => cases hj
  | _ => rfl

theorem decodeItems_eq_ok_iff {slot : Slot} {items : List Decoder} {vs : List Value} :
    decodeItems slot items = .ok vs ↔
      List.Forall₂ (fun item v => item slot = .ok v) items vs := mapM_eq_ok_iff

/-- The items of a pair are read as key and value. -/
theorem entryDecoder_eq_ok_iff {j : Json} {d : Decoder × Decoder} :
    f.entryDecoder j = .ok d ↔
      ∃ jk jv, j = .array [jk, jv] ∧ d = (f.decode jk, f.decode jv) := by
  unfold entryDecoder
  constructor
  · intro h
    split at h
    · cases h
      exact ⟨_, _, rfl, rfl⟩
    · cases h
    · cases h
  · rintro ⟨jk, jv, rfl, rfl⟩
    rfl

/-- The document is a pair that is read as the entry. -/
def DecodesEntry (f : Factory) (j : Json) (e : Value × Value) : Prop :=
  ∃ k v, j = .array [k, v] ∧ f.decode k .tagged = .ok e.1 ∧ f.decode v .tagged = .ok e.2

/-- Read one more entry of a map, after those so far. -/
def readEntry (f : Factory) (done : List (Value × Value)) (j : Json) :
    Except Error (List (Value × Value)) := do
  let d ← f.entryDecoder j
  let k ← d.1 .tagged
  let v ← d.2 .tagged
  return Value.put k v done

theorem readEntry_eq_ok_iff {done done' : List (Value × Value)} {j : Json} :
    f.readEntry done j = .ok done' ↔ ∃ e, f.DecodesEntry j e ∧ done' = Value.put e.1 e.2 done := by
  unfold readEntry
  constructor
  · intro h
    obtain ⟨d, hpair, h⟩ := bind_eq_ok_iff.1 h
    obtain ⟨k, hk, h⟩ := bind_eq_ok_iff.1 h
    obtain ⟨v, hv, h⟩ := bind_eq_ok_iff.1 h
    cases h
    obtain ⟨jk, jv, rfl, rfl⟩ := f.entryDecoder_eq_ok_iff.1 hpair
    exact ⟨(k, v), ⟨jk, jv, rfl, hk, hv⟩, rfl⟩
  · rintro ⟨⟨k, v⟩, ⟨jk, jv, rfl, hk, hv⟩, rfl⟩
    refine bind_eq_ok_iff.2 ⟨_, f.entryDecoder_eq_ok_iff.2 ⟨jk, jv, rfl, rfl⟩, ?_⟩
    exact bind_eq_ok_iff.2 ⟨k, hk, bind_eq_ok_iff.2 ⟨v, hv, rfl⟩⟩

/-- The entries of a map are read one after the other. -/
theorem decodeEntries_map (items : List Json) :
    decodeEntries (items.map f.entryDecoder) = items.foldlM f.readEntry [] := by
  rw [decodeEntries, List.foldlM_map]
  rfl

/-! ### Objects

An object is written field by field, in the order of declaration, and read field by field into a
table.  What is written or read for one field is a relation between the field and a text or value,
so that whole objects are lists that are related element by element. -/

theorem eq_null_of_decodeNull {type : TypeRef} {owner : String} {v : Value}
    (h : decodeNull type owner = .ok v) : v = .null := by
  unfold decodeNull at h
  split at h
  · exact (Except.ok.inj h).symm
  · cases h

/-- The field of an object on the wire, a missing member counting as null. -/
def readField (type : String) (members : List (String × Json)) (field : Field) :
    Except Error Value :=
  match Json.find? field.name members with
  | some j => f.decode j (.declared field.declared s!"{type}.{field.name}")
  | none => decodeNull field.declared s!"{type}.{field.name}"

/-- The value of a field; one that is not given counts as null. -/
def fieldValue (fields : List (String × Value)) (name : String) : Value :=
  (Entries.get? name fields).getD .null

/-- What holds of null and of all that is given holds of the value of any field. -/
theorem fieldValue_of_forall {p : Value → Prop} {fields : List (String × Value)} (hnull : p .null)
    (hfields : ∀ e ∈ fields, p e.2) (name : String) : p (fieldValue fields name) := by
  unfold fieldValue
  cases hget : Entries.get? name fields with
  | none => exact hnull
  | some v => exact hfields _ (Entries.mem_of_get? hget)

/-- The field of an object, with the text that is written for it. -/
def WritesField (type : String) (fields : List (String × Value)) (field : Field) (t : String) :
    Prop :=
  f.encode (fieldValue fields field.name) (.declared field.declared s!"{type}.{field.name}") =
    .ok t

theorem entries_get?_map {g : α → β} (key : String) (entries : List (String × α)) :
    Entries.get? key (entries.map fun e => (e.1, g e.2)) = (Entries.get? key entries).map g := by
  induction entries with
  | nil => rfl
  | cons e es ih =>
    obtain ⟨k, v⟩ := e
    rw [List.map_cons, Entries.get?, Entries.get?]
    split
    · rfl
    · exact ih

/-- Insertions one after the other make a table. -/
theorem foldlM_insert_eq_ok_iff {fields : List Field} {read : Field → Except Error Value}
    {t : Table Value} {result : List (String × Value)} :
    fields.foldlM (fun done field => do return Entries.insert field.name (← read field) done)
        t.entries = .ok result ↔
      ∃ ws, List.Forall₂ (fun field w => read field = .ok w) fields ws ∧
        result =
          (((fields.map (·.name)).zip ws).foldl (fun t e => t.insert e.1 e.2) t).entries := by
  -- by induction on the fields, for the table that has been filled so far
  induction fields generalizing t with
  | nil =>
    simp only [List.forall₂_nil_left_iff, exists_eq_left]
    constructor
    · intro h
      exact (Except.ok.inj h).symm
    · intro h
      exact h ▸ rfl
  | cons field rest ih =>
    rw [List.foldlM_cons, bind_eq_ok_iff]
    constructor
    · rintro ⟨done, hstep, hrest⟩
      obtain ⟨w, hw, hdone⟩ := bind_eq_ok_iff.1 hstep
      cases hdone
      obtain ⟨ws, hws, rfl⟩ := (ih (t := t.insert field.name w)).1 hrest
      exact ⟨w :: ws, .cons hw hws, rfl⟩
    · rintro ⟨_, hws, rfl⟩
      cases hws with
      | cons hw hws =>
        refine ⟨_, bind_eq_ok_iff.2 ⟨_, hw, rfl⟩, ?_⟩
        exact (ih (t := t.insert field.name _)).2 ⟨_, hws, rfl⟩

theorem decode_object_eq_ok_iff {type : String} {declared : List Field}
    {members : List (String × Json)} {v : Value} :
    f.decode (.object members) (.through (.object type declared)) = .ok v ↔
      ∃ claimed ws, f.claimedType type (.object members) = .ok claimed ∧
        List.Forall₂ (fun field w => f.readField type members field = .ok w)
          (declared.filter (·.writable)) ws ∧
        v = .object claimed
          (Table.ofList (((declared.filter (·.writable)).map (·.name)).zip ws)).entries := by
  -- the decoder of a member is replaced by the decoding of it
  have hstep : f.decode (.object members) (.through (.object type declared)) = (do
      let claimed ← f.claimedType type (.object members)
      let fields ← (declared.filter (·.writable)).foldlM (fun done field => do
        return Entries.insert field.name (← f.readField type members field) done) []
      return .object claimed fields) := by
    rw [decode_object]
    show (f.claimedType type (.object members)).bind _ =
      (f.claimedType type (.object members)).bind _
    congr 1
    funext claimed
    show (List.foldlM _ [] (declared.filter (·.writable)) : Except Error _).bind _ =
      (List.foldlM _ [] (declared.filter (·.writable)) : Except Error _).bind _
    congr 2
    funext done field
    simp only [find?_map, readField]
    cases Json.find? field.name members <;> rfl
  rw [hstep, bind_eq_ok_iff]
  constructor
  · rintro ⟨claimed, hclaimed, h⟩
    obtain ⟨fields, hfields, hv⟩ := bind_eq_ok_iff.1 h
    cases hv
    obtain ⟨ws, hws, rfl⟩ := (foldlM_insert_eq_ok_iff (t := Table.empty)).1 hfields
    exact ⟨claimed, ws, hclaimed, hws, rfl⟩
  · rintro ⟨claimed, ws, hclaimed, hws, rfl⟩
    refine ⟨claimed, hclaimed, bind_eq_ok_iff.2 ⟨_, ?_, rfl⟩⟩
    exact (foldlM_insert_eq_ok_iff (t := Table.empty)).2 ⟨ws, hws, rfl⟩

/-- Members that are named after fields, and otherwise related to them. -/
theorem forall₂_named_iff {P : Field → α → Prop} {fields : List Field}
    {members : List (String × α)} :
    List.Forall₂ (fun field m => m.1 = field.name ∧ P field m.2) fields members ↔
      ∃ xs, List.Forall₂ P fields xs ∧ members = (fields.map (·.name)).zip xs := by
  induction fields generalizing members with
  | nil =>
    simp only [List.forall₂_nil_left_iff, exists_eq_left]
    rfl
  | cons field rest ih =>
    constructor
    · intro h
      cases h with
      | @cons _ m _ ms hm hrest =>
        obtain ⟨xs, hxs, rfl⟩ := ih.1 hrest
        exact ⟨m.2 :: xs, .cons hm.2 hxs, by rw [List.map_cons, List.zip_cons_cons, ← hm.1]⟩
    · rintro ⟨xs, hxs, rfl⟩
      cases hxs with
      | cons hx hrest => exact .cons ⟨rfl, hx⟩ (ih.2 ⟨_, hrest, rfl⟩)

/-- A declared field is written as a member under its name; one that is missing is null. -/
theorem member_eq_ok_iff {type : String} {fields : List (String × Value)} {field : Field}
    {m : String × String} :
    (match Entries.get? field.name (fields.map fun e => (e.1, f.encode e.2)) with
      | some encoder => (do
        return (field.name, ← encoder (.declared field.declared s!"{type}.{field.name}")))
      | none =>
        if field.declared.isNullable then return (field.name, Wire.nullText)
        else .error (.mismatch s!"{type}.{field.name}: {field.declared.id}"
          "non-null primitive" "null")) = (.ok m : Except Error (String × String)) ↔
      m.1 = field.name ∧ f.WritesField type fields field m.2 := by
  obtain ⟨name, t⟩ := m
  rw [entries_get?_map, WritesField, fieldValue]
  cases Entries.get? field.name fields with
  | some v =>
    simp only [Option.map_some, Option.getD_some, bind_eq_ok_iff]
    constructor
    · rintro ⟨t', ht, heq⟩
      cases heq
      exact ⟨rfl, ht⟩
    · rintro ⟨rfl, ht⟩
      exact ⟨t, ht, rfl⟩
  -- a missing field is written like one that is null
  | none =>
    simp only [Option.map_none, Option.getD_none, encode_declared, Value.isNull, if_true]
    split
    · constructor
      · intro h
        cases h
        exact ⟨rfl, rfl⟩
      · rintro ⟨rfl, h⟩
        cases h
        rfl
    · simp

/-- Exactly the objects whose claim is accepted, whose fields are all declared and whose readable
fields can be written are written by an object marshaller. -/
theorem encode_object_eq_ok_iff {type : String} {declared : List Field} {claimed : String}
    {fields : List (String × Value)} {s : String} :
    f.encode (.object claimed fields) (.through (.object type declared)) = .ok s ↔
      f.acceptsClaim type claimed = true ∧
      (∀ e ∈ fields, ∃ field ∈ declared, field.name = e.1) ∧
      ∃ texts, List.Forall₂ (f.WritesField type fields) (declared.filter (·.readable)) texts ∧
        s = Wire.taggedText claimed (((declared.filter (·.readable)).map (·.name)).zip texts) := by
  -- the search for an undeclared field ends with none exactly if all are declared
  have hunknown : ((fields.map fun e => (e.1, f.encode e.2)).find? fun e =>
      declared.all fun field => field.name ≠ e.1) = none ↔
        ∀ e ∈ fields, ∃ field ∈ declared, field.name = e.1 := by
    simp
  rw [encode_object]
  show f.encodeFields type declared claimed _ = _ ↔ _
  unfold encodeFields
  rw [guard_eq_ok_iff, Bool.not_eq_true', Bool.not_eq_false]
  apply and_congr_right
  intro _
  constructor
  · intro h
    split at h
    · cases h
    · next hnone =>
      obtain ⟨members, hmembers, hs⟩ := bind_eq_ok_iff.1 h
      cases hs
      refine ⟨hunknown.1 hnone, ?_⟩
      obtain ⟨texts, htexts, rfl⟩ := forall₂_named_iff.1
        ((mapM_eq_ok_iff.1 hmembers).imp fun field m => (member_eq_ok_iff f).1)
      exact ⟨texts, htexts, rfl⟩
  · rintro ⟨hknown, texts, htexts, rfl⟩
    split
    · next hsome => cases hsome.symm.trans (hunknown.2 hknown)
    · refine bind_eq_ok_iff.2 ⟨_, mapM_eq_ok_iff.2 ?_, rfl⟩
      exact (forall₂_named_iff.2 ⟨texts, htexts, rfl⟩).imp fun field m => (member_eq_ok_iff f).2

end TaggedWire.Factory
