import TaggedWire.Proofs.Factory.Coding
import TaggedWire.Proofs.Factory.Generated
import TaggedWire.Proofs.Marshaller.Scalar
import TaggedWire.Proofs.Table
import TaggedWire.Proofs.Value.Parts

/-!
# Values are read back

What is written in a slot is read back in that slot, as a value that is like the one written.  The
proof follows the value: the texts of its parts denote documents that are read as parts like them,
and composing the texts composes the documents.  Which slot a part stands in does not matter, so the
induction carries all slots at once.  What makes values alike is left open; it has to be found out
part by part.

* `Value.Likeness`: what is asked of such a relation.
* `Recovery`: what the relation asks of scalars, objects and the factory.
* `Recovery.recovers`: what is written in any slot is read in that slot.
-/

namespace TaggedWire

/-- The document tells the type of the value without a tag around it. -/
def Value.SelfDescribed (v : Value) (j : Json) : Prop :=
  match v with
  | .scalar (.bool b) => j = .bool b
  | .string s => j = .string s
  | v => ∃ members, j = .object members ∧ Wire.tag? j = v.typeId? ∧
      Json.find? Wire.valueKey members = none

/-- Values are alike if they are of one shape and their parts are alike. -/
structure Value.Likeness (R : Value → Value → Prop) : Prop where
  typeId? : ∀ {v w : Value}, R v w → v.typeId? = w.typeId?
  unequal : ∀ {vs ws : List Value}, List.Forall₂ R vs ws → Value.Unequal ws → Value.Unequal vs
  null : R .null .null
  bool : ∀ b, R (.scalar (.bool b)) (.scalar (.bool b))
  string : ∀ s, R (.string s) (.string s)
  list : ∀ {vs ws : List Value}, List.Forall₂ R vs ws → R (.list vs) (.list ws)
  set : ∀ {vs ws : List Value}, List.Forall₂ R vs ws → R (.set vs) (.set ws)
  map : ∀ {vs ws : List (Value × Value)},
    List.Forall₂ (fun v w => R v.1 w.1 ∧ R v.2 w.2) vs ws → R (.map vs) (.map ws)
  array : ∀ (s : ArraySignature) {vs ws : List Value}, List.Forall₂ R vs ws →
    R (.array s vs) (.array s ws)
  enumeration : ∀ type variant, R (.enumeration type variant) (.enumeration type variant)

theorem Value.Likeness.isNull {R : Value → Value → Prop} (hR : Likeness R) {v w : Value}
    (h : R v w) : v.isNull = w.isNull := by
  rw [Value.isNull_eq_isNone, Value.isNull_eq_isNone, hR.typeId? h]

namespace Factory

/-- The fields of objects that are read are written, under names of their own, and a variable
identifies its instance. -/
structure Mirrors (f : Factory) : Prop where
  usual : f.Usual
  identified : ∀ a b i j, f.lookup a = some i → f.lookup b = some j →
    i.variableName = j.variableName → i = j
  nodup : ∀ type declared, f.Offers (.through (.object type declared)) →
    (declared.map (·.name)).Nodup
  readable : ∀ type declared, f.Offers (.through (.object type declared)) →
    ∀ field ∈ declared, field.writable = true → field.readable = true

variable {f : Factory}

theorem accepts_of_usual {m : Marshaller} (h : m.Usual) (j : Json) : m.accepts j = true := by
  cases m with
  | foreign _ => exact h.elim
  | _ => rfl

/-- A field of an object, with its document on the wire and the value that this is read as. -/
structure FieldRead where
  field : Field
  document : Json
  value : Value

/-- What is written for the value in the slot is read there as a value like it. -/
def Recovers (f : Factory) (R : Value → Value → Prop) (v : Value) (slot : Slot) : Prop :=
  ∀ s, f.encode v slot = .ok s → ∃ j w, Json.Written s j ∧ f.decode j slot = .ok w ∧ R w v

/-- What the marshaller writes for the value is read through it as a value like that, and tells its
type if no tag is put around it. -/
def RecoversThrough (f : Factory) (R : Value → Value → Prop) (v : Value) (m : Marshaller) : Prop :=
  ∀ s, f.encode v (.through m) = .ok s → ∃ j w, Json.Written s j ∧
    f.decode j (.through m) = .ok w ∧ R w v ∧ (m.isSelfDescribing = true → v.SelfDescribed j)

/-- Values with a property are recovered by the factory, up to likeness: so are the scalars, and an
object is like what is put together from fields that are like its own. -/
structure Recovery (f : Factory) (R : Value → Value → Prop) (p : Value → Prop) : Prop
    extends Value.Likeness R where
  mirrors : f.Mirrors
  proper : ∀ {v : Value}, p v → v.Proper
  scalar : ∀ {x : Scalar} {t : String}, p (.scalar x) → x.text = .ok t →
    ∃ j y, Json.Written t j ∧ Scalar.readScalar x.primitive j = .ok y ∧ R (.scalar y) (.scalar x)
  object : ∀ {type claimed : String} {declared : List Field} {fields : List (String × Value)}
    {rs : List FieldRead}, p (.object claimed fields) →
    f.Offers (.through (.object type declared)) → f.acceptsClaim type claimed = true →
    (∀ e ∈ fields, ∃ field ∈ declared, field.name = e.1) →
    rs.map (·.field) = declared.filter (·.writable) →
    (∀ r ∈ rs, R r.value (fieldValue fields r.field.name)) →
      R (.object claimed (Table.ofList (rs.map fun r => (r.field.name, r.value))).entries)
        (.object claimed fields)

variable {R : Value → Value → Prop} {p : Value → Prop}

/-! ### Null, scalars, strings

These have no parts, so each marshaller is looked at by itself. -/

/-- Only null is read from null. -/
theorem isNull_of_decode {j : Json} {slot : Slot} {v : Value} (h : f.decode j slot = .ok v)
    (hnull : v.isNull = false) : j.isNull = false := by
  -- only `null` is in question: every slot that reads it yields `null`
  cases j with
  | null =>
    have hv : v = .null := by
      cases slot with
      | through m =>
        rw [decode_null_through] at h
        exact (Except.ok.inj h).symm
      | declared type owner =>
        rw [decode_declared] at h
        exact eq_null_of_decodeNull h
      | tagged | row _ _ =>
        rw [decode] at h
        exact (Except.ok.inj h).symm
    rw [hv] at hnull
    cases hnull
  | _ => rfl

theorem recovers_null (hR : Value.Likeness R) (slot : Slot) : f.Recovers R .null slot := by
  intro s h
  obtain ⟨rfl, hdecode⟩ := f.coding_null h
  exact ⟨.null, .null, Json.written_null, hdecode, hR.null⟩

theorem recoversThrough_scalar (h : f.Recovery R p) {x : Scalar} (hx : p (.scalar x))
    {m : Marshaller} (hm : m.Usual) : f.RecoversThrough R (.scalar x) m := by
  intro s hs
  rw [encode] at hs
  cases m with
  | scalar p =>
    change (if x.primitive = p then x.text else Except.error _) = _ at hs
    split at hs
    · next hp =>
      -- the marshaller is that of the primitive, and the rest is what `Recovery.scalar` asks
      subst hp
      obtain ⟨j, y, hwritten, hread, hlike⟩ := h.scalar hx hs
      -- only a truth value tells its type by its text alone
      refine ⟨j, .scalar y, hwritten, ?_, hlike, ?_⟩
      · rw [f.decode_scalar_through (Scalar.isNull_of_readScalar hread), Scalar.read, hread]
        rfl
      · intro hself
        cases x with
        | bool b =>
          cases hs
          exact hwritten.unique (Json.written_bool b)
        | _ => cases hself
    · cases hs
  | foreign _ => exact hm.elim
  | _ => cases hs

theorem recoversThrough_string (hR : Value.Likeness R) (s : String) {m : Marshaller}
    (hm : m.Usual) : f.RecoversThrough R (.string s) m := by
  intro t h
  rw [encode] at h
  cases m with
  | string =>
    cases h
    refine ⟨.string s, .string s, Json.written_quote s, ?_, hR.string s, fun _ => rfl⟩
    rw [decode]
    rfl
  | foreign _ => exact hm.elim
  | _ => cases h

/-! ### Lists, sets, arrays

The elements are read one by one.  Reading a set leaves out what is repeated, and as the elements
written are unequal, those read are too. -/

theorem recovers_items {items : List Value} {slot : Slot} {s : String}
    (h : ∀ v ∈ items, f.Recovers R v slot)
    (hs : encodeItems slot (items.map f.encode) = .ok s) :
    ∃ js ws, Json.Written s (.array js) ∧ decodeItems slot (js.map f.decode) = .ok ws ∧
      List.Forall₂ R ws items := by
  obtain ⟨texts, htexts, rfl⟩ := encodeItems_eq_ok_iff.1 hs
  rw [List.forall₂_map_left_iff] at htexts
  have hreads : ∃ js ws, List.Forall₂ Json.Written texts js ∧
      List.Forall₂ (fun j w => f.decode j slot = .ok w) js ws ∧ List.Forall₂ R ws items := by
    -- by induction on the texts, along the elements they were written for
    clear hs
    induction htexts with
    | nil => exact ⟨[], [], .nil, .nil, .nil⟩
    | cons ht _ ih =>
      obtain ⟨hv, hrest⟩ := List.forall_mem_cons.1 h
      obtain ⟨j, w, hwritten, hdecode, hlike⟩ := hv _ ht
      obtain ⟨js, ws, hwrittens, hdecodes, hlikes⟩ := ih hrest
      exact ⟨j :: js, w :: ws, .cons hwritten hwrittens, .cons hdecode hdecodes,
        .cons hlike hlikes⟩
  obtain ⟨js, ws, hwritten, hdecode, hlike⟩ := hreads
  exact ⟨js, ws, Json.written_array hwritten,
    decodeItems_eq_ok_iff.2 (List.forall₂_map_left_iff.2 hdecode), hlike⟩

theorem recoversThrough_list (hR : Value.Likeness R) {items : List Value}
    (h : ∀ v ∈ items, f.Recovers R v .tagged) {m : Marshaller} (hm : m.Usual) :
    f.RecoversThrough R (.list items) m := by
  intro s hs
  rw [encode_list] at hs
  cases m with
  | list =>
    obtain ⟨js, ws, hwritten, hdecode, hlike⟩ := recovers_items h hs
    refine ⟨.array js, .list ws, hwritten, ?_, hR.list hlike, nofun⟩
    rw [decode_array]
    show (decodeItems .tagged (js.map f.decode)).bind _ = _
    rw [hdecode]
    rfl
  | foreign _ => exact hm.elim
  | _ => cases hs

theorem recoversThrough_set (hR : Value.Likeness R) {items : List Value}
    (h : ∀ v ∈ items, f.Recovers R v .tagged) (hproper : Value.Unequal items) {m : Marshaller}
    (hm : m.Usual) : f.RecoversThrough R (.set items) m := by
  intro s hs
  rw [encode_set] at hs
  cases m with
  | set =>
    obtain ⟨js, ws, hwritten, hdecode, hlike⟩ := recovers_items h hs
    refine ⟨.array js, .set ws, hwritten, ?_, hR.set hlike, nofun⟩
    rw [decode_array]
    show (decodeItems .tagged (js.map f.decode)).bind _ = _
    rw [hdecode]
    show Except.ok (Value.set (Value.distinct ws)) = _
    -- what was read is as unequal as what was written, so nothing is dropped
    rw [Value.distinct_of_unequal (hR.unequal hlike hproper)]
  | foreign _ => exact hm.elim
  | _ => cases hs

theorem recoversThrough_array (hR : Value.Likeness R) {signature : ArraySignature}
    {items : List Value} (h : ∀ v ∈ items, ∀ slot, f.Offers slot → f.Recovers R v slot)
    {m : Marshaller} (hm : m.Usual) : f.RecoversThrough R (.array signature items) m := by
  intro s hs
  rw [encode_array] at hs
  cases m with
  | array r =>
    obtain ⟨rfl, hs⟩ := encodeRows_eq_ok_iff.1 hs
    obtain ⟨js, ws, hwritten, hdecode, hlike⟩ :=
      recovers_items (fun v hv => h v hv _ (f.offers_element _ _ _)) hs
    refine ⟨.array js, .array (.of r.component r.dimensions) ws, hwritten, ?_, hR.array _ hlike,
      nofun⟩
    rw [decode_array]
    show (decodeItems _ (js.map f.decode)).bind _ = _
    rw [hdecode]
    rfl
  | foreign _ => exact hm.elim
  | _ => cases hs

/-! ### Maps

The entries are read from left to right into a map that is being built.  With unequal keys every
entry is put behind those before it. -/

theorem recovers_entries {entries : List (Value × Value)} {texts : List String}
    (h : ∀ e ∈ entries, f.Recovers R e.1 .tagged ∧ f.Recovers R e.2 .tagged)
    (hencode : List.Forall₂ (fun e t => ∃ k v, f.encode e.1 .tagged = .ok k ∧
      f.encode e.2 .tagged = .ok v ∧ t = Json.arrayText [k, v]) entries texts) :
    ∃ js ws, List.Forall₂ Json.Written texts js ∧ List.Forall₂ f.DecodesEntry js ws ∧
      List.Forall₂ (fun w e => R w.1 e.1 ∧ R w.2 e.2) ws entries := by
  induction hencode with
  | nil => exact ⟨[], [], .nil, .nil, .nil⟩
  | cons ht _ ih =>
    obtain ⟨⟨hkey, hvalue⟩, hrest⟩ := List.forall_mem_cons.1 h
    obtain ⟨tk, tv, htk, htv, rfl⟩ := ht
    obtain ⟨jk, wk, hwk, hk, hlikek⟩ := hkey tk htk
    obtain ⟨jv, wv, hwv, hv, hlikev⟩ := hvalue tv htv
    obtain ⟨js, ws, hwritten, hdecode, hlike⟩ := ih hrest
    exact ⟨.array [jk, jv] :: js, (wk, wv) :: ws,
      .cons (Json.written_array (.cons hwk (.cons hwv .nil))) hwritten,
      .cons ⟨jk, jv, rfl, hk, hv⟩ hdecode, .cons ⟨hlikek, hlikev⟩ hlike⟩

/-- Entries with unequal keys are put one behind the other. -/
theorem decodeEntries_of_unequal {js : List Json} {ws : List (Value × Value)}
    (h : List.Forall₂ f.DecodesEntry js ws) (hunequal : Value.Unequal (ws.map (·.1))) :
    decodeEntries (js.map f.entryDecoder) = .ok ws := by
  -- the entries already read are kept in front of those that follow
  have hfold : ∀ done : List (Value × Value), Value.Unequal ((done ++ ws).map (·.1)) →
      js.foldlM f.readEntry done = .ok (done ++ ws) := by
    clear hunequal
    induction h with
    | nil =>
      intro done _
      rw [List.append_nil]
      rfl
    | @cons j e js ws hj _ ih =>
      intro done hdone
      have hput : Value.put e.1 e.2 done = done ++ [e] := by
        apply Value.put_of_unequal
        intro d hd
        rw [List.map_append] at hdone
        exact (List.pairwise_append.1 hdone).2.2 d.1 (List.mem_map_of_mem hd) e.1
          List.mem_cons_self
      rw [List.foldlM_cons]
      refine bind_eq_ok_iff.2 ⟨done ++ [e], f.readEntry_eq_ok_iff.2 ⟨e, hj, hput.symm⟩, ?_⟩
      rw [ih (done ++ [e]) (by simpa using hdone)]
      simp
  rw [decodeEntries_map]
  exact hfold [] hunequal

theorem recoversThrough_map (hR : Value.Likeness R) {entries : List (Value × Value)}
    (h : ∀ e ∈ entries, f.Recovers R e.1 .tagged ∧ f.Recovers R e.2 .tagged)
    (hproper : Value.Unequal (entries.map (·.1))) {m : Marshaller} (hm : m.Usual) :
    f.RecoversThrough R (.map entries) m := by
  intro s hs
  rw [encode_map] at hs
  cases m with
  | map =>
    obtain ⟨texts, htexts, rfl⟩ := encodeEntries_eq_ok_iff.1 hs
    obtain ⟨js, ws, hwritten, hdecode, hlike⟩ :=
      recovers_entries h (List.forall₂_map_left_iff.1 htexts)
    -- the keys read are like those written, so they are unequal as well
    have hkeys : List.Forall₂ R (ws.map (·.1)) (entries.map (·.1)) := by
      rw [List.forall₂_map_left_iff, List.forall₂_map_right_iff]
      exact hlike.imp fun _ _ he => he.1
    refine ⟨.array js, .map ws, Json.written_array hwritten, ?_, hR.map hlike, nofun⟩
    rw [decode_array]
    show (decodeEntries (js.map f.entryDecoder)).bind _ = _
    rw [decodeEntries_of_unequal hdecode (hR.unequal hkeys hproper)]
    rfl
  | foreign _ => exact hm.elim
  | _ => cases hs

/-! ### Enums

The document opens with the tag that the value claims, and this is the claim that is read. -/

theorem claimedType_of_tag? {type : String} (claimed : String) {j : Json}
    (htag : Wire.tag? j = some claimed)
    (haccepts : f.acceptsClaim type claimed = true) : f.claimedType type j = .ok claimed := by
  rw [claimedType, htag]
  exact if_pos haccepts

theorem recoversThrough_enumeration (hR : Value.Likeness R) (claimed variant : String)
    {m : Marshaller} (hm : m.Usual) : f.RecoversThrough R (.enumeration claimed variant) m := by
  intro s hs
  rw [encode] at hs
  cases m with
  | enumeration type variants =>
    change f.encodeConstant type variants claimed variant = _ at hs
    obtain ⟨haccepts, hs⟩ := guard_eq_ok_iff.1 hs
    have haccepts : f.acceptsClaim type claimed = true := by simpa using haccepts
    split at hs
    · next hmem =>
      cases hs
      -- the text names the claimed type, which the marshaller that wrote it accepts
      have hwritten : Json.Written
          (Wire.taggedText claimed [(Wire.constantKey, Json.quote variant)])
          (.object [(Wire.typeKey, .string claimed), (Wire.constantKey, .string variant)]) :=
        Json.written_object (.cons ⟨rfl, Json.written_quote claimed⟩
          (.cons ⟨rfl, Json.written_quote variant⟩ .nil))
      refine ⟨_, .enumeration claimed variant, hwritten, ?_, hR.enumeration _ _,
        fun _ => ⟨_, rfl, rfl, rfl⟩⟩
      rw [decode_object]
      show (f.claimedType type _).bind _ = _
      rw [claimedType_of_tag? claimed rfl haccepts]
      exact if_pos hmem
    · cases hs
  | foreign _ => exact hm.elim
  | _ => cases hs

/-! ### Objects

What is written are the fields that can be read, and what is read are those that can be written.
A `FieldRead` keeps the declaration of a field together with its document and the value read, so
that the two selections can be compared. -/

theorem recovers_fields (hR : Value.Likeness R) {type : String} {fields : List (String × Value)}
    {declared : List Field} {texts : List String}
    (h : ∀ e ∈ fields, ∀ slot, f.Offers slot → f.Recovers R e.2 slot)
    (hwrites : List.Forall₂ (f.WritesField type fields) declared texts) :
    ∃ rs : List FieldRead, rs.map (·.field) = declared ∧
      List.Forall₂ Json.Written texts (rs.map (·.document)) ∧
        ∀ r ∈ rs, f.decode r.document
          (.declared r.field.declared s!"{type}.{r.field.name}") = .ok r.value ∧
            R r.value (fieldValue fields r.field.name) := by
  -- by induction on the declared fields; a field the value lacks is written as `null`
  induction hwrites with
  | nil => exact ⟨[], rfl, .nil, fun _ h => absurd h List.not_mem_nil⟩
  | @cons field t declared texts ht _ ih =>
    obtain ⟨rs, rfl, hwritten, hrs⟩ := ih
    have hvalue := fieldValue_of_forall (p := fun v => ∀ slot, f.Offers slot → f.Recovers R v slot)
      (fun slot _ => recovers_null hR slot) h field.name
    obtain ⟨j, w, hj, hdecode, hlike⟩ := hvalue (.declared _ _) trivial t ht
    exact ⟨⟨field, j, w⟩ :: rs, rfl, .cons hj hwritten,
      List.forall_mem_cons.2 ⟨⟨hdecode, hlike⟩, hrs⟩⟩

/-- The members of an object on the wire: its tag, and the documents of its fields. -/
def taggedMembers (claimed : String) (rs : List FieldRead) : List (String × Json) :=
  (Wire.typeKey, .string claimed) :: rs.map fun r => (r.field.name, r.document)

theorem written_taggedText {texts : List String} {rs : List FieldRead}
    (h : List.Forall₂ Json.Written texts (rs.map (·.document))) (claimed : String) :
    Json.Written (Wire.taggedText claimed (((rs.map (·.field)).map (·.name)).zip texts))
      (.object (taggedMembers claimed rs)) := by
  have hmembers := Json.writtenMember_zip ((rs.map (·.field)).map (·.name)) h
  rw [List.map_map, List.zip_map'] at hmembers
  rw [List.map_map]
  exact Json.written_object (.cons ⟨rfl, Json.written_quote claimed⟩ hmembers)

/-- The keys of a tagged object differ, for a field has no reserved name. -/
theorem taggedMembers_keys {rs : List FieldRead} (claimed : String)
    (hnames : ∀ r ∈ rs, IsFieldName r.field.name)
    (hnodup : (rs.map (·.field.name)).Nodup) :
    ((taggedMembers claimed rs).map (·.1)).Nodup ∧
      Wire.valueKey ∉ (taggedMembers claimed rs).map (·.1) := by
  have hkeys : (taggedMembers claimed rs).map (·.1) = Wire.typeKey :: rs.map (·.field.name) := by
    rw [taggedMembers, List.map_cons, List.map_map]
    rfl
  have hreserved : ∀ key : String, key.toList.head? = some '^' →
      key ∉ rs.map (·.field.name) := by
    rintro key hkey hmem
    obtain ⟨r, hr, rfl⟩ := List.mem_map.1 hmem
    exact (hnames r hr).2 hkey
  rw [hkeys, List.mem_cons, not_or]
  exact ⟨List.nodup_cons.2 ⟨hreserved _ rfl, hnodup⟩, by decide, hreserved _ rfl⟩

theorem tag?_taggedMembers {claimed : String} {rs : List FieldRead}
    (hdistinct : ((taggedMembers claimed rs).map (·.1)).Nodup) :
    Wire.tag? (.object (taggedMembers claimed rs)) = some claimed := by
  show (Json.find? Wire.typeKey (taggedMembers claimed rs)).bind Json.string? = _
  rw [Json.find?_of_mem hdistinct List.mem_cons_self]
  rfl

/-- Each field is looked up under its own key, which no other member has. -/
theorem readField_taggedMembers {claimed : String} {rs : List FieldRead}
    (hdistinct : ((taggedMembers claimed rs).map (·.1)).Nodup) {r : FieldRead} (hr : r ∈ rs)
    (type : String) : f.readField type (taggedMembers claimed rs) r.field =
      f.decode r.document (.declared r.field.declared s!"{type}.{r.field.name}") := by
  have hmem : (r.field.name, r.document) ∈ taggedMembers claimed rs :=
    List.mem_cons_of_mem _ (List.mem_map_of_mem hr)
  rw [readField, Json.find?_of_mem hdistinct hmem]

/-- Of the fields that are written, those that are read are found again. -/
theorem decode_taggedMembers {type claimed : String} {declared : List Field} {rs : List FieldRead}
    (haccepts : f.acceptsClaim type claimed = true)
    (hdistinct : ((taggedMembers claimed rs).map (·.1)).Nodup)
    (hwritable : (rs.filter (·.field.writable)).map (·.field) = declared.filter (·.writable))
    (hdecoded : ∀ r ∈ rs, f.decode r.document
      (.declared r.field.declared s!"{type}.{r.field.name}") = .ok r.value) :
    f.decode (.object (taggedMembers claimed rs)) (.through (.object type declared)) =
      .ok (.object claimed (Table.ofList
        ((rs.filter (·.field.writable)).map fun r => (r.field.name, r.value))).entries) := by
  -- each field is found under its name, and no other member has that name
  have hreads : List.Forall₂
      (fun field w => f.readField type (taggedMembers claimed rs) field = .ok w)
      (declared.filter (·.writable)) ((rs.filter (·.field.writable)).map (·.value)) := by
    rw [← hwritable, List.forall₂_map_left_iff, List.forall₂_map_right_iff, List.forall₂_same]
    intro r hr
    have hr := (List.mem_filter.1 hr).1
    rw [readField_taggedMembers hdistinct hr]
    exact hdecoded r hr
  have hdecode := (decode_object_eq_ok_iff f).2
    ⟨claimed, _, claimedType_of_tag? claimed (tag?_taggedMembers hdistinct) haccepts, hreads, rfl⟩
  rwa [← hwritable, List.map_map, List.zip_map'] at hdecode

theorem recoversThrough_object (h : f.Recovery R p) {claimed : String}
    {fields : List (String × Value)} (hobject : p (.object claimed fields))
    (hfields : ∀ e ∈ fields, ∀ slot, f.Offers slot → f.Recovers R e.2 slot) {m : Marshaller}
    (hm : f.Offers (.through m)) : f.RecoversThrough R (.object claimed fields) m := by
  intro s hs
  have husual := h.mirrors.usual.of_offers hm
  cases m with
  | object type declared =>
    obtain ⟨haccepts, hknown, texts, htexts, rfl⟩ := (encode_object_eq_ok_iff f).1 hs
    obtain ⟨rs, hdeclared, hwritten, hrs⟩ := recovers_fields h.toLikeness hfields htexts
    have hnames : ∀ r ∈ rs, IsFieldName r.field.name := by
      intro r hr
      have hfield : r.field ∈ declared.filter (·.readable) := hdeclared ▸ List.mem_map_of_mem hr
      exact husual r.field (List.mem_filter.1 hfield).1
    have hnodup : (rs.map (·.field.name)).Nodup := by
      have hnodup : ((declared.filter (·.readable)).map (·.name)).Nodup :=
        (h.mirrors.nodup type declared hm).sublist (List.filter_sublist.map _)
      rwa [← hdeclared, List.map_map] at hnodup
    obtain ⟨hdistinct, hvalue⟩ := taggedMembers_keys claimed hnames hnodup
    -- the fields that are read have all been written
    have hwritable : (rs.filter (·.field.writable)).map (·.field) =
        declared.filter (·.writable) := by
      have hfilter : rs.filter (·.field.writable) = rs.filter ((·.writable) ∘ (·.field)) := rfl
      rw [hfilter, ← List.filter_map, hdeclared, List.filter_filter]
      refine List.filter_congr fun field hfield => ?_
      cases hw : field.writable with
      | false => rfl
      | true =>
        rw [h.mirrors.readable type declared hm field hfield hw]
        rfl
    rw [← hdeclared]
    refine ⟨_, _, written_taggedText hwritten claimed,
      decode_taggedMembers haccepts hdistinct hwritable fun r hr => (hrs r hr).1, ?_,
      fun _ => ⟨_, rfl, tag?_taggedMembers hdistinct, Json.find?_eq_none hvalue⟩⟩
    exact h.object hobject hm haccepts hknown hwritable
      fun r hr => (hrs r (List.mem_filter.1 hr).1).2
  | foreign _ => exact husual.elim
  | _ =>
    rw [encode_object] at hs
    cases hs

/-! ### All slots

A slot adds a tag, or asks for one, and then hands the value to a marshaller. -/

/-- A tag around a document hands it to the marshaller of the tag. -/
theorem decode_wrapped {id : String} {i : Instance} (hlookup : f.lookup id = some i) {j : Json}
    (haccepts : i.marshaller.accepts j = true) :
    f.decode (.object [(Wire.typeKey, .string id), (Wire.valueKey, j)]) .tagged =
      f.decode j (.through i.marshaller) := by
  rw [decode_object_tagged]
  show (f.require id "tagged element").bind _ = _
  rw [(f.require_eq_ok_iff id _ i).2 hlookup]
  exact if_pos haccepts

/-- A document with a tag of its own is read by the marshaller of that tag. -/
theorem decode_selfTagged {id : String} {i : Instance} (hlookup : f.lookup id = some i)
    {members : List (String × Json)} (haccepts : i.marshaller.accepts (.object members) = true)
    (htag : Wire.tag? (.object members) = some id)
    (hvalue : Json.find? Wire.valueKey members = none) :
    f.decode (.object members) .tagged = f.decode (.object members) (.through i.marshaller) := by
  rw [decode_object_tagged, htag, hvalue]
  show (f.require id "tagged element").bind _ = _
  rw [(f.require_eq_ok_iff id _ i).2 hlookup]
  exact if_pos haccepts

/-- The document carries a tag, or the marshaller of the value's own type reads it as it is. -/
def TagOrPlain (f : Factory) (R : Value → Value → Prop) (v : Value) (j : Json) : Prop :=
  Wire.isTagged j = true ∨ ∃ id i w, v.typeId? = some id ∧ f.lookup id = some i ∧
    f.decode j (.through i.marshaller) = .ok w ∧ R w v

theorem recovers_tagged (hR : Value.Likeness R) (hf : f.Usual) {v : Value}
    (h : ∀ m, f.Offers (.through m) → f.RecoversThrough R v m) (hnull : v.isNull = false)
    {s : String} (hs : f.encode v .tagged = .ok s) :
    ∃ j w, Json.Written s j ∧ f.decode j .tagged = .ok w ∧ R w v ∧ f.TagOrPlain R v j := by
  rw [encode_tagged] at hs
  cases hid : v.typeId? with
  | none =>
    rw [Value.typeId?_eq_none_iff.1 hid] at hnull
    cases hnull
  | some id =>
    rw [hid] at hs
    obtain ⟨i, hrequire, hs⟩ := bind_eq_ok_iff.1 hs
    obtain ⟨plain, hplain, hs⟩ := bind_eq_ok_iff.1 hs
    have hlookup := (f.require_eq_ok_iff id _ i).1 hrequire
    have haccepts := accepts_of_usual (hf id i hlookup)
    obtain ⟨j, w, hwritten, hdecode, hlike, hdescribed⟩ :=
      h i.marshaller (.inl ⟨id, i, hlookup, rfl⟩) plain hplain
    -- a marshaller that describes itself writes no tag around its text
    cases hself : i.marshaller.isSelfDescribing with
    | true =>
      rw [hself, if_pos rfl] at hs
      cases hs
      have hdescribed := hdescribed hself
      have hplain : f.TagOrPlain R v j := .inr ⟨id, i, w, hid, hlookup, hdecode, hlike⟩
      unfold Value.SelfDescribed at hdescribed
      split at hdescribed
      · subst hdescribed
        exact ⟨_, _, hwritten, by rw [decode]; rfl, hR.bool _, hplain⟩
      · subst hdescribed
        exact ⟨_, _, hwritten, by rw [decode]; rfl, hR.string _, hplain⟩
      · obtain ⟨members, rfl, htag, hvalue⟩ := hdescribed
        have htagged := decode_selfTagged hlookup (haccepts _) (htag.trans hid) hvalue
        exact ⟨_, w, hwritten, htagged.trans hdecode, hlike, hplain⟩
    | false =>
      rw [hself] at hs
      cases hs
      exact ⟨.object [(Wire.typeKey, .string id), (Wire.valueKey, j)], w,
        Json.written_object (.cons ⟨rfl, Json.written_quote id⟩ (.cons ⟨rfl, hwritten⟩ .nil)),
        (decode_wrapped hlookup (haccepts j)).trans hdecode, hlike, .inl rfl⟩

/-- A value may stand for a named type only if its own type is bound to the same instance. -/
theorem lookup_of_checkAssignable (hf : f.Mirrors) {v : Value} {name owner id : String}
    {i : Instance} (h : f.checkAssignable name v owner = .ok ()) (hid : v.typeId? = some id)
    (hi : f.lookup id = some i) : f.lookup name = some i := by
  unfold checkAssignable at h
  rw [hid] at h
  obtain ⟨expected, hexpected, h⟩ := bind_eq_ok_iff.1 h
  obtain ⟨found, hfound, h⟩ := bind_eq_ok_iff.1 h
  split at h
  · next hsame =>
    have hexpected := (f.require_eq_ok_iff name owner expected).1 hexpected
    have hfound := (f.require_eq_ok_iff id owner found).1 hfound
    rw [hi] at hfound
    cases hfound
    exact hexpected.trans (congrArg some (hf.identified _ _ _ _ hexpected hi hsame))
  · cases h

theorem recovers_named (hR : Value.Likeness R) (hf : f.Mirrors) {v : Value}
    (h : ∀ m, f.Offers (.through m) → f.RecoversThrough R v m) (hnull : v.isNull = false)
    (name owner : String) : f.Recovers R v (.declared (.named name) owner) := by
  intro s hs
  rw [encode_declared, hnull] at hs
  obtain ⟨⟨⟩, hassign, hs⟩ := bind_eq_ok_iff.1 hs
  obtain ⟨j, w, hwritten, hdecode, hlike, hplain⟩ := recovers_tagged hR hf.usual h hnull hs
  have hj := isNull_of_decode hdecode ((hR.isNull hlike).trans hnull)
  have hnamed : f.decode j (.declared (.named name) owner) =
      if Wire.isTagged j then (do
        let v ← f.decode j .tagged
        f.checkAssignable name v owner
        return v)
      else (do
        let m ← f.require name owner
        f.decode j (.through m.marshaller)) := by
    rw [decode_declared, hj]
    rfl
  cases htagged : Wire.isTagged j with
  | true =>
    refine ⟨j, w, hwritten, ?_, hlike⟩
    rw [hnamed, htagged, if_pos rfl, hdecode]
    show (f.checkAssignable name w owner).bind _ = _
    -- the value read has the same type identifier, which is all the check looks at
    have hsame : f.checkAssignable name w owner = f.checkAssignable name v owner := by
      rw [checkAssignable, checkAssignable, hR.typeId? hlike]
    rw [hsame, hassign]
    rfl
  | false =>
    -- only a truth value or a string comes without a tag, and its own instance is the declared one
    obtain htag | ⟨id, i, w', hid, hlookup, hthrough, hlike'⟩ := hplain
    · rw [htagged] at htag
      cases htag
    · have hname := lookup_of_checkAssignable hf hassign hid hlookup
      refine ⟨j, w', hwritten, ?_, hlike'⟩
      rw [hnamed, htagged, if_neg Bool.false_ne_true, (f.require_eq_ok_iff name owner i).2 hname]
      exact hthrough

theorem recovers_declared (hR : Value.Likeness R) (hf : f.Mirrors) {v : Value}
    (h : ∀ m, f.Offers (.through m) → f.RecoversThrough R v m) (hnull : v.isNull = false)
    (type : TypeRef) (owner : String) : f.Recovers R v (.declared type owner) := by
  cases type with
  | any =>
    intro s hs
    rw [encode_any] at hs
    obtain ⟨j, w, hwritten, hdecode, hlike, -⟩ := recovers_tagged hR hf.usual h hnull hs
    exact ⟨j, w, hwritten, (f.decode_any j owner).trans hdecode, hlike⟩
  -- a named type may be written with a tag, which then has to be assignable
  | named name => exact recovers_named hR hf h hnull name owner
  | _ =>
    intro s hs
    rw [f.encode_static rfl hnull] at hs
    obtain ⟨i, hrequire, hs⟩ := bind_eq_ok_iff.1 hs
    have hlookup := (f.require_eq_ok_iff _ owner i).1 hrequire
    obtain ⟨j, w, hwritten, hdecode, hlike, -⟩ := h i.marshaller (.inl ⟨_, i, hlookup, rfl⟩) s hs
    refine ⟨j, w, hwritten, ?_, hlike⟩
    rw [f.decode_static rfl (isNull_of_decode hdecode ((hR.isNull hlike).trans hnull)), hrequire]
    exact hdecode

theorem recovers_row (hR : Value.Likeness R) {v : Value}
    (h : ∀ m, f.Offers (.through m) → f.RecoversThrough R v m) (hnull : v.isNull = false)
    (component : TypeRef) (dimensions : Nat) : f.Recovers R v (.row component dimensions) := by
  intro s hs
  rw [encode_row] at hs
  split at hs
  · cases hnull
  · obtain ⟨j, w, hwritten, hdecode, hlike, -⟩ := h _ (.inr ⟨_, rfl⟩) s hs
    refine ⟨j, w, hwritten, ?_, hlike⟩
    rw [decode_row, isNull_of_decode hdecode ((hR.isNull hlike).trans hnull)]
    exact hdecode
  · cases hs

/-- What marshallers write and read again is read in every slot. -/
theorem recovers_of_through (hR : Value.Likeness R) (hf : f.Mirrors) {v : Value}
    (h : ∀ m, f.Offers (.through m) → f.RecoversThrough R v m) (slot : Slot)
    (hslot : f.Offers slot) : f.Recovers R v slot := by
  cases hnull : v.isNull with
  | true =>
    cases v with
    | null => exact recovers_null hR slot
    | _ => cases hnull
  | false =>
    cases slot with
    | tagged =>
      intro s hs
      obtain ⟨j, w, hwritten, hdecode, hlike, -⟩ := recovers_tagged hR hf.usual h hnull hs
      exact ⟨j, w, hwritten, hdecode, hlike⟩
    | declared type owner => exact recovers_declared hR hf h hnull type owner
    | row component dimensions => exact recovers_row hR h hnull component dimensions
    | through m =>
      intro s hs
      obtain ⟨j, w, hwritten, hdecode, hlike, -⟩ := h m hslot s hs
      exact ⟨j, w, hwritten, hdecode, hlike⟩

/-- What is written for a value is read back in the same slot, as a value like it. -/
theorem Recovery.recovers (h : f.Recovery R p) (v : Value) (hv : v.Throughout p) :
    ∀ slot, f.Offers slot → f.Recovers R v slot := by
  have hR := h.toLikeness
  have husual : ∀ {m}, f.Offers (.through m) → m.Usual := fun hm => h.mirrors.usual.of_offers hm
  -- on the value: each part is written in a slot of its own, whatever slot the whole is in
  induction v using Value.induction with
  | null =>
    intro slot _
    exact recovers_null hR slot
  | scalar x =>
    exact recovers_of_through hR h.mirrors fun m hm =>
      recoversThrough_scalar h (Value.throughout_iff.1 hv).1 (husual hm)
  | string s =>
    exact recovers_of_through hR h.mirrors fun m hm => recoversThrough_string hR s (husual hm)
  | list items ih =>
    have hitems : ∀ v ∈ items, f.Recovers R v .tagged := fun v hmem =>
      ih v hmem (hv.parts v hmem) .tagged trivial
    exact recovers_of_through hR h.mirrors fun m hm => recoversThrough_list hR hitems (husual hm)
  | set items ih =>
    have hitems : ∀ v ∈ items, f.Recovers R v .tagged := fun v hmem =>
      ih v hmem (hv.parts v hmem) .tagged trivial
    have hproper := h.proper (Value.throughout_iff.1 hv).1
    exact recovers_of_through hR h.mirrors fun m hm =>
      recoversThrough_set hR hitems hproper (husual hm)
  | map entries ih =>
    have hentries : ∀ e ∈ entries, f.Recovers R e.1 .tagged ∧ f.Recovers R e.2 .tagged := by
      intro e he
      obtain ⟨hkey, hvalue⟩ := hv.parts e he
      exact ⟨(ih e he).1 hkey .tagged trivial, (ih e he).2 hvalue .tagged trivial⟩
    have hproper := h.proper (Value.throughout_iff.1 hv).1
    exact recovers_of_through hR h.mirrors fun m hm =>
      recoversThrough_map hR hentries hproper (husual hm)
  | array signature items ih =>
    have hitems : ∀ v ∈ items, ∀ slot, f.Offers slot → f.Recovers R v slot :=
      fun v hmem => ih v hmem (hv.parts v hmem)
    exact recovers_of_through hR h.mirrors fun m hm => recoversThrough_array hR hitems (husual hm)
  | enumeration type variant =>
    exact recovers_of_through hR h.mirrors fun m hm =>
      recoversThrough_enumeration hR type variant (husual hm)
  | object type fields ih =>
    have hfields : ∀ e ∈ fields, ∀ slot, f.Offers slot → f.Recovers R e.2 slot :=
      fun e he => ih e he (hv.parts e he)
    exact recovers_of_through hR h.mirrors fun m hm =>
      recoversThrough_object h (Value.throughout_iff.1 hv).1 hfields hm

/-- Within the limit on nesting, what is written is parsed and read. -/
theorem Recovery.parsed (h : f.Recovery R p) {v : Value} (hv : v.Throughout p) (slot : Slot)
    (hslot : f.Offers slot) {s : String} (hs : f.encode v slot = .ok s)
    (hnesting : Json.nesting s ≤ Json.nestingLimit) :
    ∃ w, (Wire.parse s >>= fun j => f.decode j slot) = .ok w ∧ R w v := by
  obtain ⟨j, w, hwritten, hdecode, hlike⟩ := h.recovers v hv slot hslot s hs
  refine ⟨w, bind_eq_ok_iff.2 ⟨j, ?_, hdecode⟩, hlike⟩
  rw [Wire.parse, hwritten.parse? hnesting]

end Factory
end TaggedWire
