import TaggedWire.Proofs.Catalog.Sound
import TaggedWire.Proofs.Factory.Coding
import TaggedWire.Proofs.Factory.Generated
import TaggedWire.Proofs.Plan.Source

/-!
# The dimensions of an array

The marshaller of an array goes from its outermost dimension inwards, one dimension less at a time,
and ends with the elements at the first.  That it does end there hangs on its shape: one of no
dimensions is passed over by the end.  `Factory.watch` makes a run fail in the places that it should
not come to, so a run that is the same with and without it does not come there.

A plan takes the shapes of its array marshallers from its source as they stand.  Only the types that
are spelled out in the source are sure to be flat.

* `Factory.encodeWatched_eq`, `Factory.decodeWatched_eq`: in a factory whose shapes have a dimension
  no run leaves the dimensions of its shape.
* `Plan.runs_within`: what that means for a plan from a source text.
-/

namespace TaggedWire

/-! ### The types of a source

A type of a source is read from its spelling, so it is flat.  A shape is not: its component and its
dimensions are read apart. -/

/-- The types that a strategy spells out. -/
def Strategy.types : Strategy → List TypeRef
  | .array signature => [signature.component]
  | .reflective _ fields => fields.map (·.declared)
  | .explicit _ _ | .enumeration _ _ => []

theorem ArraySignature.spelled_of_read? {j : Json} {s : ArraySignature} (h : read? j = some s) :
    s.component.Spelled := by
  unfold read? at h
  split at h
  · simp only [Option.bind_eq_bind, Option.bind_eq_some_iff] at h
    obtain ⟨_, -, component, hcomponent, _, -, _, -, hs⟩ := h
    cases hs
    exact TypeRef.spelled_of_read? hcomponent
  · simp only [Option.bind_eq_bind, Option.bind_eq_some_iff] at h
    obtain ⟨component, hcomponent, _, -, hs⟩ := h
    cases hs
    exact TypeRef.spelled_of_read? hcomponent
  · cases h

theorem Strategy.spelled_of_read? {members : List (String × Json)} {s : Strategy}
    (h : read? members = some s) : ∀ t ∈ s.types, t.Spelled := by
  unfold read? at h
  obtain ⟨_, -, h⟩ := Option.bind_eq_some_iff.1 h
  obtain ⟨name, -, h⟩ := Option.bind_eq_some_iff.1 h
  -- by the kind of the strategy, of which two spell out types
  split at h
  · simp only [Option.bind_eq_bind, Option.bind_eq_some_iff] at h
    obtain ⟨_, -, _, -, hs⟩ := h
    cases hs
    exact List.forall_mem_nil _
  split at h
  · simp only [Option.bind_eq_bind, Option.bind_eq_some_iff] at h
    obtain ⟨_, -, signature, hsignature, hs⟩ := h
    cases hs
    exact List.forall_mem_singleton.2 (ArraySignature.spelled_of_read? hsignature)
  split at h
  · simp only [Option.bind_eq_bind, Option.bind_eq_some_iff] at h
    obtain ⟨_, -, _, -, _, -, hs⟩ := h
    cases hs
    exact List.forall_mem_nil _
  · simp only [Option.bind_eq_bind, Option.bind_eq_some_iff] at h
    obtain ⟨_, -, _, -, fields, hfields, hs⟩ := h
    cases hs
    exact List.forall_mem_map.2 (Field.spelled_of_readAll? hfields)

namespace Plan

theorem spelled_of_ofParts? {package className generator marshallers bindings : Json} {p : Plan}
    (h : ofParts? package className generator marshallers bindings = some p) :
    ∀ m ∈ p.marshallers, ∀ t ∈ m.strategy.types, t.Spelled := by
  unfold ofParts? at h
  simp only [Option.bind_eq_bind, Option.bind_eq_some_iff] at h
  obtain ⟨_, -, _, -, _, -, _, -, planned, hplanned, _, -, hp⟩ := h
  cases hp
  refine forall_of_forall₂ (mapM_eq_some_iff.1 hplanned) fun j m hm => ?_
  unfold Planned.read? at hm
  simp only [Option.bind_eq_bind, Option.bind_eq_some_iff] at hm
  obtain ⟨_, -, _, -, strategy, hstrategy, hm⟩ := hm
  cases hm
  exact Strategy.spelled_of_read? hstrategy

/-- The types that an accepted source spells out have spellings. -/
theorem spelled_of_ofSource {text : String} {p : Plan} (h : ofSource text = .ok p) :
    ∀ m ∈ p.marshallers, ∀ t ∈ m.strategy.types, t.Spelled := by
  unfold ofSource at h
  split at h
  · cases h
  · next q hq =>
    obtain ⟨⟨⟩, -, h⟩ := bind_eq_ok_iff.1 h
    cases h
    obtain ⟨j, -, hread⟩ := Option.bind_eq_some_iff.1 hq
    unfold read? at hread
    split at hread
    · simp only [Option.bind_eq_bind, Option.bind_eq_some_iff] at hread
      obtain ⟨_, -, _, -, _, -, _, -, _, -, hparts⟩ := hread
      exact spelled_of_ofParts? hparts
    · exact spelled_of_ofParts? hread
    · cases hread

/-- The shapes of the array marshallers. -/
def Shape (p : Plan) (s : ArraySignature) : Prop := ∃ m ∈ p.marshallers, m.strategy = .array s

end Plan

namespace Factory

/-- The factory binds a marshaller of arrays of the shape. -/
def Shape (f : Factory) (s : ArraySignature) : Prop :=
  ∃ id i, f.lookup id = some i ∧ i.marshaller = .array s

/-- The slot is one that a run should come to: it asks for a marshaller that is bound, and an array
is asked for in one of the dimensions of a shape, which are counted from one. -/
def Within (f : Factory) : Slot → Prop
  | .tagged | .declared _ _ => True
  | .row component dimensions =>
    1 ≤ dimensions ∧ ∃ total, dimensions ≤ total ∧ f.Shape ⟨component, total⟩
  | .through m =>
    (∃ id i, f.lookup id = some i ∧ i.marshaller = m) ∧ ∀ s, m = .array s → 1 ≤ s.dimensions

open Classical in
/-- What is read or written in a slot, or an error in a slot that a run should not come to. -/
noncomputable def watch {α : Type} (f : Factory) (e : Error) (run : Slot → Except Error α)
    (slot : Slot) : Except Error α :=
  if f.Within slot then run slot else .error e

/-- The shapes of the marshallers have a dimension. -/
def Deep (f : Factory) : Prop := ∀ s, f.Shape s → 1 ≤ s.dimensions

variable {f : Factory} {e : Error}

theorem watch_of_within {α : Type} {slot : Slot} (h : f.Within slot)
    (run : Slot → Except Error α) : f.watch e run slot = run slot := if_pos h

/-- From a dimension of a shape a run comes to the next one, or from the first to the elements. -/
theorem within_element {component : TypeRef} {dimensions : Nat}
    (h : f.Within (.row component dimensions)) (owner : String) :
    f.Within (.element component dimensions owner) := by
  obtain ⟨hpos, total, hle, hshape⟩ := h
  unfold Slot.element
  split
  · trivial
  · next hne => exact ⟨by omega, total, by omega, hshape⟩

theorem within_row {s : ArraySignature} (h : f.Within (.through (.array s))) :
    f.Within (.row s.component s.dimensions) := ⟨h.2 s rfl, s.dimensions, Nat.le_refl _, h.1⟩

theorem within_through (hf : f.Deep) {id : String} {i : Instance} (hi : f.lookup id = some i) :
    f.Within (.through i.marshaller) :=
  ⟨⟨id, i, hi, rfl⟩, fun s hs => hf s ⟨id, i, hi, hs⟩⟩

/-- Nothing that a foreign class asks for is out of place. -/
theorem watch_comp_ofAsk {α : Type} (run : Slot → Except Error α) :
    f.watch e run ∘ Slot.ofAsk = run ∘ Slot.ofAsk := by
  funext ask
  have hwithin : f.Within (.ofAsk ask) := by cases ask <;> trivial
  exact watch_of_within hwithin run

theorem require_bind_congr {α : Type} {id owner : String} {g h : Instance → Except Error α}
    (heq : ∀ i, f.lookup id = some i → g i = h i) :
    (f.require id owner >>= g) = (f.require id owner >>= h) := by
  cases hi : f.require id owner with
  | error _ => rfl
  | ok i => exact heq i ((f.require_eq_ok_iff _ _ _).1 hi)

/-! ### Watching what is written

A watched run fails in a slot that is not within the dimensions.  Each function of the encoder asks
for slots within, if it was asked in one, and so it does not notice. -/

/-- The encoders, each of them watched. -/
noncomputable def watchEncoders (f : Factory) (e : Error) (parts : EncodedParts) :
    EncodedParts where
  items := parts.items.map (f.watch e)
  entries := parts.entries.map fun entry => (f.watch e entry.1, f.watch e entry.2)
  fields := parts.fields.map fun field => (field.1, f.watch e field.2)

theorem comap_watchEncoders (parts : EncodedParts) :
    (f.watchEncoders e parts).comap Slot.ofAsk = parts.comap Slot.ofAsk := by
  simp only [watchEncoders, Encoders.comap, List.map_map, Encoders.mk.injEq]
  exact ⟨List.map_congr_left fun run _ => watch_comp_ofAsk run,
    List.map_congr_left fun _ _ => Prod.ext (watch_comp_ofAsk _) (watch_comp_ofAsk _),
    List.map_congr_left fun _ _ => Prod.ext rfl (watch_comp_ofAsk _)⟩

theorem encodeItems_watch {slot : Slot} (h : f.Within slot) (items : List Encoder) :
    encodeItems slot (items.map (f.watch e)) = encodeItems slot items := by
  simp only [encodeItems, List.mapM_map, Function.comp_def, watch_of_within h]

theorem encodeEntries_watch (entries : List (Encoder × Encoder)) :
    encodeEntries (entries.map fun entry => (f.watch e entry.1, f.watch e entry.2)) =
      encodeEntries entries := by
  have htagged : f.Within .tagged := trivial
  simp only [encodeEntries, List.mapM_map, Function.comp_def, watch_of_within htagged]

theorem encodeRows_watch {component : TypeRef} {dimensions : Nat}
    (h : f.Within (.row component dimensions)) (signature : ArraySignature)
    (items : List Encoder) :
    encodeRows component dimensions signature (items.map (f.watch e)) =
      encodeRows component dimensions signature items := by
  simp only [encodeRows, encodeItems_watch (within_element h _)]

theorem encodeFields_watch (type : String) (declared : List Field) (claimed : String)
    (given : List (String × Encoder)) :
    f.encodeFields type declared claimed (given.map fun field => (field.1, f.watch e field.2)) =
      f.encodeFields type declared claimed given := by
  have hdeclared (type : TypeRef) (owner : String) : f.Within (.declared type owner) := trivial
  unfold encodeFields
  split
  · rfl
  rw [List.find?_map]
  simp only [Function.comp_def, entries_get?_map]
  cases given.find? fun field => declared.all fun d => d.name ≠ field.1 with
  | some field => rfl
  | none =>
    simp only [Option.map_none]
    congr 2
    funext field
    cases Entries.get? field.name given with
    | none => rfl
    | some encoder => simp only [Option.map_some, watch_of_within (hdeclared _ _)]

theorem encodeWith_watch {m : Marshaller} (hm : f.Within (.through m)) (v : Value)
    (parts : EncodedParts) :
    f.encodeWith m v (f.watchEncoders e parts) = f.encodeWith m v parts := by
  have htagged : f.Within .tagged := trivial
  -- only the marshaller of an array asks for rows, and these have the dimensions of its shape
  cases m with
  | array s =>
    cases v with
    | array signature items => exact encodeRows_watch (within_row hm) signature parts.items
    | _ => rfl
  | list =>
    cases v with
    | list items => exact encodeItems_watch htagged parts.items
    | _ => rfl
  | set =>
    cases v with
    | set items => exact encodeItems_watch htagged parts.items
    | _ => rfl
  | map =>
    cases v with
    | map entries => exact encodeEntries_watch parts.entries
    | _ => rfl
  | object type declared =>
    cases v with
    | object claimed fields => exact encodeFields_watch type declared claimed parts.fields
    | _ => rfl
  | foreign m =>
    cases v with
    | null => rfl
    | _ => simp only [encodeWith, comap_watchEncoders]
  | scalar _ | string | enumeration _ _ => cases v <;> rfl

theorem encodeTagged_watch (hf : f.Deep) (v : Value) (parts : EncodedParts) :
    f.encodeTagged v (f.watchEncoders e parts) = f.encodeTagged v parts := by
  unfold encodeTagged
  split
  · rfl
  · next id _ =>
    refine require_bind_congr fun i hi => ?_
    rw [encodeWith_watch (within_through hf hi)]

theorem encodeDeclared_watch (hf : f.Deep) (type : TypeRef) (owner : String) (v : Value)
    (parts : EncodedParts) :
    f.encodeDeclared type owner v (f.watchEncoders e parts) =
      f.encodeDeclared type owner v parts := by
  unfold encodeDeclared
  split
  · rfl
  split
  · exact encodeTagged_watch hf v parts
  · rw [encodeTagged_watch hf]
  · exact require_bind_congr fun i hi => encodeWith_watch (within_through hf hi) v parts

/-- A node of a value asks its parts for nothing but what they should come to. -/
theorem encodeNode_watch (hf : f.Deep) (v : Value) (parts : EncodedParts) {slot : Slot}
    (h : f.Within slot) :
    f.encodeNode v (f.watchEncoders e parts) slot = f.encodeNode v parts slot := by
  cases slot with
  | tagged => exact encodeTagged_watch hf v parts
  | declared type owner => exact encodeDeclared_watch hf type owner v parts
  | through m => exact encodeWith_watch h v parts
  | row component dimensions =>
    cases v with
    | array signature items => exact encodeRows_watch h signature parts.items
    | _ => rfl

mutual

/-- The encoder of a value that is watched at every node. -/
noncomputable def encodeWatched (f : Factory) (e : Error) : Value → Encoder
  | .null => f.watch e (f.encodeNode .null {})
  | .scalar s => f.watch e (f.encodeNode (.scalar s) {})
  | .string s => f.watch e (f.encodeNode (.string s) {})
  | .list items =>
    f.watch e (f.encodeNode (.list items) { items := f.itemsWatched e items })
  | .set items =>
    f.watch e (f.encodeNode (.set items) { items := f.itemsWatched e items })
  | .map entries =>
    f.watch e (f.encodeNode (.map entries) { entries := f.entriesWatched e entries })
  | .array signature items =>
    f.watch e (f.encodeNode (.array signature items) { items := f.itemsWatched e items })
  | .enumeration type variant => f.watch e (f.encodeNode (.enumeration type variant) {})
  | .object type fields =>
    f.watch e (f.encodeNode (.object type fields) { fields := f.fieldsWatched e fields })

/-- The watched encoders of items. -/
noncomputable def itemsWatched (f : Factory) (e : Error) : List Value → List Encoder
  | [] => []
  | v :: vs => f.encodeWatched e v :: f.itemsWatched e vs

/-- The watched encoders of map entries. -/
noncomputable def entriesWatched (f : Factory) (e : Error) :
    List (Value × Value) → List (Encoder × Encoder)
  | [] => []
  | (k, v) :: es => (f.encodeWatched e k, f.encodeWatched e v) :: f.entriesWatched e es

/-- The watched encoders of fields. -/
noncomputable def fieldsWatched (f : Factory) (e : Error) :
    List (String × Value) → List (String × Encoder)
  | [] => []
  | (k, v) :: fs => (k, f.encodeWatched e v) :: f.fieldsWatched e fs

end

theorem itemsWatched_eq (items : List Value) :
    f.itemsWatched e items = items.map (f.encodeWatched e) := by
  induction items with
  | nil => simp [itemsWatched]
  | cons v vs ih => simp [itemsWatched, ih]

theorem entriesWatched_eq (entries : List (Value × Value)) :
    f.entriesWatched e entries =
      entries.map fun entry => (f.encodeWatched e entry.1, f.encodeWatched e entry.2) := by
  induction entries with
  | nil => simp [entriesWatched]
  | cons entry rest ih => cases entry; simp [entriesWatched, ih]

theorem fieldsWatched_eq (fields : List (String × Value)) :
    f.fieldsWatched e fields = fields.map fun field => (field.1, f.encodeWatched e field.2) := by
  induction fields with
  | nil => simp [fieldsWatched]
  | cons field rest ih => cases field; simp [fieldsWatched, ih]

theorem watch_encodeNode (hf : f.Deep) (v : Value) (parts : EncodedParts) :
    f.watch e (f.encodeNode v (f.watchEncoders e parts)) = f.watch e (f.encodeNode v parts) := by
  funext slot
  unfold watch
  split
  · next h => exact encodeNode_watch hf v parts h
  · rfl

/-- By induction on the value: a run that is watched at every node is one that is watched at its
start. -/
theorem encodeWatched_eq (hf : f.Deep) (v : Value) :
    f.encodeWatched e v = f.watch e (f.encode v) := by
  have hitems {items : List Value}
      (ih : ∀ v ∈ items, f.encodeWatched e v = f.watch e (f.encode v)) :
      f.itemsWatched e items = (items.map f.encode).map (f.watch e) := by
    rw [itemsWatched_eq, List.map_congr_left ih, List.map_map]
    rfl
  -- by induction on the value: the parts are watched alike, so watching them changes nothing
  induction v using Value.induction with
  | null | scalar _ | string _ | enumeration _ _ => rw [encodeWatched, encode]
  | list items ih =>
    rw [encodeWatched, hitems ih, encode_list]
    exact watch_encodeNode hf _ { items := items.map f.encode }
  | set items ih =>
    rw [encodeWatched, hitems ih, encode_set]
    exact watch_encodeNode hf _ { items := items.map f.encode }
  | array signature items ih =>
    rw [encodeWatched, hitems ih, encode_array]
    exact watch_encodeNode hf _ { items := items.map f.encode }
  | map entries ih =>
    have hentries : f.entriesWatched e entries =
        (entries.map fun entry => (f.encode entry.1, f.encode entry.2)).map fun entry =>
          (f.watch e entry.1, f.watch e entry.2) := by
      rw [entriesWatched_eq, List.map_map]
      exact List.map_congr_left fun entry h => Prod.ext (ih entry h).1 (ih entry h).2
    rw [encodeWatched, hentries, encode_map]
    exact watch_encodeNode hf _ { entries := _ }
  | object type fields ih =>
    have hfields : f.fieldsWatched e fields =
        (fields.map fun field => (field.1, f.encode field.2)).map fun field =>
          (field.1, f.watch e field.2) := by
      rw [fieldsWatched_eq, List.map_map]
      exact List.map_congr_left fun field h => Prod.ext rfl (ih field h)
    rw [encodeWatched, hfields, encode_object]
    exact watch_encodeNode hf _ { fields := _ }

/-! ### Watching what is read

The same for the decoder. -/

/-- The decoders, each of them watched. -/
noncomputable def watchDecoders (f : Factory) (e : Error) (parts : DecodedParts) :
    DecodedParts where
  items := parts.items.map (f.watch e)
  entries := parts.entries.map fun entry => entry.map fun d => (f.watch e d.1, f.watch e d.2)
  members := parts.members.map fun member => (member.1, f.watch e member.2)

theorem comap_watchDecoders (parts : DecodedParts) :
    (f.watchDecoders e parts).comap Slot.ofAsk = parts.comap Slot.ofAsk := by
  have hentry (entry : Except Error (Decoder × Decoder)) :
      ((entry.map fun d => (f.watch e d.1, f.watch e d.2)).map fun d =>
        (d.1 ∘ Slot.ofAsk, d.2 ∘ Slot.ofAsk)) =
          entry.map fun d => (d.1 ∘ Slot.ofAsk, d.2 ∘ Slot.ofAsk) := by
    cases entry with
    | error _ => rfl
    | ok d => simp only [Except.map, watch_comp_ofAsk]
  simp only [watchDecoders, Decoders.comap, List.map_map, Decoders.mk.injEq]
  exact ⟨List.map_congr_left fun run _ => watch_comp_ofAsk run,
    List.map_congr_left fun entry _ => hentry entry,
    List.map_congr_left fun _ _ => Prod.ext rfl (watch_comp_ofAsk _)⟩

theorem decodeItems_watch {slot : Slot} (h : f.Within slot) (items : List Decoder) :
    decodeItems slot (items.map (f.watch e)) = decodeItems slot items := by
  simp only [decodeItems, List.mapM_map, Function.comp_def, watch_of_within h]

theorem decodeEntries_watch (entries : List (Except Error (Decoder × Decoder))) :
    decodeEntries (entries.map fun entry => entry.map fun d => (f.watch e d.1, f.watch e d.2)) =
      decodeEntries entries := by
  have htagged : f.Within .tagged := trivial
  unfold decodeEntries
  rw [List.foldlM_map]
  congr 1
  funext done entry
  cases entry with
  | error _ => rfl
  | ok d =>
    show (f.watch e d.1 .tagged >>= fun k => f.watch e d.2 .tagged >>= fun v => _) = _
    rw [watch_of_within htagged, watch_of_within htagged]
    rfl

theorem decodeRows_watch {component : TypeRef} {dimensions : Nat}
    (h : f.Within (.row component dimensions)) (j : Json) (items : List Decoder) :
    decodeRows component dimensions j (items.map (f.watch e)) =
      decodeRows component dimensions j items := by
  simp only [decodeRows, decodeItems_watch (within_element h _)]

theorem decodeFields_watch (type : String) (declared : List Field) (j : Json)
    (members : List (String × Decoder)) :
    f.decodeFields type declared j (members.map fun m => (m.1, f.watch e m.2)) =
      f.decodeFields type declared j members := by
  have hdeclared (type : TypeRef) (owner : String) : f.Within (.declared type owner) := trivial
  unfold decodeFields
  simp only [find?_map]
  congr 2
  funext _
  congr 1
  funext claimed
  congr 2
  funext done field
  cases Json.find? field.name members with
  | none => rfl
  | some decoder => simp only [Option.map_some, watch_of_within (hdeclared _ _)]

theorem decodePlain_watch {m : Marshaller} (hm : f.Within (.through m)) (j : Json)
    (parts : DecodedParts) :
    f.decodePlain m j (f.watchDecoders e parts) = f.decodePlain m j parts := by
  have htagged : f.Within .tagged := trivial
  cases m with
  | array s => exact decodeRows_watch (within_row hm) j parts.items
  | list | set => simp only [decodePlain, watchDecoders, decodeItems_watch htagged]
  | map => simp only [decodePlain, watchDecoders, decodeEntries_watch]
  | object type declared => exact decodeFields_watch type declared j parts.members
  | foreign m => simp only [decodePlain, comap_watchDecoders]
  | scalar _ | string | enumeration _ _ => rfl

theorem decodeWith_watch (hf : f.Deep) {m : Marshaller} (hm : f.Within (.through m)) (j : Json)
    (parts : DecodedParts) :
    f.decodeWith m j (f.watchDecoders e parts) = f.decodeWith m j parts := by
  unfold decodeWith
  split
  · rfl
  · rw [comap_watchDecoders]
    congr 1
    funext id owner
    refine require_bind_congr fun i hi => ?_
    rw [decodePlain_watch (within_through hf hi)]
  · exact decodePlain_watch hm j parts

theorem decodeTagged_watch (hf : f.Deep) (j : Json) (parts : DecodedParts) :
    f.decodeTagged j (f.watchDecoders e parts) = f.decodeTagged j parts := by
  cases j with
  | object members =>
    simp only [decodeTagged]
    split
    · rfl
    · next tag _ =>
      refine require_bind_congr fun i hi => ?_
      have hm := within_through hf hi
      have hmembers : (f.watchDecoders e parts).members =
          parts.members.map fun m => (m.1, f.watch e m.2) := rfl
      rw [hmembers, find?_map, decodeWith_watch hf hm]
      cases (Json.object members).get? Wire.valueKey with
      | none => rfl
      | some payload =>
        cases Json.find? Wire.valueKey parts.members with
        | none => rfl
        | some decoder => simp only [Option.map_some, watch_of_within hm]
  | _ => rfl

theorem decodeDeclared_watch (hf : f.Deep) (type : TypeRef) (owner : String) (j : Json)
    (parts : DecodedParts) :
    f.decodeDeclared type owner j (f.watchDecoders e parts) =
      f.decodeDeclared type owner j parts := by
  unfold decodeDeclared
  split
  · rfl
  split
  · exact decodeTagged_watch hf j parts
  · rw [decodeTagged_watch hf]
    split
    · rfl
    · exact require_bind_congr fun i hi => decodeWith_watch hf (within_through hf hi) j parts
  · exact require_bind_congr fun i hi => decodeWith_watch hf (within_through hf hi) j parts

/-- A node of a document asks its parts for nothing but what they should come to. -/
theorem decodeNode_watch (hf : f.Deep) (j : Json) (parts : DecodedParts) {slot : Slot}
    (h : f.Within slot) :
    f.decodeNode j (f.watchDecoders e parts) slot = f.decodeNode j parts slot := by
  cases slot with
  | tagged => exact decodeTagged_watch hf j parts
  | declared type owner => exact decodeDeclared_watch hf type owner j parts
  | through m => exact decodeWith_watch hf h j parts
  | row component dimensions =>
    show (if j.isNull then _ else decodeRows component dimensions j _) = if j.isNull then _ else _
    rw [show (f.watchDecoders e parts).items = parts.items.map (f.watch e) from rfl,
      decodeRows_watch h]

mutual

/-- The decoder of a document that is watched at every node. -/
noncomputable def decodeWatched (f : Factory) (e : Error) : Json → Decoder
  | .null => f.watch e (f.decodeNode .null {})
  | .bool b => f.watch e (f.decodeNode (.bool b) {})
  | .number n => f.watch e (f.decodeNode (.number n) {})
  | .string s => f.watch e (f.decodeNode (.string s) {})
  | .array items =>
    f.watch e (f.decodeNode (.array items)
      { items := f.elementsWatched e items, entries := f.pairsWatched e items })
  | .object members =>
    f.watch e (f.decodeNode (.object members) { members := f.membersWatched e members })

/-- The watched decoders of items. -/
noncomputable def elementsWatched (f : Factory) (e : Error) : List Json → List Decoder
  | [] => []
  | j :: js => f.decodeWatched e j :: f.elementsWatched e js

/-- The watched decoders of items as pairs. -/
noncomputable def pairsWatched (f : Factory) (e : Error) :
    List Json → List (Except Error (Decoder × Decoder))
  | [] => []
  | j :: js => f.pairWatched e j :: f.pairsWatched e js

/-- The watched decoders of the two items of a pair. -/
noncomputable def pairWatched (f : Factory) (e : Error) : Json → Except Error (Decoder × Decoder)
  | .array [k, v] => .ok (f.decodeWatched e k, f.decodeWatched e v)
  | j => f.entryDecoder j

/-- The watched decoders of members. -/
noncomputable def membersWatched (f : Factory) (e : Error) :
    List (String × Json) → List (String × Decoder)
  | [] => []
  | (k, j) :: ms => (k, f.decodeWatched e j) :: f.membersWatched e ms

end

theorem elementsWatched_eq (items : List Json) :
    f.elementsWatched e items = items.map (f.decodeWatched e) := by
  induction items with
  | nil => simp [elementsWatched]
  | cons j js ih => simp [elementsWatched, ih]

theorem pairsWatched_eq (items : List Json) :
    f.pairsWatched e items = items.map (f.pairWatched e) := by
  induction items with
  | nil => simp [pairsWatched]
  | cons j js ih => simp [pairsWatched, ih]

theorem membersWatched_eq (members : List (String × Json)) :
    f.membersWatched e members =
      members.map fun member => (member.1, f.decodeWatched e member.2) := by
  induction members with
  | nil => simp [membersWatched]
  | cons member rest ih => cases member; simp [membersWatched, ih]

theorem watch_decodeNode (hf : f.Deep) (j : Json) (parts : DecodedParts) :
    f.watch e (f.decodeNode j (f.watchDecoders e parts)) = f.watch e (f.decodeNode j parts) := by
  funext slot
  unfold watch
  split
  · next h => exact decodeNode_watch hf j parts h
  · rfl

/-- By induction on the document: a run that is watched at every node is one that is watched at its
start. -/
theorem decodeWatched_eq (hf : f.Deep) (j : Json) :
    f.decodeWatched e j = f.watch e (f.decode j) := by
  induction j using Json.parts_induction with
  | step j hitems hpairs hmembers =>
    cases j with
    | null | bool _ | number _ | string _ => rw [decodeWatched, decode]
    | array items =>
      have helements : f.elementsWatched e items = (items.map f.decode).map (f.watch e) := by
        rw [elementsWatched_eq, List.map_congr_left (hitems items rfl), List.map_map]
        rfl
      have hentries : f.pairsWatched e items = (items.map f.entryDecoder).map fun entry =>
          entry.map fun d => (f.watch e d.1, f.watch e d.2) := by
        rw [pairsWatched_eq, List.map_map]
        refine List.map_congr_left fun j hj => ?_
        show f.pairWatched e j = (f.entryDecoder j).map _
        -- a pair is an array of two, and what is not refuses to be one on either side
        unfold pairWatched
        split
        · next k v =>
          rw [hpairs items rfl [k, v] hj k (by simp), hpairs items rfl [k, v] hj v (by simp),
            entryDecoder]
          rfl
        · next hnone =>
          cases hd : f.entryDecoder j with
          | error _ => rfl
          | ok d =>
            obtain ⟨k, v, rfl, -⟩ := f.entryDecoder_eq_ok_iff.1 hd
            exact (hnone k v rfl).elim
      rw [decodeWatched, helements, hentries, decode_array]
      exact watch_decodeNode hf _ { items := _, entries := _ }
    | object members =>
      have hwatched : f.membersWatched e members =
          (members.map fun m => (m.1, f.decode m.2)).map fun m => (m.1, f.watch e m.2) := by
        rw [membersWatched_eq, List.map_map]
        exact List.map_congr_left fun m hm => Prod.ext rfl (hmembers members rfl m hm)
      rw [decodeWatched, hwatched, decode_object]
      exact watch_decodeNode hf _ { members := _ }

end Factory

namespace Plan

/-- The shapes of a factory are those of its plan, or of the classes that are provided. -/
theorem deep_of_ofPlan {p : Plan} (hp : ∀ s, p.Shape s → 1 ≤ s.dimensions) {providers : Providers}
    (hproviders : ∀ className s, providers.get? className = some (.array s) → 1 ≤ s.dimensions)
    {f : Factory} (h : Factory.ofPlan p providers = .ok f) : f.Deep := by
  rintro s ⟨id, i, hi, hs⟩
  obtain ⟨m, hm, -, hmakes⟩ := (Factory.lookup_iff h id i).1 hi
  have hmarshaller := hmakes.marshaller
  rw [hs] at hmarshaller
  cases hstrategy : m.strategy with
  | array shape =>
    rw [hstrategy] at hmarshaller
    cases hmarshaller
    exact hp s ⟨m, hm, hstrategy⟩
  | explicit className type =>
    rw [hstrategy] at hmarshaller
    exact hproviders className s ((Providers.create_eq_ok_iff _ _ _ _).1 hmarshaller)
  | enumeration _ _ | reflective _ _ =>
    rw [hstrategy] at hmarshaller
    cases hmarshaller

/-- The types that an accepted source spells out are flat.  If the shapes of its array marshallers
have a dimension as well, no run of a factory leaves the dimensions of a shape, neither in writing a
value nor in reading a document. -/
theorem runs_within {text : String} {p : Plan} (h : ofSource text = .ok p) :
    (∀ m ∈ p.marshallers, ∀ t ∈ m.strategy.types, t.Flat) ∧
    ((∀ s, p.Shape s → 1 ≤ s.dimensions) → ∀ (providers : Providers) (f : Factory),
      (∀ className s, providers.get? className = some (.array s) → 1 ≤ s.dimensions) →
      Factory.ofPlan p providers = .ok f → ∀ (e : Error) (slot : Slot), f.Within slot →
        (∀ v, f.encodeWatched e v slot = f.encode v slot) ∧
        ∀ j, f.decodeWatched e j slot = f.decode j slot) := by
  refine ⟨fun m hm t ht => (spelled_of_ofSource h m hm t ht).flat, ?_⟩
  intro hp providers f hproviders hf e slot hslot
  have hdeep := deep_of_ofPlan hp hproviders hf
  refine ⟨fun v => ?_, fun j => ?_⟩
  · rw [Factory.encodeWatched_eq hdeep, Factory.watch_of_within hslot]
  · rw [Factory.decodeWatched_eq hdeep, Factory.watch_of_within hslot]

/-- The plan of a grid of integers, of the given shape. -/
def gridPlan (s : ArraySignature) : Plan where
  package := "demo"
  className := "Factory"
  generator := "0.1.0"
  marshallers := [⟨"cell", .explicit "I32Marshaller" "i32"⟩, ⟨"grid", .array s⟩]
  bindings := Table.ofList [("i32", "cell"), ("grid", "grid")]

theorem shape_gridPlan_iff {s s' : ArraySignature} : (gridPlan s).Shape s' ↔ s' = s := by
  simp [Shape, gridPlan, eq_comm]

/-- It is accepted whatever the shape is, as long as the component has a spelling. -/
theorem ofSource_gridPlan {s : ArraySignature} (hcomponent : s.component.Spelled)
    (hdimensions : s.dimensions < 2 ^ 64) :
    ofSource (gridPlan s).source = .ok (gridPlan s) := by
  have hspelled : (gridPlan s).Spelled := by
    simpa [Spelled, gridPlan, Strategy.Spelled, hcomponent] using hdimensions
  have hvalid : (gridPlan s).validate = .ok () := by
    rw [validate_eq_ok_iff]
    show ["cell", "grid"].Nodup ∧ ∀ e ∈ (Table.ofList [("i32", "cell"), ("grid", "grid")]).entries,
      e.2 ∈ ["cell", "grid"]
    decide
  rw [ofSource_source hspelled, hvalid]
  rfl

/-- A grid of two dimensions is written and read within them. -/
theorem runs_within_grid : ∃ text p f, ofSource text = .ok p ∧ p.Shape ⟨.primitive .i32, 2⟩ ∧
    Factory.ofPlan p Providers.builtin = .ok f ∧ ∀ e v j,
      f.encodeWatched e v (.declared (.named "grid") "grid") =
        f.encode v (.declared (.named "grid") "grid") ∧
      f.decodeWatched e j (.declared (.named "grid") "grid") =
        f.decode j (.declared (.named "grid") "grid") := by
  have hsource := ofSource_gridPlan (s := ⟨.primitive .i32, 2⟩) ⟨"i32", by decide +kernel⟩
    (by decide)
  have hmade : (Factory.ofPlan (gridPlan ⟨.primitive .i32, 2⟩) Providers.builtin).toOption.isSome =
      true := by decide +kernel
  obtain ⟨f, hf⟩ := Option.isSome_iff_exists.1 hmade
  rw [toOption_eq_some_iff] at hf
  refine ⟨_, _, f, hsource, shape_gridPlan_iff.2 rfl, hf, fun e v j => ?_⟩
  -- the grid is the only shape of the plan, and no class brings another
  have hshapes : ∀ s, (gridPlan ⟨.primitive .i32, 2⟩).Shape s → 1 ≤ s.dimensions := by
    intro s hs
    rw [shape_gridPlan_iff.1 hs]
    decide
  have hbasic : ∀ className s, Providers.builtin.get? className = some (.array s) →
      1 ≤ s.dimensions := fun _ _ h => (Providers.basic_of_builtin h).elim
  obtain ⟨hencode, hdecode⟩ := (runs_within hsource).2 hshapes _ f hbasic hf e
    (.declared (.named "grid") "grid") trivial
  exact ⟨hencode v, hdecode j⟩

/-- A shape of no dimensions is accepted as well, and so is one over arrays.  The first is bound to
a marshaller whose runs begin outside of its dimensions. -/
theorem flawed_gridPlan :
    (∃ text p f s, ofSource text = .ok p ∧ p.Shape s ∧ s.dimensions = 0 ∧
      Factory.ofPlan p Providers.builtin = .ok f ∧ f.Shape s ∧ ¬f.Within (.through (.array s))) ∧
    ∃ text p s, ofSource text = .ok p ∧ p.Shape s ∧ s.component.signature?.isSome = true := by
  have hi32 : (TypeRef.primitive .i32).Spelled := ⟨"i32", by decide +kernel⟩
  have hrow : (TypeRef.array (.primitive .i32) 1).Spelled := ⟨"i32[]", by decide +kernel⟩
  constructor
  · have hbound : (Factory.ofPlan (gridPlan ⟨.primitive .i32, 0⟩) Providers.builtin).toOption.any
        (fun f => (f.lookup "grid").any fun i =>
          i.marshaller.shape? = some ⟨.primitive .i32, 0⟩) = true := by decide +kernel
    obtain ⟨f, hf, hgrid⟩ := (Option.any_eq_true _ _).1 hbound
    obtain ⟨i, hi, hm⟩ := (Option.any_eq_true _ _).1 hgrid
    refine ⟨_, _, f, _, ofSource_gridPlan (s := ⟨.primitive .i32, 0⟩) hi32 (by decide),
      shape_gridPlan_iff.2 rfl, rfl, toOption_eq_some_iff.1 hf,
      ⟨"grid", i, hi, Marshaller.eq_of_shape? (of_decide_eq_true hm)⟩, fun h => ?_⟩
    exact absurd (h.2 _ rfl) (by decide)
  · exact ⟨_, _, _, ofSource_gridPlan (s := ⟨.array (.primitive .i32) 1, 1⟩) hrow (by decide),
      shape_gridPlan_iff.2 rfl, rfl⟩

end Plan
end TaggedWire
