import TaggedWire.Proofs.Factory.Accepted
import TaggedWire.Proofs.Factory.RoundTrip
import TaggedWire.Proofs.Value.Repeated

/-!
# Lists, sets and maps of what their elements tell

The marshallers of collections read each part as it tells itself.  A list is what the parts are read
as, a set is that without what repeats an earlier element, and a map has one entry for each key, at
the place of the first pair with that key and with the value of the last.

* `decode_set_eq_ok_iff`, `decode_map_eq_ok_iff`: exactly what is read as a set or a map.
* `decode_collections`: the three marshallers against the readings of the parts, and when they fail.
-/

namespace TaggedWire.Factory

variable {f : Factory} {items : List Json} {v : Value}

/-- The document cannot be read as the slot asks. -/
def Refuses (f : Factory) (j : Json) (slot : Slot) : Prop := ∃ e, f.decode j slot = .error e

/-- The items are read as the values, each as it tells itself. -/
def ReadsItems (f : Factory) (items : List Json) (vs : List Value) : Prop :=
  List.Forall₂ (fun j v => f.decode j .tagged = .ok v) items vs

/-- The items are pairs, and are read as the keys and values. -/
def ReadsPairs (f : Factory) (items : List Json) (pairs : List (Value × Value)) : Prop :=
  List.Forall₂ f.DecodesEntry items pairs

theorem refuses_iff {j : Json} {slot : Slot} :
    f.Refuses j slot ↔ ∀ v, f.decode j slot ≠ .ok v := by
  unfold Refuses
  cases f.decode j slot <;> simp

/-! ### What is read

The items are read one after the other, and what was read before has no influence on what is read
for the next. -/

/-- What is made of the items once all of them are read. -/
theorem decodeItems_bind_eq_ok_iff (collection : List Value → Value) :
    (decodeItems .tagged (items.map f.decode) >>= fun vs => return collection vs) = .ok v ↔
      ∃ vs, f.ReadsItems items vs ∧ v = collection vs := by
  rw [bind_eq_ok_iff]
  simp only [decodeItems_eq_ok_iff, List.forall₂_map_left_iff]
  refine exists_congr fun vs => and_congr_right fun _ => ?_
  exact ⟨fun h => (Except.ok.inj h).symm, fun h => h ▸ rfl⟩

theorem decode_list_eq_ok_iff :
    f.decode (.array items) (.through .list) = .ok v ↔
      ∃ vs, f.ReadsItems items vs ∧ v = .list vs := by
  rw [decode_array]
  exact decodeItems_bind_eq_ok_iff .list

/-- A set keeps what equals no element before it. -/
theorem decode_set_eq_ok_iff :
    f.decode (.array items) (.through .set) = .ok v ↔
      ∃ vs, f.ReadsItems items vs ∧ v = .set (Value.unrepeated vs) := by
  simp only [← Value.distinct_eq_unrepeated]
  rw [decode_array]
  exact decodeItems_bind_eq_ok_iff .setOf

/-- Reading the pairs one after the other puts them into the map in their order. -/
theorem foldlM_readEntry_eq_ok_iff {done entries : List (Value × Value)} :
    items.foldlM f.readEntry done = .ok entries ↔
      ∃ pairs, f.ReadsPairs items pairs ∧
        entries = pairs.foldl (fun done p => Value.put p.1 p.2 done) done := by
  -- by induction on the items, for the map as it was made of those before
  induction items generalizing done with
  | nil =>
    simp only [ReadsPairs, List.forall₂_nil_left_iff, exists_eq_left, List.foldl_nil]
    exact ⟨fun h => (Except.ok.inj h).symm, fun h => h ▸ rfl⟩
  | cons j js ih =>
    rw [List.foldlM_cons, bind_eq_ok_iff]
    simp only [ReadsPairs, List.forall₂_cons_left_iff]
    constructor
    · rintro ⟨done', hstep, hrest⟩
      obtain ⟨p, hp, rfl⟩ := f.readEntry_eq_ok_iff.1 hstep
      obtain ⟨pairs, hpairs, hentries⟩ := ih.1 hrest
      exact ⟨p :: pairs, ⟨p, pairs, hp, hpairs, rfl⟩, hentries⟩
    · rintro ⟨_, ⟨p, pairs, hp, hpairs, rfl⟩, hentries⟩
      exact ⟨_, f.readEntry_eq_ok_iff.2 ⟨p, hp, rfl⟩, ih.2 ⟨pairs, hpairs, hentries⟩⟩

/-- A map keeps each key once, with the value that came last. -/
theorem decode_map_eq_ok_iff :
    f.decode (.array items) (.through .map) = .ok v ↔
      ∃ pairs, f.ReadsPairs items pairs ∧ v = .map (Value.entriesOf pairs) := by
  have hstep : f.decode (.array items) (.through .map) =
      (decodeEntries (items.map f.entryDecoder) >>= fun entries => return .map entries) := by
    rw [decode_array]
    rfl
  rw [hstep, bind_eq_ok_iff]
  simp only [decodeEntries_map, foldlM_readEntry_eq_ok_iff]
  constructor
  · rintro ⟨entries, ⟨pairs, hpairs, rfl⟩, hv⟩
    exact ⟨pairs, hpairs, (Except.ok.inj hv).symm⟩
  · rintro ⟨pairs, hpairs, rfl⟩
    exact ⟨_, ⟨pairs, hpairs, rfl⟩, rfl⟩

/-! ### What is refused

A collection is refused for one of its parts.  For a map this may also be an item that is no pair.
-/

theorem exists_readsItems_iff :
    (∃ vs, f.ReadsItems items vs) ↔ ∀ j ∈ items, ¬ f.Refuses j .tagged := by
  constructor
  · rintro ⟨vs, hvs⟩ j hj hrefuses
    obtain ⟨v, -, hv⟩ := exists_of_forall₂ hvs j hj
    exact refuses_iff.1 hrefuses v hv
  · intro h
    refine exists_forall₂ fun j hj => ?_
    simpa [refuses_iff] using h j hj

/-- The item is no pair, or one of its two parts cannot be read. -/
def RefusesPair (f : Factory) (j : Json) : Prop :=
  (∀ k v, j ≠ .array [k, v]) ∨
    ∃ k v, j = .array [k, v] ∧ (f.Refuses k .tagged ∨ f.Refuses v .tagged)

theorem exists_decodesEntry_iff {j : Json} : (∃ p, f.DecodesEntry j p) ↔ ¬ f.RefusesPair j := by
  constructor
  · rintro ⟨p, jk, jv, rfl, hk, hv⟩ (hnone | ⟨k, v, heq, hrefuses⟩)
    · exact hnone jk jv rfl
    · cases heq
      rcases hrefuses with hrefuses | hrefuses
      · exact refuses_iff.1 hrefuses p.1 hk
      · exact refuses_iff.1 hrefuses p.2 hv
  · intro h
    -- not refused: it is a pair, and both parts of it are read
    obtain ⟨hpair, hparts⟩ := not_or.1 h
    simp only [not_forall, not_not] at hpair
    obtain ⟨jk, jv, rfl⟩ := hpair
    have hread (j : Json) (hj : ¬ f.Refuses j .tagged) : ∃ v, f.decode j .tagged = .ok v := by
      simpa [refuses_iff] using hj
    obtain ⟨k, hk⟩ := hread jk fun hrefuses => hparts ⟨jk, jv, rfl, .inl hrefuses⟩
    obtain ⟨v, hv⟩ := hread jv fun hrefuses => hparts ⟨jk, jv, rfl, .inr hrefuses⟩
    exact ⟨(k, v), jk, jv, rfl, hk, hv⟩

theorem exists_readsPairs_iff :
    (∃ pairs, f.ReadsPairs items pairs) ↔ ∀ j ∈ items, ¬ f.RefusesPair j := by
  simp only [← exists_decodesEntry_iff]
  constructor
  · rintro ⟨pairs, hpairs⟩ j hj
    obtain ⟨p, -, hp⟩ := exists_of_forall₂ hpairs j hj
    exact ⟨p, hp⟩
  · exact exists_forall₂

/-- What is read from some parts is read from none exactly when there are no such parts. -/
theorem refuses_iff_of_reads {β : Type} {j : Json} {slot : Slot} {reads : β → Prop}
    {read : β → Value} (h : ∀ v, f.decode j slot = .ok v ↔ ∃ b, reads b ∧ v = read b) :
    f.Refuses j slot ↔ ∀ b, ¬ reads b := by
  rw [refuses_iff]
  constructor
  · exact fun hnone b hb => hnone (read b) ((h _).2 ⟨b, hb, rfl⟩)
  · intro hnone v hv
    obtain ⟨b, hb, -⟩ := (h v).1 hv
    exact hnone b hb

/-- A list or set is refused if one of its elements is, a map if one of its items is no pair or
cannot be read as one, and for no other reason. -/
theorem refuses_collection (f : Factory) (items : List Json) :
    (f.Refuses (.array items) (.through .list) ↔ ∃ j ∈ items, f.Refuses j .tagged) ∧
      (f.Refuses (.array items) (.through .set) ↔ ∃ j ∈ items, f.Refuses j .tagged) ∧
      (f.Refuses (.array items) (.through .map) ↔ ∃ j ∈ items, f.RefusesPair j) := by
  have hitems : (∃ j ∈ items, f.Refuses j .tagged) ↔ ∀ vs, ¬ f.ReadsItems items vs := by
    rw [← not_exists, exists_readsItems_iff]
    simp only [not_forall, not_not, exists_prop]
  have hpairs : (∃ j ∈ items, f.RefusesPair j) ↔ ∀ pairs, ¬ f.ReadsPairs items pairs := by
    rw [← not_exists, exists_readsPairs_iff]
    simp only [not_forall, not_not, exists_prop]
  rw [hitems, hpairs]
  exact ⟨refuses_iff_of_reads fun _ => decode_list_eq_ok_iff,
    refuses_iff_of_reads fun _ => decode_set_eq_ok_iff,
    refuses_iff_of_reads fun _ => decode_map_eq_ok_iff⟩

/-- What the marshallers of collections make of an array, told from what its parts are read as.  A
list is all of it; a set has what equals no earlier element; a map has the keys that equal no
earlier key, each with the value of the last pair with that key.  They fail only because a part
does, or because what should be a pair is none. -/
theorem decode_collections (f : Factory) (items : List Json) :
    (∀ vs, f.ReadsItems items vs →
      f.decode (.array items) (.through .list) = .ok (.list vs) ∧
      f.decode (.array items) (.through .set) = .ok (.set (Value.unrepeated vs)) ∧
      Value.setOf vs = .set (Value.unrepeated vs) ∧
      Value.Unequal (Value.unrepeated vs) ∧ (Value.unrepeated vs).Sublist vs) ∧
    (∀ pairs, f.ReadsPairs items pairs → ∃ entries,
      f.decode (.array items) (.through .map) = .ok (.map entries) ∧
      Value.Unequal (entries.map (·.1)) ∧
      entries.map (·.1) = Value.unrepeated (pairs.map (·.1)) ∧
      ∀ e ∈ entries, Value.Last pairs e) ∧
    (f.Refuses (.array items) (.through .list) ↔ ∃ j ∈ items, f.Refuses j .tagged) ∧
    (f.Refuses (.array items) (.through .set) ↔ ∃ j ∈ items, f.Refuses j .tagged) ∧
    (f.Refuses (.array items) (.through .map) ↔ ∃ j ∈ items, f.RefusesPair j) := by
  refine ⟨fun vs hvs => ⟨?_, ?_, ?_, ?_, ?_⟩, fun pairs hpairs => ?_, refuses_collection f items⟩
  · exact decode_list_eq_ok_iff.2 ⟨vs, hvs, rfl⟩
  · exact decode_set_eq_ok_iff.2 ⟨vs, hvs, rfl⟩
  · rw [Value.setOf, Value.distinct_eq_unrepeated]
  · exact Value.distinct_eq_unrepeated vs ▸ Value.unequal_distinct vs
  · exact Value.unrepeated_sublist vs
  · exact ⟨_, decode_map_eq_ok_iff.2 ⟨pairs, hpairs, rfl⟩, Value.unequal_entriesOf pairs,
      Value.keys_entriesOf pairs, fun e => Value.last_of_mem_entriesOf⟩

/-! ### Zeros of both signs

The two zeros are equal and written differently, so that one can tell which of them is kept. -/

/-- A floating point number under its tag. -/
def taggedReal (x : Binary64) : Json :=
  .object [(Wire.typeKey, .string "f64"), (Wire.valueKey, .number (.real x))]

theorem decode_taggedReal {i : Instance} (hlookup : f.lookup "f64" = some i)
    (hscalar : i.marshaller = .scalar .f64) (x : Binary64) :
    f.decode (taggedReal x) .tagged = .ok (.scalar (.f64 x)) := by
  have haccepts : i.marshaller.accepts (.number (.real x)) = true := by
    rw [hscalar]
    rfl
  rw [taggedReal, decode_wrapped hlookup haccepts, hscalar]
  rfl

/-- Zero with the given sign. -/
def zero (negative : Bool) : Binary64 := .ofMagnitude negative 0

/-- Zero and its opposite, each with a word, are one entry of a map. -/
def zeroPairs : List Json :=
  [.array [taggedReal (zero false), .string "first"],
    .array [taggedReal (zero true), .string "last"]]

/-- The two zeros are one element of a set and one key of a map, and a pair without a value is read
as no map. -/
theorem decode_collections_zeros : ∃ c f,
    (⟨c, Providers.builtin⟩ : Generator).factory "demo" "Factory" = .ok f ∧
    f.decode (.array [taggedReal (zero false), taggedReal (zero true)]) (.through .set) =
      .ok (.set [.scalar (.f64 (zero false))]) ∧
    f.decode (.array zeroPairs) (.through .map) =
      .ok (.map [(.scalar (.f64 (zero false)), .string "last")]) ∧
    f.Refuses (.array [.array [.string "first"]]) (.through .map) := by
  obtain ⟨c, f, hstandard, hf⟩ := Generator.exists_plainFactory
  obtain ⟨i, hlookup, hscalar⟩ := hstandard.basic
    (Generator.generated_of_factory hstandard.spelled hf) (m := .scalar .f64) trivial
  have hread := decode_taggedReal hlookup hscalar
  have hequal : (Value.scalar (.f64 (zero false))).equal (.scalar (.f64 (zero true))) = true := by
    decide +kernel
  have hkeys : Value.unrepeated [.scalar (.f64 (zero false)), .scalar (.f64 (zero true))] =
      [.scalar (.f64 (zero false))] := by
    rw [← Value.distinct_eq_unrepeated]
    simp [Value.distinct, Value.add, hequal]
  have hpairs : f.ReadsPairs zeroPairs [(.scalar (.f64 (zero false)), .string "first"),
      (.scalar (.f64 (zero true)), .string "last")] :=
    .cons ⟨_, _, rfl, hread _, rfl⟩ (.cons ⟨_, _, rfl, hread _, rfl⟩ .nil)
  refine ⟨c, f, hf, ?_, ?_, ?_⟩
  · obtain ⟨-, hset, -⟩ := (decode_collections f _).1 _ (.cons (hread _) (.cons (hread _) .nil))
    rw [hset, hkeys]
  · obtain ⟨entries, hmap, -, hentries, hlast⟩ := (decode_collections f _).2.1 _ hpairs
    rw [List.map_cons, List.map_singleton, hkeys] at hentries
    obtain ⟨⟨key, word⟩, rfl, rfl⟩ := List.map_eq_singleton_iff.1 hentries
    -- the pair whose word is kept is the last, since its key equals the one before
    obtain ⟨front, p, back, hsplit, -, rfl, hback⟩ := hlast _ List.mem_cons_self
    rcases List.cons_eq_append_iff.1 hsplit with ⟨rfl, hsplit⟩ | ⟨front, -, hsplit⟩
    · cases hsplit
      cases hequal.symm.trans (hback _ List.mem_cons_self)
    · rcases List.singleton_eq_append_iff.1 hsplit with ⟨-, hsplit⟩ | ⟨-, hsplit⟩
      · cases hsplit
        exact hmap
      · cases hsplit
  · refine (decode_collections f _).2.2.2.2.2 ⟨_, List.mem_cons_self, .inl ?_⟩
    rintro k v ⟨⟩

end TaggedWire.Factory
