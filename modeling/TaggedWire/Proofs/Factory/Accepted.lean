import TaggedWire.Proofs.Factory.Coding
import TaggedWire.Proofs.Factory.Coherent
import TaggedWire.Proofs.Json.Floating
import TaggedWire.Proofs.Table

/-!
# What is written is well-formed

The encoder puts texts together without building a document.  By induction on the value, every text
that it writes denotes a document all the same, and a text that is written where no type is declared
denotes one that tells its type.  What the encoder does not watch is nesting: the tags around lists
and arrays are containers of their own, and the parser refuses a text that nests too deep.

* `Factory.denoted`: what is written in any slot denotes a document.
* `Generator.nesting_nested`: each list around a value adds two to the nesting.
* `Generator.parse_marshal`: what is written is parsed exactly within the limit on nesting.
-/

namespace TaggedWire

/-- The document tells its type: null, a truth value and a text do, and so does a tagged object. -/
inductive Wire.TellsType : Json → Prop
  | null : TellsType .null
  | bool (b : Bool) : TellsType (.bool b)
  | string (s : String) : TellsType (.string s)
  | object {members : List (String × Json)} (h : isTagged (.object members) = true) :
    TellsType (.object members)

/-- What the slot asks for is written by a usual marshaller. -/
def Slot.Usual : Slot → Prop
  | .through m => m.Usual
  | .tagged | .declared _ _ | .row _ _ => True

namespace Factory

/-- What is written for the value in the slot denotes a document, which tells its type where the
slot does not. -/
def Denoted (f : Factory) (v : Value) (slot : Slot) : Prop :=
  ∀ s, f.encode v slot = .ok s →
    ∃ j, Json.Written s j ∧ (slot = .tagged → Wire.TellsType j)

/-- What the marshaller writes for the value denotes a document, which tells its type where the
marshaller is said to. -/
def DenotedThrough (f : Factory) (v : Value) (m : Marshaller) : Prop :=
  ∀ s, f.encode v (.through m) = .ok s →
    ∃ j, Json.Written s j ∧ (m.isSelfDescribing = true → Wire.TellsType j)

variable {f : Factory}

/-! ### Null, scalars, strings

There are no parts, so these are the base cases of the induction. -/

theorem denoted_null (slot : Slot) : f.Denoted .null slot := by
  intro s h
  obtain ⟨rfl, -⟩ := f.coding_null h
  exact ⟨.null, Json.written_null, fun _ => .null⟩

theorem denotedThrough_scalar (x : Scalar) (m : Marshaller) (hm : m.Usual) :
    f.DenotedThrough (.scalar x) m := by
  intro s h
  rw [encode] at h
  cases m with
  | scalar p =>
    change (if x.primitive = p then x.text else Except.error _) = _ at h
    split at h
    · next hp =>
      subst hp
      obtain ⟨j, hwritten, hbool⟩ := Scalar.exists_written_text h
      refine ⟨j, hwritten, fun hself => ?_⟩
      -- among the scalars only a truth value goes without a tag
      cases x with
      | bool b => exact hbool b rfl ▸ .bool b
      | _ => cases hself
    · cases h
  | foreign _ => exact hm.elim
  | _ => cases h

theorem denotedThrough_string (t : String) (m : Marshaller) (hm : m.Usual) :
    f.DenotedThrough (.string t) m := by
  intro s h
  rw [encode] at h
  cases m with
  | string =>
    cases h
    exact ⟨.string t, Json.written_quote t, fun _ => .string t⟩
  | foreign _ => exact hm.elim
  | _ => cases h

/-! ### Lists, sets, arrays, maps

A text composed of texts that denote documents denotes the document composed of these. -/

/-- The items of an array denote documents if each does. -/
theorem exists_written_items {items : List Value} {slot : Slot} (h : ∀ v ∈ items, f.Denoted v slot)
    {s : String} (hs : encodeItems slot (items.map f.encode) = .ok s) :
    ∃ js, Json.Written s (.array js) := by
  obtain ⟨texts, htexts, rfl⟩ := encodeItems_eq_ok_iff.1 hs
  rw [List.forall₂_map_left_iff] at htexts
  obtain ⟨js, hjs⟩ : ∃ js, List.Forall₂ Json.Written texts js := by
    apply exists_forall₂
    intro t ht
    obtain ⟨v, hv, hencode⟩ := exists_of_forall₂ htexts.flip t ht
    obtain ⟨j, hj, -⟩ := h v hv t hencode
    exact ⟨j, hj⟩
  exact ⟨js, Json.written_array hjs⟩

theorem denotedThrough_list {items : List Value} (h : ∀ v ∈ items, f.Denoted v .tagged)
    (m : Marshaller) (hm : m.Usual) : f.DenotedThrough (.list items) m := by
  intro s hs
  rw [encode_list] at hs
  cases m with
  | list =>
    obtain ⟨js, hjs⟩ := exists_written_items h hs
    exact ⟨_, hjs, nofun⟩
  | foreign _ => exact hm.elim
  | _ => cases hs

theorem denotedThrough_set {items : List Value} (h : ∀ v ∈ items, f.Denoted v .tagged)
    (m : Marshaller) (hm : m.Usual) : f.DenotedThrough (.set items) m := by
  intro s hs
  rw [encode_set] at hs
  cases m with
  | set =>
    obtain ⟨js, hjs⟩ := exists_written_items h hs
    exact ⟨_, hjs, nofun⟩
  | foreign _ => exact hm.elim
  | _ => cases hs

theorem denotedThrough_array {signature : ArraySignature} {items : List Value}
    (h : ∀ v ∈ items, ∀ slot : Slot, slot.Usual → f.Denoted v slot) (m : Marshaller)
    (hm : m.Usual) : f.DenotedThrough (.array signature items) m := by
  intro s hs
  rw [encode_array] at hs
  cases m with
  | array r =>
    obtain ⟨-, hs⟩ := encodeRows_eq_ok_iff.1 hs
    have hslot : ∀ owner, (Slot.element r.component r.dimensions owner).Usual := by
      intro owner
      unfold Slot.element
      split <;> trivial
    obtain ⟨js, hjs⟩ := exists_written_items (fun v hv => h v hv _ (hslot _)) hs
    exact ⟨_, hjs, nofun⟩
  | foreign _ => exact hm.elim
  | _ => cases hs

theorem denotedThrough_map {entries : List (Value × Value)}
    (h : ∀ e ∈ entries, f.Denoted e.1 .tagged ∧ f.Denoted e.2 .tagged) (m : Marshaller)
    (hm : m.Usual) : f.DenotedThrough (.map entries) m := by
  intro s hs
  rw [encode_map] at hs
  cases m with
  | map =>
    obtain ⟨texts, htexts, rfl⟩ := encodeEntries_eq_ok_iff.1 hs
    rw [List.forall₂_map_left_iff] at htexts
    -- each entry is an array of two documents, that of the key and that of the value
    obtain ⟨js, hjs⟩ : ∃ js, List.Forall₂ Json.Written texts js := by
      apply exists_forall₂
      intro t ht
      obtain ⟨e, he, tk, tv, hk, hv, rfl⟩ := exists_of_forall₂ htexts.flip t ht
      obtain ⟨hkey, hvalue⟩ := h e he
      obtain ⟨jk, hjk, -⟩ := hkey tk hk
      obtain ⟨jv, hjv, -⟩ := hvalue tv hv
      exact ⟨_, Json.written_array (.cons hjk (.cons hjv .nil))⟩
    exact ⟨_, Json.written_array hjs, nofun⟩
  | foreign _ => exact hm.elim
  | _ => cases hs

/-! ### Tagged objects

The tag comes first, and no other member has its key, so that it is the tag of the whole. -/

/-- A tag in front of other members is the tag of the object. -/
theorem tag?_cons {type : String} {members : List (String × Json)}
    (h : Wire.typeKey ∉ members.map (·.1)) :
    Wire.tag? (.object ((Wire.typeKey, .string type) :: members)) = some type := by
  show (Json.find? Wire.typeKey ([(Wire.typeKey, Json.string type)] ++ members)).bind _ = _
  rw [Json.find?_append, Json.find?_eq_none h, Option.none_or]
  rfl

/-- Members under keys of their own, with a tag in front, make an object that tells its type. -/
theorem exists_written_tagged (type : String) (names : List String) {texts : List String}
    {js : List Json} (h : List.Forall₂ Json.Written texts js) (hnames : Wire.typeKey ∉ names) :
    ∃ j, Json.Written (Wire.taggedText type (names.zip texts)) j ∧ Wire.TellsType j := by
  refine ⟨.object ((Wire.typeKey, .string type) :: names.zip js), Json.written_object
    (.cons ⟨rfl, Json.written_quote type⟩ (Json.writtenMember_zip names h)), .object ?_⟩
  have hkeys : Wire.typeKey ∉ (names.zip js).map (·.1) := by
    intro hmem
    obtain ⟨m, hm, hkey⟩ := List.mem_map.1 hmem
    exact hnames (hkey ▸ (List.of_mem_zip hm).1)
  rw [Wire.isTagged, tag?_cons hkeys, Option.isSome_some]

theorem denotedThrough_enumeration (claimed variant : String) (m : Marshaller) (hm : m.Usual) :
    f.DenotedThrough (.enumeration claimed variant) m := by
  intro s hs
  rw [encode] at hs
  cases m with
  | enumeration type variants =>
    change f.encodeConstant type variants claimed variant = _ at hs
    obtain ⟨-, hs⟩ := guard_eq_ok_iff.1 hs
    split at hs
    · cases hs
      obtain ⟨j, hj, htells⟩ := exists_written_tagged claimed [Wire.constantKey]
        (.cons (Json.written_quote variant) .nil) (by decide)
      exact ⟨j, hj, fun _ => htells⟩
    · cases hs
  | foreign _ => exact hm.elim
  | _ => cases hs

theorem denotedThrough_object {claimed : String} {fields : List (String × Value)}
    (h : ∀ e ∈ fields, ∀ slot : Slot, slot.Usual → f.Denoted e.2 slot) (m : Marshaller)
    (hm : m.Usual) : f.DenotedThrough (.object claimed fields) m := by
  intro s hs
  cases m with
  | object type declared =>
    obtain ⟨-, -, texts, htexts, rfl⟩ := (encode_object_eq_ok_iff f).1 hs
    obtain ⟨js, hjs⟩ : ∃ js, List.Forall₂ Json.Written texts js := by
      apply exists_forall₂
      intro t ht
      obtain ⟨field, -, hwrites⟩ := exists_of_forall₂ htexts.flip t ht
      have hvalue := fieldValue_of_forall (p := fun v => ∀ slot : Slot, slot.Usual →
        f.Denoted v slot) (fun slot _ => denoted_null slot) h field.name
      obtain ⟨j, hj, -⟩ := hvalue (.declared _ _) trivial t hwrites
      exact ⟨j, hj⟩
    -- no field has a reserved name, so none hides the tag
    have hnames : Wire.typeKey ∉ (declared.filter (·.readable)).map (·.name) := by
      intro hmem
      obtain ⟨field, hfield, hname⟩ := List.mem_map.1 hmem
      refine (hm field (List.mem_of_mem_filter hfield)).2 ?_
      rw [hname]
      rfl
    obtain ⟨j, hj, htells⟩ := exists_written_tagged claimed _ hjs hnames
    exact ⟨j, hj, fun _ => htells⟩
  | foreign _ => exact hm.elim
  | _ =>
    rw [encode_object] at hs
    cases hs

/-! ### All slots

What is written through a marshaller is written for every slot, with a tag around it if the
marshaller does not tell the type. -/

theorem denoted_tagged (hf : f.Usual) {v : Value}
    (h : ∀ m : Marshaller, m.Usual → f.DenotedThrough v m) : f.Denoted v .tagged := by
  intro s hs
  rw [encode_tagged] at hs
  cases hid : v.typeId? with
  | none =>
    rw [hid] at hs
    cases hs
    exact ⟨.null, Json.written_null, fun _ => .null⟩
  | some id =>
    rw [hid] at hs
    obtain ⟨i, hi, hs⟩ := bind_eq_ok_iff.1 hs
    obtain ⟨plain, hplain, hs⟩ := bind_eq_ok_iff.1 hs
    have husual := hf id i ((require_eq_ok_iff _ _ _ _).1 hi)
    obtain ⟨j, hj, htells⟩ := h i.marshaller husual plain hplain
    -- a text that does not name its type is put beside the name, in an object that does
    cases hself : i.marshaller.isSelfDescribing with
    | true =>
      rw [hself] at hs
      cases hs
      exact ⟨j, hj, fun _ => htells hself⟩
    | false =>
      rw [hself] at hs
      cases hs
      obtain ⟨k, hk, hktells⟩ := exists_written_tagged id [Wire.valueKey]
        (.cons hj .nil) (by decide)
      exact ⟨k, hk, fun _ => hktells⟩

theorem denoted_of_through (hf : f.Usual) {v : Value}
    (h : ∀ m : Marshaller, m.Usual → f.DenotedThrough v m) (slot : Slot) (hslot : slot.Usual) :
    f.Denoted v slot := by
  have htagged := denoted_tagged hf h
  intro s hs
  -- by the slot; only the tagged one promises that the type is told
  cases slot with
  | tagged => exact htagged s hs
  | through m =>
    obtain ⟨j, hj, -⟩ := h m hslot s hs
    exact ⟨j, hj, nofun⟩
  | row component dimensions =>
    rw [encode_row] at hs
    cases v with
    | null =>
      cases hs
      exact ⟨.null, Json.written_null, nofun⟩
    | array signature items =>
      obtain ⟨j, hj, -⟩ := h (.array ⟨component, dimensions⟩) trivial s hs
      exact ⟨j, hj, nofun⟩
    | _ => cases hs
  | declared type owner =>
    rw [encode_declared] at hs
    split at hs
    · split at hs
      · cases hs
        exact ⟨.null, Json.written_null, nofun⟩
      · cases hs
    · split at hs
      · obtain ⟨j, hj, -⟩ := htagged s hs
        exact ⟨j, hj, nofun⟩
      · obtain ⟨-, -, hs⟩ := bind_eq_ok_iff.1 hs
        obtain ⟨j, hj, -⟩ := htagged s hs
        exact ⟨j, hj, nofun⟩
      · obtain ⟨i, hi, hs⟩ := bind_eq_ok_iff.1 hs
        obtain ⟨j, hj, -⟩ := h _ (hf _ i ((require_eq_ok_iff _ _ _ _).1 hi)) s hs
        exact ⟨j, hj, nofun⟩

/-- What is written in any slot denotes a document. -/
theorem denoted (hf : f.Usual) (v : Value) (slot : Slot) (hslot : slot.Usual) :
    f.Denoted v slot := by
  -- by induction on the value, for all slots at once, since its parts stand in slots of their own
  induction v using Value.induction generalizing slot with
  | null => exact denoted_null slot
  | scalar x => exact denoted_of_through hf (denotedThrough_scalar x) slot hslot
  | string s => exact denoted_of_through hf (denotedThrough_string s) slot hslot
  | list items ih =>
    refine denoted_of_through hf (denotedThrough_list fun v hv => ?_) slot hslot
    exact ih v hv .tagged trivial
  | set items ih =>
    refine denoted_of_through hf (denotedThrough_set fun v hv => ?_) slot hslot
    exact ih v hv .tagged trivial
  | map entries ih =>
    refine denoted_of_through hf (denotedThrough_map fun e he => ?_) slot hslot
    exact ⟨(ih e he).1 .tagged trivial, (ih e he).2 .tagged trivial⟩
  | array signature items ih => exact denoted_of_through hf (denotedThrough_array ih) slot hslot
  | enumeration type variant =>
    exact denoted_of_through hf (denotedThrough_enumeration type variant) slot hslot
  | object type fields ih => exact denoted_of_through hf (denotedThrough_object ih) slot hslot

/-! ### Parsed again

A text that denotes a document is parsed as this document, unless it nests too deep. -/

/-- What is written under a value's own type is the text of a document that tells its type.  It is
parsed as this document within the limit on nesting, and is refused beyond it. -/
theorem parse_of_marshal (hf : f.Usual) {v : Value} {s : String} (h : f.marshal v = .ok s) :
    ∃ j, Json.Written s j ∧ Wire.TellsType j ∧ Wire.parse s =
      if Json.nesting s ≤ Json.nestingLimit then .ok j
      else .error (.parse "wire" "not a JSON document") := by
  obtain ⟨j, hwritten, htells⟩ := denoted hf v .tagged trivial s h
  refine ⟨j, hwritten, htells rfl, ?_⟩
  rw [Wire.parse, hwritten.parse?_eq]
  by_cases hlimit : Json.nesting s ≤ Json.nestingLimit <;> simp [hlimit]

/-- Only documents that tell their types are read where no type is declared. -/
theorem tellsType_of_decode {j : Json} {v : Value} (h : f.decode j .tagged = .ok v) :
    Wire.TellsType j := by
  -- what is read without a declared type tells its type: numbers and arrays do not, and are refused
  cases j with
  | null => exact .null
  | bool b => exact .bool b
  | string s => exact .string s
  | number n =>
    rw [decode] at h
    cases h
  | array items =>
    rw [decode_array] at h
    cases h
  | object members =>
    rw [decode_object_tagged] at h
    apply Wire.TellsType.object
    rw [Wire.isTagged]
    cases htag : Wire.tag? (.object members) with
    | none =>
      rw [htag] at h
      cases h
    | some tag => rfl

end Factory

namespace Generator

open Factory

/-! ### Lists in lists

Each list around a value is a tagged object with an array in it: two containers. -/

theorem marshal_list {f : Factory} {i : Instance} (hlookup : f.lookup "list" = some i)
    (hlist : i.marshaller = .list) {items : List Value} {texts : List String}
    (h : List.Forall₂ (fun v t => f.marshal v = .ok t) items texts) :
    f.marshal (.list items) = .ok (Wire.wrapText "list" (Json.arrayText texts)) := by
  have hitems : f.encode (.list items) (.through .list) = .ok (Json.arrayText texts) := by
    rw [encode_list]
    exact encodeItems_eq_ok_iff.2 ⟨texts, List.forall₂_map_left_iff.2 h, rfl⟩
  show f.encode (.list items) .tagged = _
  rw [encode_tagged]
  refine bind_eq_ok_iff.2 ⟨i, (require_eq_ok_iff _ _ _ _).2 hlookup, ?_⟩
  rw [hlist]
  exact bind_eq_ok_iff.2 ⟨_, hitems, rfl⟩

/-- Lists around a value. -/
def nested (v : Value) : Nat → Value
  | 0 => v
  | n + 1 => .list [nested v n]

/-- The array of a list and the tag around it are a container each. -/
theorem exists_tree_nested {f : Factory} {i : Instance} (hlookup : f.lookup "list" = some i)
    (hlist : i.marshaller = .list) {v : Value} {s : String} (hs : f.marshal v = .ok s)
    {t : Json.Tree} (ht : Json.Tree.parse? s = some t) (n : Nat) :
    ∃ s' t', f.marshal (nested v n) = .ok s' ∧ Json.Tree.parse? s' = some t' ∧
      t'.depth = 2 * n + t.depth := by
  -- by induction on the lists around the value
  induction n with
  | zero => exact ⟨s, t, hs, ht, (Nat.zero_add _).symm⟩
  | succ n ih =>
    obtain ⟨s', t', hs', ht', hdepth⟩ := ih
    obtain ⟨u, hu, hudepth⟩ : ∃ u, Json.Tree.parse? (Wire.wrapText "list" (Json.arrayText [s'])) =
        some u ∧ u.depth = t'.depth + 2 := by
      refine ⟨_, Json.Tree.parse?_objectText (.cons (Json.Tree.parse?_quote "list")
        (.cons (Json.Tree.parse?_arrayText (.cons ht' .nil)) .nil)), ?_⟩
      simp [Json.Tree.depth, Json.Tree.membersDepth, Json.Tree.itemsDepth]
    refine ⟨_, u, marshal_list hlookup hlist (.cons hs' .nil), hu, ?_⟩
    omega

/-- In every factory over the built-in types, each list around a value adds two to the nesting of
the text. -/
theorem nesting_nested {g : Generator} {d : Catalog} (hstandard : g.Standard d)
    (hclasses : ∀ t ∈ d.types, ∀ name, t.className = some name →
      Providers.builtin.contains name = true) {package className : String} {f : Factory}
    (h : g.factory package className = .ok f) {v : Value} {s : String} (hs : f.marshal v = .ok s)
    (n : Nat) :
    ∃ s', f.marshal (nested v n) = .ok s' ∧ Json.nesting s' = 2 * n + Json.nesting s := by
  obtain ⟨i, hlookup, hlist⟩ :=
    hstandard.basic (generated_of_factory hstandard.spelled h) (m := .list) trivial
  obtain ⟨j, ⟨t, ht, -⟩, -⟩ := parse_of_marshal (usual_of_factory hstandard.over hclasses h) hs
  obtain ⟨s', t', hs', ht', hdepth⟩ := exists_tree_nested hlookup hlist hs ht n
  refine ⟨s', hs', ?_⟩
  rw [Json.nesting, Json.nesting, ht', ht]
  exact hdepth

/-! ### Factories of documents

The theorem for catalogs of documents, and a value on each side of the limit. -/

/-- There is a factory of the built-in types alone. -/
theorem exists_plainFactory : ∃ c f, (⟨c, Providers.builtin⟩ : Generator).Standard .empty ∧
    (⟨c, Providers.builtin⟩ : Generator).factory "demo" "Factory" = .ok f := by
  have hsome : (factoryOver .empty).toOption.isSome = true := by decide +kernel
  obtain ⟨f, hf⟩ := Option.isSome_iff_exists.1 hsome
  have hread : (Catalog.parse .json "\x7b\x7d").toOption = some .empty := by decide +kernel
  obtain ⟨c, hstandard, hf⟩ :=
    standard_of_factoryOver (toOption_eq_some_iff.1 hread) (toOption_eq_some_iff.1 hf)
  exact ⟨c, f, hstandard, hf⟩

/-- What is written is the text of a document of one of the forms that are read where no type is
declared, however deep it nests, and is parsed as this document exactly within the limit. -/
theorem parse_marshal {g : Generator} {d : Catalog} (hover : g.Over d)
    (hclasses : ∀ t ∈ d.types, ∀ name, t.className = some name →
      Providers.builtin.contains name = true) {package className : String} {f : Factory}
    (h : g.factory package className = .ok f) {v : Value} {s : String}
    (hs : f.marshal v = .ok s) :
    (∃ j, Json.Written s j ∧ Wire.TellsType j ∧ Wire.parse s =
      if Json.nesting s ≤ Json.nestingLimit then .ok j
      else .error (.parse "wire" "not a JSON document")) ∧
    ∀ j w, f.decode j .tagged = .ok w → Wire.TellsType j :=
  ⟨parse_of_marshal (usual_of_factory hover hclasses h) hs, fun _ _ => tellsType_of_decode⟩

/-- An object type with a constant in a field. -/
def lampDocument : String :=
  "\x7b\"types\":[\x7b\"name\":\"Hue\",\"kind\":\"enum\",\"variants\":[\"RED\"]\x7d," ++
    "\x7b\"name\":\"Lamp\",\"kind\":\"object\",\"fields\":[" ++
    "\x7b\"name\":\"hue\",\"type\":\"Hue\"\x7d]\x7d]\x7d"

/-- The catalog of the document. -/
def lamps : Catalog :=
  ⟨[⟨"Hue", .enumeration ["RED"], none⟩,
    ⟨"Lamp", .object [⟨"hue", .named "Hue", true, true⟩], none⟩], .empty⟩

theorem parse_lampDocument : Catalog.parse .json lampDocument = .ok lamps := by
  have h : (Catalog.parse .json lampDocument).toOption = some lamps := by decide +kernel
  exact toOption_eq_some_iff.1 h

/-- A lamp, which is written with a container for itself and one for its constant. -/
def redLamp : Value := .object "Lamp" [("hue", .enumeration "Hue" "RED")]

theorem redLamp_written : (factoryOver lamps).toOption.any (fun f =>
    (f.marshal redLamp).toOption.any fun s => decide (Json.nesting s = 2)) = true := by
  decide +kernel

theorem exists_nestedLamp (n : Nat) : ∃ c f s, (⟨c, Providers.builtin⟩ : Generator).Standard lamps ∧
    (⟨c, Providers.builtin⟩ : Generator).factory "demo" "Factory" = .ok f ∧
    f.marshal (nested redLamp n) = .ok s ∧ Json.nesting s = 2 * n + 2 := by
  obtain ⟨f, hf, hwritten⟩ := (Option.any_eq_true _ _).1 redLamp_written
  obtain ⟨c, hstandard, hf⟩ :=
    standard_of_factoryOver parse_lampDocument (toOption_eq_some_iff.1 hf)
  obtain ⟨s, hs, hnesting⟩ := (Option.any_eq_true _ _).1 hwritten
  obtain ⟨s', hs', hnesting'⟩ :=
    nesting_nested hstandard (by simp [lamps]) hf (toOption_eq_some_iff.1 hs) n
  exact ⟨c, f, s', hstandard, hf, hs', by rw [hnesting', of_decide_eq_true hnesting]⟩

/-- The text of a lamp in 62 lists is parsed. -/
theorem parse_marshal_nestedLamp : ∃ c f s j,
    (⟨c, Providers.builtin⟩ : Generator).factory "demo" "Factory" = .ok f ∧
    f.marshal (nested redLamp 62) = .ok s ∧ Json.Written s j ∧ Wire.TellsType j ∧
      Wire.parse s = .ok j := by
  obtain ⟨c, f, s, hstandard, hf, hs, hnesting⟩ := exists_nestedLamp 62
  obtain ⟨⟨j, hwritten, htells, hparse⟩, -⟩ :=
    parse_marshal hstandard.over (by simp [lamps]) hf hs
  rw [hnesting, if_pos (by decide)] at hparse
  exact ⟨c, f, s, j, hf, hs, hwritten, htells, hparse⟩

/-- One list more, and the text of the value is not parsed. -/
theorem nestedLamp_unparsed : ∃ c f s, (⟨c, Providers.builtin⟩ : Generator).Standard lamps ∧
    (∀ t ∈ lamps.types, ∀ name, t.className = some name →
      Providers.builtin.contains name = true) ∧
    (⟨c, Providers.builtin⟩ : Generator).factory "demo" "Factory" = .ok f ∧
    f.marshal (nested redLamp 63) = .ok s ∧ ¬∃ j, Wire.parse s = .ok j := by
  obtain ⟨c, f, s, hstandard, hf, hs, hnesting⟩ := exists_nestedLamp 63
  have hclasses : ∀ t ∈ lamps.types, ∀ name, t.className = some name →
      Providers.builtin.contains name = true := by
    simp [lamps]
  obtain ⟨j, -, -, hparse⟩ := parse_of_marshal (usual_of_factory hstandard.over hclasses hf) hs
  rw [hnesting, if_neg (by decide)] at hparse
  refine ⟨c, f, s, hstandard, hclasses, hf, hs, ?_⟩
  rintro ⟨k, hk⟩
  cases hparse.symm.trans hk

end Generator
end TaggedWire
