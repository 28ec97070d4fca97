import TaggedWire.Command.Run
import TaggedWire.Proofs.Factory.Complete
import TaggedWire.Proofs.Json.Floating

/-!
# Rewriting a text settles it

Decoding forgives what encoding never writes: a tag around a document that tells its type, a bare
enum constant, members that are missing or not declared, repeated elements and keys.  Once a text
has been read and written again nothing of this is left, and doing it again changes nothing.  The
reason is that what was read is settled, and a settled value is read back as the very value.

* `Steady.recovery`: a settled value that is written is read back as it is.
* `normalized_again`: rewriting a text twice is rewriting it once.
-/

namespace TaggedWire

/-! ### Scalars

A scalar returns if its text is read as the very scalar.  All of them do but floating point numbers,
of which this depends on the reader. -/

/-- The text of the number denotes a number that is read as this one. -/
def Binary64.ReadsBack (x : Binary64) : Prop :=
  ((Json.parse? (x.text .wire64)).bind Json.number?).map Json.Number.toBinary64 = some x

instance (x : Binary64) : Decidable x.ReadsBack := inferInstanceAs (Decidable (_ = _))

namespace Scalar

/-- The text of the scalar is read back as the very scalar. -/
def Returns (x : Scalar) : Prop :=
  ∀ t, x.text = .ok t → ∃ j, Json.Written t j ∧ readScalar x.primitive j = .ok x

theorem eq_of_equal {x y : Scalar} (hx : x.primitive.isFloat = false) (h : y.equal x = true) :
    y = x := by
  cases x <;> cases y <;> first
    | exact congrArg _ (beq_iff_eq.1 h)
    | cases h
    | cases hx

theorem returns_of_not_isFloat {x : Scalar} (hx : x.primitive.isFloat = false) : x.Returns := by
  intro t ht
  have hfloat : x.FloatReadsBack := by
    intro h
    rw [hx] at h
    cases h
  obtain ⟨j, y, hwritten, hread, hequal⟩ := exists_read_of_text hfloat ht
  exact ⟨j, hwritten, eq_of_equal hx hequal ▸ hread⟩

theorem returns_f64 {x : Binary64} (h : x.isFinite = true → x.ReadsBack) : (f64 x).Returns := by
  intro t ht
  obtain ⟨hfinite, rfl⟩ := isFinite_of_floatText ht
  obtain ⟨n, hnumber, hx⟩ := Option.map_eq_some_iff.1 (h hfinite)
  obtain ⟨j, hparse, hj⟩ := Option.bind_eq_some_iff.1 hnumber
  refine ⟨j, Json.written_of_parse? hparse, ?_⟩
  cases j with
  | number m =>
    cases hj
    exact congrArg _ (congrArg f64 hx)
  | _ => cases hj

end Scalar

/-- A scalar is read back from its text; nothing is asked of other values. -/
def Value.Returns : Value → Prop
  | .scalar x => x.Returns
  | _ => True

theorem Value.likeness_eq : Value.Likeness Eq := by
  have hsame : ∀ {α : Type} {xs ys : List α}, List.Forall₂ Eq xs ys → xs = ys := by
    intro α xs ys h
    rwa [List.forall₂_eq_eq_eq] at h
  exact {
    typeId? := congrArg Value.typeId?
    unequal := fun h hunequal => hsame h ▸ hunequal
    null := rfl
    bool := fun _ => rfl
    string := fun _ => rfl
    list := fun h => congrArg _ (hsame h)
    set := fun h => congrArg _ (hsame h)
    map := fun h => congrArg _ (hsame (h.imp fun _ _ he => Prod.ext he.1 he.2))
    array := fun _ _ _ h => congrArg _ (hsame h)
    enumeration := fun _ _ => rfl }

namespace Factory

variable {f : Factory}

/-- Fields that are kept in key order are put together again from their values. -/
theorem entries_ofList {fields : List (String × Value)} {rs : List FieldRead}
    (hproper : KeyOrdered fields) (hnodup : (rs.map (·.field.name)).Nodup)
    (hnames : ∀ name, name ∈ fields.map (·.1) ↔ ∃ r ∈ rs, r.field.name = name)
    (hrs : ∀ r ∈ rs, r.value = fieldValue fields r.field.name) :
    (Table.ofList (rs.map fun r => (r.field.name, r.value))).entries = fields := by
  have hvalue : ∀ {name w}, (name, w) ∈ fields → fieldValue fields name = w := by
    intro name w h
    rw [fieldValue, Entries.get?_of_mem hproper h]
    rfl
  -- both are ordered by their keys, so it is enough that they have the same entries
  refine Table.eq_of_mem_iff (Table.ofList _).ordered hproper ?_
  rintro ⟨name, w⟩
  rw [Table.mem_entries_iff, Table.get?_ofList (by rwa [List.map_map]), List.mem_map]
  constructor
  · rintro ⟨r, hr, heq⟩
    cases heq
    obtain ⟨⟨_, w⟩, he, rfl⟩ := List.mem_map.1 ((hnames r.field.name).2 ⟨r, hr, rfl⟩)
    rw [hrs r hr, hvalue he]
    exact he
  · intro h
    obtain ⟨r, hr, rfl⟩ := (hnames name).1 (List.mem_map_of_mem h)
    exact ⟨r, hr, congrArg _ ((hrs r hr).trans (hvalue h))⟩

/-- A steady factory recovers settled values as they are. -/
theorem Steady.recovery (hf : f.Steady) :
    f.Recovery Eq fun u => (u.Proper ∧ f.Complete u) ∧ u.Returns := by
  refine ⟨Value.likeness_eq, hf.toMirrors, fun h => h.1.1, ?_, ?_⟩
  · intro x t hx ht
    obtain ⟨j, hwritten, hread⟩ := hx.2 t ht
    exact ⟨j, x, hwritten, hread, rfl⟩
  · intro type claimed declared fields rs hobject hoffered haccepts _ hdeclared hrs
    obtain ⟨⟨hproper, hcomplete⟩, -⟩ := hobject
    have hnodup : ((declared.filter (·.writable)).map (·.name)).Nodup :=
      (hf.nodup type declared hoffered).sublist (List.filter_sublist.map _)
    rw [← hdeclared, List.map_map] at hnodup
    refine congrArg _ (entries_ofList hproper hnodup ?_ hrs)
    intro name
    rw [hcomplete type declared hoffered haccepts name]
    simp only [← and_assoc, ← List.mem_filter, ← hdeclared, List.mem_map, exists_exists_and_eq_and]

/-- What has been read in a slot and is written there within the limit on nesting is read again. -/
theorem decode_again (hf : f.Steady) (slot : Slot) (hslot : f.Offers slot) {j : Json} {v : Value}
    (hread : f.decode j slot = .ok v) (hreturns : v.Throughout Value.Returns) {s : String}
    (hs : f.encode v slot = .ok s) (hnesting : Json.nesting s ≤ Json.nestingLimit) :
    (Wire.parse s >>= fun j => f.decode j slot) = .ok v := by
  have hsettled := settled_of_decode hf j slot v hslot hread
  obtain ⟨_, hagain, rfl⟩ := hf.recovery.parsed (fun u hu => ⟨hsettled u hu, hreturns u hu⟩) slot
    hslot hs hnesting
  exact hagain

/-- What a text is read as: as a declared type or, without one, as the type that it tells. -/
def readAs (f : Factory) : Option TypeRef → String → Except Error Value
  | some type, text => f.unmarshalAs type text
  | none, text => f.unmarshal text

/-- What a value is written as: as a declared type or, without one, as its own. -/
def writeAs (f : Factory) : Option TypeRef → Value → Except Error String
  | some type, v => f.marshalAs type v
  | none, v => f.marshal v

theorem readAs_again (hf : f.Steady) {type : Option TypeRef} {text : String} {v : Value}
    (hread : f.readAs type text = .ok v) (hreturns : v.Throughout Value.Returns) {s : String}
    (hwrite : f.writeAs type v = .ok s) (hnesting : Json.nesting s ≤ Json.nestingLimit) :
    f.readAs type s = .ok v := by
  cases type with
  | none =>
    obtain ⟨j, -, hread⟩ := bind_eq_ok_iff.1 hread
    exact decode_again hf .tagged trivial hread hreturns hwrite hnesting
  | some type =>
    obtain ⟨j, -, hread⟩ := bind_eq_ok_iff.1 hread
    exact decode_again hf (.declared type type.id) trivial hread hreturns hwrite hnesting

/-- The command reads and writes as the type of the spelling, if one is given. -/
theorem normalized_eq (spelling : Option String) (text : String) :
    Command.normalized f spelling text = (do
      let type ← spelling.mapM TypeRef.parse
      f.writeAs type (← f.readAs type text)) := by
  cases spelling with
  | none => rfl
  | some spelling =>
    cases hparse : TypeRef.parse spelling <;> simp [Command.normalized, hparse] <;> rfl

end Factory

/-- Finite numbers of 64 bits are read back, so a value without those of 32 bits is. -/
theorem Value.returns_of_floats {v : Value}
    (hnarrow : v.Throughout fun u => u.primitive? ≠ some .f32)
    (hfloats : ∀ x : Binary64, x.isFinite = true → Occurs (.scalar (.f64 x)) v → x.ReadsBack) :
    v.Throughout Value.Returns := by
  intro u hu
  cases u with
  | scalar x =>
    cases x with
    | f32 _ => exact (hnarrow _ hu rfl).elim
    | f64 x => exact Scalar.returns_f64 fun hfinite => hfloats x hfinite hu
    | _ => exact Scalar.returns_of_not_isFloat rfl
  | _ => trivial

namespace Generator

variable {g : Generator} {d : Catalog} {package className : String} {f : Factory}

/-- A text that has been rewritten once, by the factory of a document, stays as it is, if there were
no numbers of 32 bits in it and the finite ones of 64 bits are read back from their texts.  The same
holds of the command. -/
theorem normalized_again (hstandard : g.Standard d)
    (hclasses : ∀ t ∈ d.types, ∀ name, t.className = some name →
      Providers.builtin.contains name = true)
    (hmirrored : ∀ t ∈ d.types, t.shape.Mirrored) (hf : g.factory package className = .ok f)
    (type : Option TypeRef) {text : String} {v : Value} (hread : f.readAs type text = .ok v)
    (hnarrow : v.Throughout fun u => u.primitive? ≠ some .f32)
    (hfloats : ∀ x : Binary64, x.isFinite = true → Value.Occurs (.scalar (.f64 x)) v → x.ReadsBack)
    {s : String} (hwrite : f.writeAs type v = .ok s)
    (hnesting : Json.nesting s ≤ Json.nestingLimit) :
    (f.readAs type s >>= f.writeAs type) = .ok s ∧
      ∀ spelling : Option String, spelling.mapM TypeRef.parse = .ok type →
        Command.normalized f spelling text = .ok s ∧ Command.normalized f spelling s = .ok s := by
  have hsteady := steady_of_factory hstandard hclasses hmirrored hf
  have hagain := Factory.readAs_again hsteady hread (Value.returns_of_floats hnarrow hfloats) hwrite
    hnesting
  refine ⟨bind_eq_ok_iff.2 ⟨v, hagain, hwrite⟩, ?_⟩
  intro spelling hspelling
  rw [Factory.normalized_eq, Factory.normalized_eq, hspelling]
  exact ⟨bind_eq_ok_iff.2 ⟨type, rfl, bind_eq_ok_iff.2 ⟨v, hread, hwrite⟩⟩,
    bind_eq_ok_iff.2 ⟨type, rfl, bind_eq_ok_iff.2 ⟨v, hagain, hwrite⟩⟩⟩

/-- A hitch has a load, turns and a day on which it was made, which is written but not read. -/
def hitchDocument : String :=
  "\x7b\"types\":[\x7b\"name\":\"Hitch\",\"kind\":\"object\",\"fields\":[" ++
    "\x7b\"name\":\"load\",\"type\":\"f64\"\x7d," ++
    "\x7b\"name\":\"made\",\"type\":\"string\",\"writable\":false\x7d," ++
    "\x7b\"name\":\"turns\",\"type\":\"set\"\x7d]\x7d]," ++
    "\"aliases\":\x7b\"Bend\":\"Hitch\"\x7d\x7d"

/-- The catalog of the document. -/
def hitches : Catalog :=
  ⟨[⟨"Hitch", .object [⟨"load", .primitive .f64, true, true⟩, ⟨"made", .string, true, false⟩,
    ⟨"turns", .set, true, true⟩], none⟩], Table.ofList [("Bend", "Hitch")]⟩

theorem parse_hitchDocument : Catalog.parse .json hitchDocument = .ok hitches := by
  have h : (Catalog.parse .json hitchDocument).toOption = some hitches := by decide +kernel
  exact toOption_eq_some_iff.1 h

/-- A hitch with a tag around it that is an alias, a turn that is repeated, a day that is passed
over and a member that is not declared. -/
def hitchText : String :=
  "\x7b\"^EncodedType\":\"Bend\",\"^Value\":\x7b\"turns\":[\"over\",\"over\"]," ++
    "\"load\":2.50,\"made\":\"today\",\"rest\":0\x7d\x7d"

/-- What is left of it. -/
def hitchTextAgain : String :=
  "\x7b\"^EncodedType\":\"Hitch\",\"load\":2.5,\"made\":null,\"turns\":[\"over\"]\x7d"

/-- A hitch with one turn. -/
def hitch (load : Binary64) : Value :=
  .object "Hitch" [("load", .scalar (.f64 load)), ("turns", .set [.string "over"])]

/-- The load of a hitch with one turn. -/
def load? : Value → Option Binary64
  | .object "Hitch" [("load", .scalar (.f64 x)), ("turns", .set [.string "over"])] => some x
  | _ => none

theorem eq_hitch {v : Value} {x : Binary64} (h : load? v = some x) : v = hitch x := by
  unfold load? at h
  split at h
  · cases h
    rfl
  · cases h

theorem hitch_read : (factoryOver hitches).toOption.any (fun f =>
    (f.readAs (some (.named "Hitch")) hitchText).toOption.any fun v =>
      (load? v).any (fun x => decide x.ReadsBack) &&
        decide ((f.writeAs (some (.named "Hitch")) v).toOption = some hitchTextAgain)) = true := by
  decide +kernel

/-- What holds of a hitch, its load, its turns and its only turn holds throughout. -/
theorem hitch_throughout {p : Value → Prop} {x : Binary64} (hself : p (hitch x))
    (hload : p (.scalar (.f64 x))) (hturns : p (.set [.string "over"]))
    (hturn : p (.string "over")) : (hitch x).Throughout p := by
  refine Value.throughout_iff.2 ⟨hself, List.forall_mem_cons.2 ⟨?_, ?_⟩⟩
  · exact Value.throughout_iff.2 ⟨hload, trivial⟩
  · refine List.forall_mem_singleton.2 (Value.throughout_iff.2 ⟨hturns, ?_⟩)
    exact List.forall_mem_singleton.2 (Value.throughout_iff.2 ⟨hturn, trivial⟩)

/-- The command changes a text once, and then no more. -/
theorem normalized_again_hitch : ∃ c f,
    (⟨c, Providers.builtin⟩ : Generator).factory "demo" "Factory" = .ok f ∧
    Command.normalized f (some "Hitch") hitchText = .ok hitchTextAgain ∧
      Command.normalized f (some "Hitch") hitchTextAgain = .ok hitchTextAgain := by
  obtain ⟨f, hf, hread⟩ := (Option.any_eq_true _ _).1 hitch_read
  obtain ⟨v, hv, hwrite⟩ := (Option.any_eq_true _ _).1 hread
  obtain ⟨hload, hwrite⟩ := (Bool.and_eq_true _ _).mp hwrite
  obtain ⟨x, hx, hreads⟩ := (Option.any_eq_true _ _).1 hload
  obtain ⟨c, hstandard, hf⟩ :=
    standard_of_factoryOver parse_hitchDocument (toOption_eq_some_iff.1 hf)
  obtain rfl := eq_hitch hx
  have hnarrow : (hitch x).Throughout fun u => u.primitive? ≠ some .f32 :=
    hitch_throughout nofun nofun nofun nofun
  have hfloats : ∀ y : Binary64, y.isFinite = true →
      Value.Occurs (.scalar (.f64 y)) (hitch x) → y.ReadsBack := by
    intro y _ hy
    refine hitch_throughout (p := fun u => ∀ y, u = .scalar (.f64 y) → Binary64.ReadsBack y)
      nofun ?_ nofun nofun _ hy y rfl
    intro y hsame
    cases hsame
    exact of_decide_eq_true hreads
  have hmirrored : ∀ t ∈ hitches.types, t.shape.Mirrored := by simp [hitches, Shape.Mirrored]
  exact ⟨c, f, hf, (normalized_again hstandard (by simp [hitches]) hmirrored hf
    (some (.named "Hitch")) (toOption_eq_some_iff.1 hv) hnarrow hfloats
    (toOption_eq_some_iff.1 (of_decide_eq_true hwrite)) (by decide +kernel)).2 (some "Hitch") rfl⟩

end Generator
end TaggedWire
