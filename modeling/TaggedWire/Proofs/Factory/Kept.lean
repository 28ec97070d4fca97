import TaggedWire.Proofs.Factory.Coding
import TaggedWire.Proofs.Factory.Generated

/-!
# Results that are kept

A factory that binds at least what another does writes and reads at least what the other does, with
the same results: everything that is looked up on the way to a result is found again.

The proof goes through the coder function by function.  Each of them keeps its results where those
of the parts are kept, and the parts of a value or document are covered by induction.  Nothing is
said of failures: a lookup that failed before may succeed now.  A foreign marshaller may take
advantage of that, by asking for a part that cannot be written only to see that it cannot; such
marshallers are set aside.

* `Keeps`: the results of one computation are results of another.
* `Foreign.Persistent`: a marshaller whose results are kept where those of the parts are.
* `Extends.encode`, `Extends.decode`: the results of a factory are kept by one that extends it.
-/

namespace TaggedWire

variable {α β γ δ σ τ : Type}

/-! ### Computations

`Keeps` is passed on by everything that computations are put together with.  The second of two steps
is compared only for results of the first. -/

/-- Whatever the first results in, the second results in as well. -/
def Keeps (x y : Except Error α) : Prop := ∀ a, x = .ok a → y = .ok a

namespace Keeps

theorem refl (x : Except Error α) : Keeps x x := fun _ h => h

theorem error (e : Error) (y : Except Error α) : Keeps (.error e) y := nofun

/-- A check before both. -/
theorem guard {x y : Except Error α} (p : Bool) {e : Error} (h : Keeps x y) :
    Keeps (if p then x else .error e) (if p then y else .error e) := by
  cases p with
  | true => exact h
  | false => exact refl _

theorem bind {x y : Except Error α} {f g : α → Except Error β} (h : Keeps x y)
    (hfg : ∀ a, x = .ok a → Keeps (f a) (g a)) : Keeps (x >>= f) (y >>= g) := by
  intro b hb
  obtain ⟨a, ha, hb⟩ := bind_eq_ok_iff.1 hb
  exact bind_eq_ok_iff.2 ⟨a, h a ha, hfg a ha b hb⟩

theorem mapM {f : α → Except Error γ} {g : β → Except Error γ} {xs : List α} {ys : List β}
    (h : List.Forall₂ (fun x y => Keeps (f x) (g y)) xs ys) : Keeps (xs.mapM f) (ys.mapM g) := by
  induction h with
  | nil => exact refl _
  | cons hxy _ ih =>
    rw [List.mapM_cons, List.mapM_cons]
    exact hxy.bind fun _ _ => ih.bind fun _ _ => refl _

theorem foldlM {f : δ → α → Except Error δ} {g : δ → β → Except Error δ} {xs : List α}
    {ys : List β} (h : List.Forall₂ (fun x y => ∀ d, Keeps (f d x) (g d y)) xs ys) (d : δ) :
    Keeps (xs.foldlM f d) (ys.foldlM g d) := by
  induction h generalizing d with
  | nil => exact refl _
  | cons hxy _ ih =>
    rw [List.foldlM_cons, List.foldlM_cons]
    exact (hxy d).bind fun d' _ => ih d'

end Keeps

/-! ### Parts

Parts correspond one by one.  They are compared only as far as they are asked for. -/

/-- The answers that are asked for are kept. -/
def KeepsAnswers (asked : σ → Prop) (x y : σ → Except Error α) : Prop :=
  ∀ a, asked a → Keeps (x a) (y a)

/-- A list with names keeps the names, and the answers under them. -/
def KeepsNamed (asked : σ → Prop) (xs ys : List (String × (σ → Except Error α))) : Prop :=
  List.Forall₂ (fun x y => x.1 = y.1 ∧ KeepsAnswers asked x.2 y.2) xs ys

theorem KeepsNamed.get? {asked : σ → Prop} {xs ys : List (String × (σ → Except Error α))}
    (h : KeepsNamed asked xs ys) (name : String) :
    Option.Rel (KeepsAnswers asked) (Entries.get? name xs) (Entries.get? name ys) := by
  induction h with
  | nil => exact .none
  | @cons x y _ _ hxy _ ih =>
    obtain ⟨key, _⟩ := x
    obtain ⟨_, _⟩ := y
    obtain ⟨rfl, hxy⟩ := hxy
    unfold Entries.get?
    by_cases hkey : key = name
    · rw [if_pos hkey, if_pos hkey]
      exact .some hxy
    · rw [if_neg hkey, if_neg hkey]
      exact ih

theorem KeepsNamed.find? {asked : σ → Prop} {xs ys : List (String × (σ → Except Error α))}
    (h : KeepsNamed asked xs ys) (name : String) :
    Option.Rel (KeepsAnswers asked) (Json.find? name xs) (Json.find? name ys) := by
  unfold Json.find?
  -- the last member of a name counts, so both lists are gone through from behind
  have hreverse : KeepsNamed asked xs.reverse ys.reverse := List.rel_reverse h
  generalize xs.reverse = xs, ys.reverse = ys at hreverse ⊢
  induction hreverse with
  | nil => exact .none
  | @cons x y _ _ hxy _ ih =>
    obtain ⟨key, _⟩ := x
    obtain ⟨_, _⟩ := y
    obtain ⟨rfl, hxy⟩ := hxy
    rw [List.find?_cons, List.find?_cons]
    by_cases hkey : (key == name) = true
    · rw [hkey]
      exact .some hxy
    · rw [Bool.not_eq_true] at hkey
      rw [hkey]
      exact ih

/-- The texts of the parts are kept. -/
structure Encoders.Keeps (asked : σ → Prop) (parts parts' : Encoders σ) : Prop where
  items : List.Forall₂ (KeepsAnswers asked) parts.items parts'.items
  entries : List.Forall₂ (fun e e' => KeepsAnswers asked e.1 e'.1 ∧ KeepsAnswers asked e.2 e'.2)
    parts.entries parts'.entries
  fields : KeepsNamed asked parts.fields parts'.fields

/-- An item that is a pair is one still. -/
def KeepsPair (asked : σ → Prop)
    (x y : Except Error ((σ → Except Error Value) × (σ → Except Error Value))) : Prop :=
  ∀ d, x = .ok d → ∃ d', y = .ok d' ∧ KeepsAnswers asked d.1 d'.1 ∧ KeepsAnswers asked d.2 d'.2

/-- The values of the parts are kept. -/
structure Decoders.Keeps (asked : σ → Prop) (parts parts' : Decoders σ) : Prop where
  items : List.Forall₂ (KeepsAnswers asked) parts.items parts'.items
  entries : List.Forall₂ (KeepsPair asked) parts.entries parts'.entries
  members : KeepsNamed asked parts.members parts'.members

theorem Encoders.Keeps.comap {asked : σ → Prop} {parts parts' : Encoders σ}
    (h : parts.Keeps asked parts') {g : τ → σ} (hg : ∀ a, asked (g a)) :
    (parts.comap g).Keeps (fun _ => True) (parts'.comap g) where
  items := List.forall₂_map_left_iff.2 <| List.forall₂_map_right_iff.2 <|
    h.items.imp fun _ _ hxy a _ => hxy (g a) (hg a)
  entries := List.forall₂_map_left_iff.2 <| List.forall₂_map_right_iff.2 <|
    h.entries.imp fun _ _ hxy => ⟨fun a _ => hxy.1 (g a) (hg a), fun a _ => hxy.2 (g a) (hg a)⟩
  fields := List.forall₂_map_left_iff.2 <| List.forall₂_map_right_iff.2 <|
    h.fields.imp fun _ _ hxy => ⟨hxy.1, fun a _ => hxy.2 (g a) (hg a)⟩

theorem Decoders.Keeps.comap {asked : σ → Prop} {parts parts' : Decoders σ}
    (h : parts.Keeps asked parts') {g : τ → σ} (hg : ∀ a, asked (g a)) :
    (parts.comap g).Keeps (fun _ => True) (parts'.comap g) where
  items := List.forall₂_map_left_iff.2 <| List.forall₂_map_right_iff.2 <|
    h.items.imp fun _ _ hxy a _ => hxy (g a) (hg a)
  entries := by
    refine List.forall₂_map_left_iff.2 (List.forall₂_map_right_iff.2 (h.entries.imp ?_))
    intro x y hxy d hd
    obtain ⟨e, he, rfl⟩ := map_eq_ok_iff.1 hd
    obtain ⟨e', he', hkey, hvalue⟩ := hxy e he
    exact ⟨_, map_eq_ok_iff.2 ⟨e', he', rfl⟩, fun a _ => hkey (g a) (hg a),
      fun a _ => hvalue (g a) (hg a)⟩
  members := List.forall₂_map_left_iff.2 <| List.forall₂_map_right_iff.2 <|
    h.members.imp fun _ _ hxy => ⟨hxy.1, fun a _ => hxy.2 (g a) (hg a)⟩

/-! ### Marshallers

The coder calls its marshallers with parts that may keep their results only.  Those of the library
make the best of it, and of a foreign one it has to be asked. -/

/-- What the marshaller writes and reads does not depend on the failure of anything: where more of
the parts can be written or read, its results are kept. -/
structure Foreign.Persistent (m : Foreign) : Prop where
  write : ∀ (v : Value) (parts parts' : Encoders Ask), parts.Keeps (fun _ => True) parts' →
    Keeps (m.write v parts) (m.write v parts')
  read : ∀ (j : Json) (parts parts' : Decoders Ask)
    (whole whole' : String → String → Except Error Value), parts.Keeps (fun _ => True) parts' →
    (∀ id owner, Keeps (whole id owner) (whole' id owner)) →
      Keeps (m.read j parts whole) (m.read j parts' whole')

/-- An object that is written as the text in one field passes on what it is asked for. -/
theorem Foreign.fieldText_persistent (type field : String) :
    (fieldText type field).Persistent where
  write v parts parts' h := by
    have hfield := h.fields.get? field
    unfold fieldText
    dsimp only
    generalize Entries.get? field parts.fields = x at hfield ⊢
    generalize Entries.get? field parts'.fields = y at hfield ⊢
    cases hfield with
    | none => exact .refl _
    | some hfield => exact hfield _ trivial
  read _ _ _ _ _ _ hwhole := (hwhole _ _).bind fun _ _ => .refl _

theorem Foreign.fixedText_persistent (type text : String) :
    (fixedText type text).Persistent where
  write _ _ _ _ := .refl _
  read _ _ _ _ _ _ _ := .refl _

/-- The marshaller is no foreign one whose results may get lost. -/
def Marshaller.Persistent : Marshaller → Prop
  | .foreign m => m.Persistent
  | .scalar _ | .string | .list | .set | .map | .enumeration _ _ | .object _ _ | .array _ => True

/-- The slot does not lead to a marshaller whose results may get lost. -/
def Slot.Persistent : Slot → Prop
  | .through m => m.Persistent
  | .tagged | .declared _ _ | .row _ _ => True

theorem Slot.persistent_ofAsk (ask : Ask) : (ofAsk ask).Persistent := by
  cases ask <;> trivial

theorem Slot.persistent_element (component : TypeRef) (dimensions : Nat) (owner : String) :
    (element component dimensions owner).Persistent := by
  unfold element
  split <;> trivial

namespace Factory

/-- None of the marshallers that the factory binds may lose a result. -/
def Persistent (f : Factory) : Prop := ∀ id i, f.lookup id = some i → i.marshaller.Persistent

/-- The factory binds what another one does, to the same instances. -/
def Extends (f f' : Factory) : Prop := ∀ id i, f.lookup id = some i → f'.lookup id = some i

namespace Extends

variable {f f' : Factory}

/-! ### Lookups

These are the only places where the two factories are looked at. -/

theorem require (h : f.Extends f') (id owner : String) :
    Keeps (f.require id owner) (f'.require id owner) := fun _ hi =>
  (require_eq_ok_iff _ _ _ _).2 (h _ _ ((require_eq_ok_iff _ _ _ _).1 hi))

theorem checkAssignable (h : f.Extends f') (declared : String) (v : Value) (owner : String) :
    Keeps (f.checkAssignable declared v owner) (f'.checkAssignable declared v owner) := by
  unfold Factory.checkAssignable
  cases v.typeId? with
  | none => exact .refl _
  | some id => exact (h.require _ _).bind fun _ _ => (h.require _ _).bind fun _ _ => .refl _

theorem acceptsClaim (h : f.Extends f') {type claimed : String}
    (hclaim : f.acceptsClaim type claimed = true) : f'.acceptsClaim type claimed = true := by
  unfold Factory.acceptsClaim resolvesTo at hclaim ⊢
  rw [Bool.or_eq_true] at hclaim ⊢
  refine hclaim.imp id fun hresolves => ?_
  obtain ⟨i, hi, hhandled⟩ := (Option.any_eq_true _ _).1 hresolves
  exact (Option.any_eq_true _ _).2 ⟨i, h _ _ hi, hhandled⟩

theorem claimedType (h : f.Extends f') (type : String) (j : Json) :
    Keeps (f.claimedType type j) (f'.claimedType type j) := by
  unfold Factory.claimedType
  split
  · exact .refl _
  · next tag _ =>
    by_cases haccepts : f.acceptsClaim type tag = true
    · rw [if_pos haccepts, if_pos (h.acceptsClaim haccepts)]
      exact .refl _
    · rw [if_neg haccepts]
      exact .error _ _

/-! ### Writing

One lemma for each function of the encoder, from the marshallers up to the slots, and then the
induction on the value. -/

variable {enc enc' : EncodedParts}

theorem encodeItems (slot : Slot) (hslot : slot.Persistent)
    (hparts : enc.Keeps Slot.Persistent enc') :
    Keeps (Factory.encodeItems slot enc.items) (Factory.encodeItems slot enc'.items) :=
  (Keeps.mapM (hparts.items.imp fun _ _ hitem => hitem slot hslot)).bind fun _ _ => .refl _

theorem encodeEntries (hparts : enc.Keeps Slot.Persistent enc') :
    Keeps (Factory.encodeEntries enc.entries) (Factory.encodeEntries enc'.entries) := by
  refine (Keeps.mapM (hparts.entries.imp fun e e' hentry => ?_)).bind fun _ _ => .refl _
  have hkey := hentry.1 .tagged trivial
  exact hkey.bind fun _ _ => (hentry.2 .tagged trivial).bind fun _ _ => .refl _

theorem encodeRows (component : TypeRef) (dimensions : Nat) (signature : ArraySignature)
    (hparts : enc.Keeps Slot.Persistent enc') :
    Keeps (Factory.encodeRows component dimensions signature enc.items)
      (Factory.encodeRows component dimensions signature enc'.items) := by
  unfold Factory.encodeRows
  dsimp only
  split
  · exact encodeItems _ (Slot.persistent_element _ _ _) hparts
  · exact .refl _

theorem encodeConstant (h : f.Extends f') (type : String) (variants : List String)
    (claimed variant : String) :
    Keeps (f.encodeConstant type variants claimed variant)
      (f'.encodeConstant type variants claimed variant) := by
  unfold Factory.encodeConstant
  by_cases haccepts : f.acceptsClaim type claimed = true
  · rw [haccepts, h.acceptsClaim haccepts]
    exact .refl _
  · rw [Bool.not_eq_true] at haccepts
    rw [haccepts]
    exact .error _ _

/-- The fields that an object is given have the same names, so all of them are declared still. -/
theorem find?_undeclared {given given' : List (String × Encoder)}
    (hgiven : KeepsNamed Slot.Persistent given given') (undeclared : String → Bool)
    (h : given.find? (fun e => undeclared e.1) = none) :
    given'.find? (fun e => undeclared e.1) = none := by
  rw [List.find?_eq_none] at h ⊢
  intro e' he'
  obtain ⟨e, he, hname, -⟩ := exists_of_forall₂ hgiven.flip e' he'
  rw [← hname]
  exact h e he

theorem encodeFields (h : f.Extends f') (type : String) (declared : List Field) (claimed : String)
    (hparts : enc.Keeps Slot.Persistent enc') :
    Keeps (f.encodeFields type declared claimed enc.fields)
      (f'.encodeFields type declared claimed enc'.fields) := by
  unfold Factory.encodeFields
  -- a claim that is accepted stays so; for one that is refused nothing has to be shown
  by_cases haccepts : f.acceptsClaim type claimed = true
  · rw [haccepts, h.acceptsClaim haccepts]
    cases hknown : enc.fields.find? (fun e => declared.all fun field => field.name ≠ e.1) with
    | some e => exact .error _ _
    | none =>
      rw [find?_undeclared hparts.fields (fun name => declared.all fun field => field.name ≠ name)
        hknown]
      refine Keeps.bind (.mapM (List.forall₂_same.2 fun field _ => ?_)) fun _ _ => .refl _
      have hfield := hparts.fields.get? field.name
      generalize Entries.get? field.name enc.fields = x at hfield ⊢
      generalize Entries.get? field.name enc'.fields = y at hfield ⊢
      cases hfield with
      | none => exact .refl _
      | some hfield => exact (hfield (.declared _ _) trivial).bind fun _ _ => .refl _
  · rw [Bool.not_eq_true] at haccepts
    rw [haccepts]
    exact .error _ _

theorem encodeWith (h : f.Extends f') {m : Marshaller} (hm : m.Persistent) (v : Value)
    (hparts : enc.Keeps Slot.Persistent enc') :
    Keeps (f.encodeWith m v enc) (f'.encodeWith m v enc') := by
  -- null is written by every marshaller, before it is asked what it is for
  cases hnull : v.isNull with
  | true =>
    cases v with
    | null => cases m <;> exact .refl _
    | _ => cases hnull
  | false =>
    cases m with
    | foreign m =>
      have hwrite := hm.write v _ _ (hparts.comap Slot.persistent_ofAsk)
      cases v with
      | null => cases hnull
      | _ => exact hwrite
    | scalar p => cases v <;> exact .refl _
    | string => cases v <;> exact .refl _
    | list | set =>
      cases v with
      | list _ | set _ => first | exact encodeItems .tagged trivial hparts | exact .error _ _
      | null => exact .refl _
      | _ => exact .error _ _
    | map =>
      cases v with
      | map _ => exact encodeEntries hparts
      | null => exact .refl _
      | _ => exact .error _ _
    | enumeration type variants =>
      cases v with
      | enumeration claimed variant => exact h.encodeConstant type variants claimed variant
      | null => exact .refl _
      | _ => exact .error _ _
    | object type declared =>
      cases v with
      | object claimed _ => exact h.encodeFields type declared claimed hparts
      | null => exact .refl _
      | _ => exact .error _ _
    | array s =>
      cases v with
      | array signature _ => exact encodeRows s.component s.dimensions signature hparts
      | null => exact .refl _
      | _ => exact .error _ _

theorem encodeTagged (h : f.Extends f') (hf : f.Persistent) (v : Value)
    (hparts : enc.Keeps Slot.Persistent enc') :
    Keeps (f.encodeTagged v enc) (f'.encodeTagged v enc') := by
  unfold Factory.encodeTagged
  split
  · exact .refl _
  · refine (h.require _ _).bind fun i hi => ?_
    have hpersistent := hf _ i ((require_eq_ok_iff _ _ _ _).1 hi)
    exact (h.encodeWith hpersistent v hparts).bind fun _ _ => .refl _

theorem encodeDeclared (h : f.Extends f') (hf : f.Persistent) (type : TypeRef) (owner : String)
    (v : Value) (hparts : enc.Keeps Slot.Persistent enc') :
    Keeps (f.encodeDeclared type owner v enc) (f'.encodeDeclared type owner v enc') := by
  unfold Factory.encodeDeclared
  split
  · exact .refl _
  · split
    · exact h.encodeTagged hf v hparts
    · exact (h.checkAssignable _ v owner).bind fun _ _ => h.encodeTagged hf v hparts
    · refine (h.require _ owner).bind fun i hi => ?_
      exact h.encodeWith (hf _ i ((require_eq_ok_iff _ _ _ _).1 hi)) v hparts

theorem encodeNode (h : f.Extends f') (hf : f.Persistent) (v : Value)
    (hparts : enc.Keeps Slot.Persistent enc') :
    KeepsAnswers Slot.Persistent (f.encodeNode v enc) (f'.encodeNode v enc') := by
  intro slot hslot
  cases slot with
  | tagged => exact h.encodeTagged hf v hparts
  | declared type owner => exact h.encodeDeclared hf type owner v hparts
  | through m => exact h.encodeWith hslot v hparts
  | row component dimensions =>
    cases v with
    | null => exact .refl _
    | array signature _ => exact encodeRows component dimensions signature hparts
    | _ => exact .error _ _

/-- By induction on the value, whose parts are kept. -/
theorem encode (h : f.Extends f') (hf : f.Persistent) (v : Value) :
    KeepsAnswers Slot.Persistent (f.encode v) (f'.encode v) := by
  have hitems {items : List Value}
      (ih : ∀ v ∈ items, KeepsAnswers Slot.Persistent (f.encode v) (f'.encode v)) :
      List.Forall₂ (KeepsAnswers Slot.Persistent) (items.map f.encode) (items.map f'.encode) :=
    List.forall₂_map_left_iff.2 (List.forall₂_map_right_iff.2 (List.forall₂_same.2 ih))
  induction v using Value.induction with
  | null | scalar _ | string _ | enumeration _ _ =>
    rw [encode_eq, encode_eq]
    exact h.encodeNode hf _ ⟨.nil, .nil, .nil⟩
  -- the node is written by the lemma for one node, from the texts of its parts
  | list items ih | set items ih | array _ items ih =>
    rw [encode_eq, encode_eq]
    exact h.encodeNode hf _ ⟨hitems ih, .nil, .nil⟩
  | map entries ih =>
    rw [encode_eq, encode_eq]
    refine h.encodeNode hf _ ⟨.nil, ?_, .nil⟩
    exact List.forall₂_map_left_iff.2 (List.forall₂_map_right_iff.2 (List.forall₂_same.2 ih))
  | object _ fields ih =>
    rw [encode_eq, encode_eq]
    refine h.encodeNode hf _ ⟨.nil, .nil, ?_⟩
    refine List.forall₂_map_left_iff.2 (List.forall₂_map_right_iff.2 (List.forall₂_same.2 ?_))
    exact fun e he => ⟨rfl, ih e he⟩

/-! ### Reading

The same for the decoder, and the induction on the document. -/

variable {dec dec' : DecodedParts}

theorem decodeItems (slot : Slot) (hslot : slot.Persistent)
    (hparts : dec.Keeps Slot.Persistent dec') :
    Keeps (Factory.decodeItems slot dec.items) (Factory.decodeItems slot dec'.items) :=
  Keeps.mapM (hparts.items.imp fun _ _ hitem => hitem slot hslot)

theorem decodeEntries (hparts : dec.Keeps Slot.Persistent dec') :
    Keeps (Factory.decodeEntries dec.entries) (Factory.decodeEntries dec'.entries) := by
  refine Keeps.foldlM (hparts.entries.imp fun e e' hentry done result hresult => ?_) []
  obtain ⟨d, hd, hresult⟩ := bind_eq_ok_iff.1 hresult
  obtain ⟨d', hd', hkey, hvalue⟩ := hentry d hd
  refine bind_eq_ok_iff.2 ⟨d', hd', ?_⟩
  exact (hkey .tagged trivial).bind
    (fun _ _ => (hvalue .tagged trivial).bind fun _ _ => .refl _) result hresult

theorem decodeRows (component : TypeRef) (dimensions : Nat) (j : Json)
    (hparts : dec.Keeps Slot.Persistent dec') :
    Keeps (Factory.decodeRows component dimensions j dec.items)
      (Factory.decodeRows component dimensions j dec'.items) :=
  (Keeps.refl _).bind fun _ _ =>
    (decodeItems _ (Slot.persistent_element _ _ _) hparts).bind fun _ _ => .refl _

theorem decodeEnumeration (h : f.Extends f') (type : String) (variants : List String) (j : Json) :
    Keeps (f.decodeEnumeration type variants j) (f'.decodeEnumeration type variants j) := by
  unfold Factory.decodeEnumeration
  split
  · exact .refl _
  · exact (Keeps.refl _).bind fun _ _ => (h.claimedType type _).bind fun _ _ => .refl _

theorem decodeFields (h : f.Extends f') (type : String) (declared : List Field) (j : Json)
    (hparts : dec.Keeps Slot.Persistent dec') :
    Keeps (f.decodeFields type declared j dec.members)
      (f'.decodeFields type declared j dec'.members) := by
  refine (Keeps.refl _).bind fun _ _ => (h.claimedType type j).bind fun _ _ => Keeps.bind ?_
    fun _ _ => .refl _
  refine Keeps.foldlM (List.forall₂_same.2 fun field _ done => ?_) []
  have hmember := hparts.members.find? field.name
  generalize Json.find? field.name dec.members = x at hmember ⊢
  generalize Json.find? field.name dec'.members = y at hmember ⊢
  cases hmember with
  | none => exact .refl _
  | some hmember => exact (hmember (.declared _ _) trivial).bind fun _ _ => .refl _

theorem decodePlain (h : f.Extends f') {m : Marshaller} (hm : m.Persistent) (j : Json)
    (hparts : dec.Keeps Slot.Persistent dec') :
    Keeps (f.decodePlain m j dec) (f'.decodePlain m j dec') := by
  cases m with
  | scalar _ | string => exact .refl _
  | list | set =>
    exact (Keeps.refl _).bind fun _ _ =>
      (decodeItems .tagged trivial hparts).bind fun _ _ => .refl _
  | map =>
    exact (Keeps.refl _).bind fun _ _ => (decodeEntries hparts).bind fun _ _ => .refl _
  | enumeration type variants => exact h.decodeEnumeration type variants j
  | object type declared => exact h.decodeFields type declared j hparts
  | array s => exact decodeRows s.component s.dimensions j hparts
  | foreign m =>
    exact hm.read j _ _ _ _ (hparts.comap Slot.persistent_ofAsk) fun _ _ => .error _ _

theorem decodeWith (h : f.Extends f') (hf : f.Persistent) {m : Marshaller} (hm : m.Persistent)
    (j : Json) (hparts : dec.Keeps Slot.Persistent dec') :
    Keeps (f.decodeWith m j dec) (f'.decodeWith m j dec') := by
  cases hnull : j.isNull with
  | true =>
    cases j with
    | null => cases m <;> exact .refl _
    | _ => cases hnull
  | false =>
    cases m with
    | foreign m =>
      -- the marshaller that the document is passed on to is found again
      have hread := hm.read j _ _ (fun id owner => do
          let i ← f.require id owner
          f.decodePlain i.marshaller j dec) (fun id owner => do
          let i ← f'.require id owner
          f'.decodePlain i.marshaller j dec') (hparts.comap Slot.persistent_ofAsk) fun id owner =>
        (h.require id owner).bind fun i hi =>
          h.decodePlain (hf _ i ((require_eq_ok_iff _ _ _ _).1 hi)) j hparts
      cases j with
      | null => cases hnull
      | _ => exact hread
    | _ =>
      have hplain := h.decodePlain hm j hparts
      cases j with
      | null => cases hnull
      | _ => exact hplain

theorem decodeTagged (h : f.Extends f') (hf : f.Persistent) (j : Json)
    (hparts : dec.Keeps Slot.Persistent dec') :
    Keeps (f.decodeTagged j dec) (f'.decodeTagged j dec') := by
  unfold Factory.decodeTagged
  cases j with
  | null | bool _ | number _ | string _ | array _ => exact .refl _
  | object members =>
    dsimp only
    split
    · exact .refl _
    · refine (h.require _ _).bind fun i hi => ?_
      have hm := hf _ i ((require_eq_ok_iff _ _ _ _).1 hi)
      have hwhole := h.decodeWith hf hm (.object members) hparts
      -- the payload is the same member on both sides, if there is one
      have hmember := hparts.members.find? Wire.valueKey
      generalize Json.find? Wire.valueKey dec.members = x at hmember ⊢
      generalize Json.find? Wire.valueKey dec'.members = y at hmember ⊢
      cases (Json.object members).get? Wire.valueKey with
      | none => exact .guard _ hwhole
      | some payload =>
        cases hmember with
        | none => exact .guard _ hwhole
        | some hmember => exact .guard _ (hmember (.through i.marshaller) hm)

theorem decodeDeclared (h : f.Extends f') (hf : f.Persistent) (type : TypeRef) (owner : String)
    (j : Json) (hparts : dec.Keeps Slot.Persistent dec') :
    Keeps (f.decodeDeclared type owner j dec) (f'.decodeDeclared type owner j dec') := by
  have hrequired (id : String) : Keeps (do
      let i ← f.require id owner
      f.decodeWith i.marshaller j dec) (do
      let i ← f'.require id owner
      f'.decodeWith i.marshaller j dec') :=
    (h.require id owner).bind fun i hi =>
      h.decodeWith hf (hf _ i ((require_eq_ok_iff _ _ _ _).1 hi)) j hparts
  unfold Factory.decodeDeclared
  -- null first, then `any`, then a name with a tag or without one, and the types that are looked up
  split
  · exact .refl _
  · split
    · exact h.decodeTagged hf j hparts
    · split
      · exact (h.decodeTagged hf j hparts).bind fun v _ =>
          (h.checkAssignable _ v owner).bind fun _ _ => .refl _
      · exact hrequired _
    · exact hrequired _

theorem decodeNode (h : f.Extends f') (hf : f.Persistent) (j : Json)
    (hparts : dec.Keeps Slot.Persistent dec') :
    KeepsAnswers Slot.Persistent (f.decodeNode j dec) (f'.decodeNode j dec') := by
  intro slot hslot
  cases slot with
  | tagged => exact h.decodeTagged hf j hparts
  | declared type owner => exact h.decodeDeclared hf type owner j hparts
  | through m => exact h.decodeWith hf hslot j hparts
  | row component dimensions =>
    cases j with
    | null => exact .refl _
    | _ => exact decodeRows component dimensions _ hparts

/-- By induction on the document, whose parts are kept; those of a map are the items of its
pairs. -/
theorem decode (h : f.Extends f') (hf : f.Persistent) (j : Json) :
    KeepsAnswers Slot.Persistent (f.decode j) (f'.decode j) := by
  induction j using Json.parts_induction with
  | step j hitems hpairs hmembers =>
    rw [decode_eq, decode_eq]
    refine h.decodeNode hf j ?_
    cases j with
    | null | bool _ | number _ | string _ => exact ⟨.nil, .nil, .nil⟩
    | array items =>
      constructor
      case items =>
        exact List.forall₂_map_left_iff.2 (List.forall₂_map_right_iff.2
          (List.forall₂_same.2 (hitems items rfl)))
      case members => exact .nil
      case entries =>
        refine List.forall₂_map_left_iff.2 (List.forall₂_map_right_iff.2 (List.forall₂_same.2 ?_))
        intro j hj d hd
        -- what is a pair for one factory is a pair for the other, as only its form decides
        obtain ⟨jk, jv, rfl, rfl⟩ := f.entryDecoder_eq_ok_iff.1 hd
        refine ⟨_, f'.entryDecoder_eq_ok_iff.2 ⟨jk, jv, rfl, rfl⟩, ?_, ?_⟩
        · exact hpairs items rfl _ hj jk List.mem_cons_self
        · exact hpairs items rfl _ hj jv (List.mem_cons_of_mem _ List.mem_cons_self)
    | object members =>
      refine ⟨.nil, .nil, ?_⟩
      refine List.forall₂_map_left_iff.2 (List.forall₂_map_right_iff.2 (List.forall₂_same.2 ?_))
      exact fun m hm => ⟨rfl, hmembers members rfl m hm⟩

end Extends
end Factory
end TaggedWire
