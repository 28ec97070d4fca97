import TaggedWire.Proofs.Factory.Claims

/-!
# Arrays, dimension by dimension

One marshaller reads an array of any number of dimensions: rows of rows, of any lengths, some of
them missing, and at the innermost the elements, each as its type says.  What it reads has the shape
of the document, dimension by dimension, and where the elements are written as they were read it is
written as that document again.

* `Factory.decode_array_iff`: exactly what an array marshaller reads.
* `Factory.written_of_rows`: what is written for rows whose elements are written as they were read.
* `Generator.rows_of_decode`: both, for the factory of a document.
-/

namespace TaggedWire

/-- The built-in marshaller of a type that is no array and does not leave it to its values what they
are. -/
def TypeRef.basic? : TypeRef → Option Marshaller
  | primitive p | boxed p => some (.scalar p)
  | string => some .string
  | list => some .list
  | set => some .set
  | map => some .map
  | any | named _ | array _ _ => none

/-- Values of the type are written as they were read: it is `string`, or a scalar type, boxed or
not, other than a floating point one. -/
def TypeRef.isExact : TypeRef → Bool
  | primitive p | boxed p => !p.isFloat
  | string => true
  | list | set | map | any | named _ | array _ _ => false

namespace TypeRef

theorem basic_of_basic? {type : TypeRef} {m : Marshaller} (h : type.basic? = some m) : m.Basic := by
  cases type <;> cases h <;> trivial

theorem exists_basic {type : TypeRef} (hstatic : type.isDynamic = false)
    (hplain : type.signature? = none) : ∃ m, type.basic? = some m := by
  cases type with
  | any | named _ => cases hstatic
  | array _ _ => cases hplain
  | _ => exact ⟨_, rfl⟩

theorem exact_cases {type : TypeRef} (h : type.isExact = true) :
    type.basic? = some .string ∨ ∃ p, type.basic? = some (.scalar p) ∧ p.isFloat = false := by
  cases type with
  | primitive p | boxed p => exact .inr ⟨p, rfl, by simpa [isExact] using h⟩
  | string => exact .inl rfl
  | _ => cases h

end TypeRef

namespace Factory

/-- The value has the rows of the document over the given dimensions: it is null where the document
is null, and otherwise an array with as many items.  Below them the elements are related. -/
def Rows (element : Json → Value → Prop) (component : TypeRef) : Nat → Json → Value → Prop
  | 0, j, v => element j v
  | n + 1, j, v => (j = .null ∧ v = .null) ∨ ∃ items vs, j = .array items ∧
    List.Forall₂ (Rows element component n) items vs ∧ v = .array ⟨component, n + 1⟩ vs

theorem Rows.imp {P Q : Json → Value → Prop} (hpq : ∀ j v, P j v → Q j v) {component : TypeRef}
    {n : Nat} {j : Json} {v : Value} (h : Rows P component n j v) : Rows Q component n j v := by
  induction n generalizing j v with
  | zero => exact hpq j v h
  | succ n ih =>
    rcases h with hnull | ⟨items, vs, hj, hrows, hv⟩
    · exact .inl hnull
    · exact .inr ⟨items, vs, hj, hrows.imp fun _ _ => ih, hv⟩

/-- The slot of the elements of arrays over a component. -/
def elementSlot (component : TypeRef) : Slot :=
  .declared component (ArraySignature.mk component 1).id

variable {f : Factory} {component : TypeRef}

/-! ### One dimension

The marshaller of an array goes through the items of one array.  With more dimensions to come an
item is a row, which is either null or an array of one dimension less. -/

theorem encode_null_through (m : Marshaller) : f.encode .null (.through m) = .ok Wire.nullText := by
  rw [encode]
  cases m <;> rfl

theorem element_add_two (n : Nat) (owner : String) :
    Slot.element component (n + 2) owner = .row component (n + 1) := by
  simp [Slot.element]

theorem decode_items_iff {items : List Json} {s : ArraySignature} (hs : s.type.Flat) {v : Value} :
    f.decode (.array items) (.through (.array s)) = .ok v ↔
      ∃ vs, List.Forall₂ (fun j w =>
        f.decode j (.element s.component s.dimensions s.id) = .ok w) items vs ∧
          v = .array s vs := by
  -- the shape read is the one asked for, as the marshaller is that of a flat array
  have hstep : f.decode (.array items) (.through (.array s)) = (do
      return .array s (← decodeItems (.element s.component s.dimensions s.id)
        (items.map f.decode))) := by
    rw [decode_array]
    show decodeRows _ _ _ _ = _
    rw [decodeRows, ArraySignature.of_eq hs]
    rfl
  rw [hstep, bind_eq_ok_iff]
  simp only [decodeItems_eq_ok_iff, List.forall₂_map_left_iff]
  constructor
  · rintro ⟨vs, hvs, hv⟩
    cases hv
    exact ⟨vs, hvs, rfl⟩
  · rintro ⟨vs, hvs, rfl⟩
    exact ⟨vs, hvs, rfl⟩

/-- An array marshaller reads null as null, and the items of an array one by one. -/
theorem decode_rows_iff {s : ArraySignature} (hs : s.type.Flat) {j : Json} {v : Value} :
    f.decode j (.through (.array s)) = .ok v ↔
      (j = .null ∧ v = .null) ∨ ∃ items vs, j = .array items ∧
        List.Forall₂ (fun i w => f.decode i (.element s.component s.dimensions s.id) = .ok w)
          items vs ∧ v = .array s vs := by
  constructor
  · intro h
    -- an array marshaller takes null and arrays, and nothing else
    by_cases hnull : j = .null
    · subst hnull
      rw [decode_null_through] at h
      cases h
      exact .inl ⟨rfl, rfl⟩
    · obtain ⟨items, rfl⟩ := exists_items hnull (.inr (.inr (.inr ⟨s, rfl⟩))) h
      obtain ⟨vs, hvs, hv⟩ := (decode_items_iff hs).1 h
      exact .inr ⟨items, vs, rfl, hvs, hv⟩
  · rintro (⟨rfl, rfl⟩ | ⟨items, vs, rfl, hvs, hv⟩)
    · exact f.decode_null_through _
    · exact (decode_items_iff hs).2 ⟨vs, hvs, hv⟩

theorem encode_rows_iff {vs : List Value} {s : ArraySignature} (hs : s.type.Flat) {t : String} :
    f.encode (.array s vs) (.through (.array s)) = .ok t ↔
      ∃ texts, List.Forall₂ (fun v t =>
        f.encode v (.element s.component s.dimensions s.id) = .ok t) vs texts ∧
          t = Json.arrayText texts := by
  rw [encode_array]
  show encodeRows _ _ _ _ = _ ↔ _
  rw [encodeRows_eq_ok_iff, ArraySignature.of_eq hs, encodeItems_eq_ok_iff]
  simp only [List.forall₂_map_left_iff, true_and]

/-! ### All dimensions

By induction on the dimensions: the rows of an array are read and written like the arrays of one
dimension less, but for their tags, of which there are none. -/

/-- An array marshaller reads the rows of a document down to its dimensions, and there each element
as one of its component. -/
theorem decode_array_iff (hcomponent : component.signature? = none) {n : Nat} {j : Json}
    {v : Value} :
    f.decode j (.through (.array ⟨component, n + 1⟩)) = .ok v ↔
      Rows (fun i w => f.decode i (elementSlot component) = .ok w) component (n + 1) j v := by
  induction n generalizing j v with
  | zero => exact decode_rows_iff ⟨Nat.le_refl 1, hcomponent⟩
  | succ n ih =>
    rw [decode_rows_iff ⟨Nat.le_add_left 1 (n + 1), hcomponent⟩]
    -- a row in its slot is an array of one dimension less, where null is null either way
    have hrow : ∀ i w, f.decode i (.element component (n + 2)
          (ArraySignature.mk component (n + 2)).id) = .ok w ↔
        Rows (fun i w => f.decode i (elementSlot component) = .ok w) component (n + 1) i w := by
      intro i w
      rw [element_add_two, decode_row, ← ih]
      cases i with
      | null => rw [decode_null_through]; rfl
      | _ => rfl
    simp only [hrow]
    rfl

/-- Items that are written as they were read make rows that are. -/
theorem written_of_items {element : Json → Value → Prop} (hcomponent : component.signature? = none)
    {n : Nat} (hitem : ∀ i w, i.Sized → Rows element component n i w → ∃ t, Json.Written t i ∧
      f.encode w (.element component (n + 1) (ArraySignature.mk component (n + 1)).id) = .ok t)
    {j : Json} {v : Value} (hj : j.Sized) (h : Rows element component (n + 1) j v) :
    ∃ t, Json.Written t j ∧ f.encode v (.through (.array ⟨component, n + 1⟩)) = .ok t := by
  rcases h with ⟨rfl, rfl⟩ | ⟨items, vs, rfl, hrows, rfl⟩
  · exact ⟨_, Json.written_null, encode_null_through _⟩
  · cases hj with
    | array hitems =>
      obtain ⟨texts, hwritten, htexts⟩ := exists_between
        (forall₂_imp_of_mem hrows fun i hi w => hitem i w (hitems i hi))
      refine ⟨_, Json.written_array hwritten.flip, (encode_rows_iff ?_).2 ⟨texts, htexts, rfl⟩⟩
      exact ⟨Nat.le_add_left 1 n, hcomponent⟩

/-- Rows are written as they were read, down to elements that are. -/
theorem written_of_rows {element : Json → Value → Prop} (hcomponent : component.signature? = none)
    (helement : ∀ j v, j.Sized → element j v →
      ∃ t, Json.Written t j ∧ f.encode v (elementSlot component) = .ok t) {n : Nat} {j : Json}
    {v : Value} (hj : j.Sized) (h : Rows element component (n + 1) j v) :
    ∃ t, Json.Written t j ∧ f.encode v (.through (.array ⟨component, n + 1⟩)) = .ok t := by
  induction n generalizing j v with
  | zero => exact written_of_items (n := 0) hcomponent helement hj h
  | succ n ih =>
    refine written_of_items hcomponent ?_ hj h
    intro i w hi hrow
    obtain ⟨t, hwritten, ht⟩ := ih hi hrow
    refine ⟨t, hwritten, ?_⟩
    rw [element_add_two, encode_row]
    rcases hrow with ⟨-, rfl⟩ | ⟨-, ws, -, -, rfl⟩
    · rw [← ht, encode_null_through]
    · exact ht

/-! ### Elements

An element stands for itself only under a component that says what its elements are.  Under `any` or
a name the tag of an element decides who reads it, and a tag may stand around null or name an array
type, be it that of the very array. -/

/-- The marshaller that reads an element, with the document that it is given: under `any` or a name
the tag tells which, and what it is put around is read. -/
def reader? (f : Factory) (component : TypeRef) (j : Json) : Option (Marshaller × Json) :=
  match Wire.tag? j with
  | some tag =>
    if component.isDynamic then
      (f.lookup tag).map fun i => (i.marshaller, (j.get? Wire.valueKey).getD j)
    else (f.lookup component.id).map fun i => (i.marshaller, j)
  | none => (f.lookup component.id).map fun i => (i.marshaller, j)

/-- The value is an element of arrays over the component, read by itself as the component says.
Null is read from null, and where it is read from anything else, that is a tag around null; an
element that is an array was read by the marshaller of such an array.  A foreign class may read
what it likes.  Unless the component is `any` or a name, none of these is there, so that null stands
exactly where the document is null and no element is an array. -/
structure ReadsElement (f : Factory) (component : TypeRef) (j : Json) (v : Value) : Prop where
  read : f.decode j (elementSlot component) = .ok v
  null : j.isNull = true → v.isNull = true
  isNull : v.isNull = true → j.isNull = true ∨ ∃ m payload,
    f.reader? component j = some (m, payload) ∧ (payload.isNull = true ∨ m.isForeign = true)
  isArray : ∀ s items, v = .array s items → ∃ m payload,
    f.reader? component j = some (m, payload) ∧
      ((∃ shape, m = .array shape ∧ s = .of shape.component shape.dimensions) ∨
        m.isForeign = true)
  static : component.isDynamic = false →
    (v.isNull = true → j.isNull = true) ∧ ∀ s items, v ≠ .array s items

theorem isNull_of_through {j : Json} {m : Marshaller} {v : Value} (hm : m.isForeign = false)
    (h : f.decode j (.through m) = .ok v) : v.isNull = j.isNull :=
  (reads_of_decode hm h).isNull

/-- What tells its type without a tag, or what a marshaller reads that the tag names. -/
theorem exists_reader_tagged {j : Json} {v : Value} (hj : j.isNull = false)
    (h : f.decode j .tagged = .ok v) :
    (v.isNull = false ∧ ∀ s items, v ≠ .array s items) ∨
      ∃ tag i, Wire.tag? j = some tag ∧ f.lookup tag = some i ∧
        f.decode ((j.get? Wire.valueKey).getD j) (.through i.marshaller) = .ok v := by
  cases j with
  | null => cases hj
  | bool _ | string _ =>
    rw [decode_eq] at h
    cases h
    exact .inl ⟨rfl, nofun⟩
  | number _ | array _ =>
    rw [decode_eq] at h
    cases h
  | object members =>
    rw [decode_object_tagged] at h
    cases htag : Wire.tag? (.object members) with
    | none =>
      rw [htag] at h
      cases h
    | some tag =>
      rw [htag] at h
      -- the payload is the tagged member, or the object itself if it has none
      obtain ⟨i, hi, h⟩ := bind_eq_ok_iff.1 h
      refine .inr ⟨tag, i, rfl, (f.require_eq_ok_iff _ _ _).1 hi, ?_⟩
      rw [Json.get?]
      split at h
      · next hpayload =>
        rw [hpayload]
        split at h
        · exact h
        · cases h
      · next hnone =>
        rw [hnone]
        split at h
        · exact h
        · cases h

/-- An element that is not null on the wire tells its type without a tag, or its reader reads it. -/
theorem exists_reader {j : Json} (hj : j.isNull = false) {v : Value}
    (h : f.decode j (elementSlot component) = .ok v) :
    (v.isNull = false ∧ ∀ s items, v ≠ .array s items) ∨
      ∃ m payload, f.reader? component j = some (m, payload) ∧
        f.decode payload (.through m) = .ok v := by
  have hdynamic (hdynamic : component.isDynamic = true) (h : f.decode j .tagged = .ok v) :
      (v.isNull = false ∧ ∀ s items, v ≠ .array s items) ∨
        ∃ m payload, f.reader? component j = some (m, payload) ∧
          f.decode payload (.through m) = .ok v := by
    refine (exists_reader_tagged hj h).imp_right ?_
    rintro ⟨tag, i, htag, hi, hdecode⟩
    exact ⟨_, _, by rw [reader?, htag]; simp only [hdynamic, if_true, hi, Option.map_some],
      hdecode⟩
  have hrequired (hreader : f.reader? component j =
        (f.lookup component.id).map fun i => (i.marshaller, j)) {owner : String}
      (h : (do
        let i ← f.require component.id owner
        f.decode j (.through i.marshaller)) = (.ok v : Except Error Value)) :
      ∃ m payload, f.reader? component j = some (m, payload) ∧
        f.decode payload (.through m) = .ok v := by
    obtain ⟨i, hi, h⟩ := bind_eq_ok_iff.1 h
    exact ⟨_, _, by rw [hreader, (f.require_eq_ok_iff _ _ _).1 hi, Option.map_some], h⟩
  rw [elementSlot, decode_declared, if_neg (by rw [hj]; exact Bool.false_ne_true)] at h
  -- a name goes by the tag of the element if there is one, and by itself otherwise
  cases component with
  | any => exact hdynamic rfl h
  | named name =>
    cases htag : Wire.tag? j with
    | some tag =>
      rw [Wire.isTagged, htag] at h
      obtain ⟨w, hw, h⟩ := bind_eq_ok_iff.1 h
      obtain ⟨⟨⟩, -, h⟩ := bind_eq_ok_iff.1 h
      cases h
      exact hdynamic rfl hw
    | none =>
      rw [Wire.isTagged, htag] at h
      exact .inr (hrequired (by rw [reader?, htag]) h)
  | _ => exact .inr (hrequired (by rw [reader?]; split <;> rfl) h)

/-- What a marshaller other than a foreign one reads as null is null, and what it reads as an array
it reads as an array of its own shape. -/
theorem readsElement_of_static {j : Json} {v : Value}
    (h : f.decode j (elementSlot component) = .ok v)
    (hstatic : component.isDynamic = false →
      (v.isNull = true → j.isNull = true) ∧ ∀ s items, v ≠ .array s items) :
    f.ReadsElement component j v := by
  cases hj : j.isNull with
  | true =>
    have hv : v = .null := by
      rw [elementSlot, decode_declared, if_pos hj] at h
      exact eq_null_of_decodeNull h
    subst hv
    exact ⟨h, fun _ => rfl, fun _ => .inl hj, nofun, hstatic⟩
  | false =>
    -- Somebody has read the element.  A marshaller of the library reads null from null only.
    have hreader := exists_reader hj h
    refine ⟨h, fun hnull => absurd (hj.symm.trans hnull) Bool.false_ne_true, ?_, ?_, hstatic⟩
    · intro hnull
      rcases hreader with ⟨hplain, -⟩ | ⟨m, payload, hreader, hdecode⟩
      · cases hplain.symm.trans hnull
      · refine .inr ⟨m, payload, hreader, ?_⟩
        cases hm : m.isForeign with
        | true => exact .inr rfl
        | false => exact .inl (isNull_of_through hm hdecode ▸ hnull)
    · rintro s items rfl
      rcases hreader with ⟨-, hplain⟩ | ⟨m, payload, hreader, hdecode⟩
      · exact absurd rfl (hplain s items)
      · refine ⟨m, payload, hreader, ?_⟩
        cases hm : m.isForeign with
        | true => exact .inr rfl
        | false =>
          cases reads_of_decode hm hdecode with
          | array _ => exact .inl ⟨_, rfl, rfl⟩

theorem written_of_string {j : Json} (hnull : j.isNull = false) {v : Value}
    (h : f.decode j (.through .string) = .ok v) :
    ∃ t, Json.Written t j ∧ f.encode v (.through .string) = .ok t := by
  cases reads_of_decode rfl h with
  | null => cases hnull
  | string s =>
    rw [encode]
    exact ⟨_, Json.written_quote s, rfl⟩

theorem written_of_scalar {p : Primitive} (hp : p.isFloat = false) {j : Json} (hj : j.Sized)
    (hnull : j.isNull = false) {v : Value} (h : f.decode j (.through (.scalar p)) = .ok v) :
    ∃ t, Json.Written t j ∧ f.encode v (.through (.scalar p)) = .ok t := by
  cases reads_of_decode rfl h with
  | null => cases hnull
  | scalar read =>
    obtain ⟨hprimitive, t, ht, hwritten⟩ := Scalar.written_of_read hp hj read
    refine ⟨t, hwritten, ?_⟩
    rw [encode]
    exact (if_pos hprimitive).trans ht

end Factory

open Factory

/-! ### Factories of documents

In a factory of a document the built-in types are bound to the marshallers of the library, so that
what an element under such a component is can be said exactly. -/

namespace Generator

variable {g : Generator} {d : Catalog} {package className : String} {f : Factory}

/-- The types that are neither dynamic nor arrays are bound to the built-in marshallers. -/
theorem lookup_basic (hstandard : g.Standard d) (hf : g.factory package className = .ok f)
    {type : TypeRef} {m : Marshaller} (hm : type.basic? = some m) :
    ∃ i, f.lookup type.id = some i ∧ i.marshaller = m := by
  have hgenerated := generated_of_factory hstandard.spelled hf
  obtain ⟨t, ht, hname, className, hclass, hget⟩ := (TypeRef.basic_of_basic? hm).exists_type
  -- a nullable scalar goes by an alias of the type that its primitive names
  have hdenotes : Catalog.builtin.Denotes type.id t := by
    cases type with
    | boxed p =>
      cases hm
      refine .inr ?_
      rw [hname]
      cases p <;> decide
    | any | named _ | array _ _ => cases hm
    | _ =>
      cases hm
      exact .inl hname.symm
  obtain ⟨_, i, hplanned, hmakes, hi⟩ := hgenerated.ofType t (hstandard.over.mem_types.2 (.inl ht))
    _ (hstandard.denotes_of_builtin hdenotes)
  exact ⟨i, hi, (ExposedType.stands_of_makes hplanned hmakes).eq_of_class hstandard hclass hget⟩

/-- An element of such a type is null, or read and written by that marshaller. -/
theorem coding_basic (hstandard : g.Standard d) (hf : g.factory package className = .ok f)
    {type : TypeRef} {m : Marshaller} (hm : type.basic? = some m) (owner : String) :
    (∀ j, f.decode j (.declared type owner) =
      if j.isNull then decodeNull type owner else f.decode j (.through m)) ∧
    ∀ v, v.isNull = false → f.encode v (.declared type owner) = f.encode v (.through m) := by
  obtain ⟨i, hi, rfl⟩ := lookup_basic hstandard hf hm
  have hrequire : f.require type.id owner = .ok i := (f.require_eq_ok_iff _ _ _).2 hi
  have hstatic : type.isDynamic = false := by
    cases type with
    | any | named _ => cases hm
    | _ => rfl
  constructor
  · intro j
    cases hj : j.isNull with
    | true => rw [decode_declared, hj, if_pos rfl, if_pos rfl]
    | false =>
      rw [f.decode_static hstatic hj, hrequire]
      rfl
  · intro v hv
    rw [f.encode_static hstatic hv, hrequire]
    rfl

theorem readsElement_of_decode (hstandard : g.Standard d)
    (hf : g.factory package className = .ok f) {component : TypeRef}
    (hcomponent : component.signature? = none) {j : Json} {v : Value}
    (h : f.decode j (elementSlot component) = .ok v) : f.ReadsElement component j v := by
  refine readsElement_of_static h fun hstatic => ?_
  -- a component that says what its elements are is a built-in type
  obtain ⟨m, hm⟩ := TypeRef.exists_basic hstatic hcomponent
  have hbasic := TypeRef.basic_of_basic? hm
  rw [elementSlot, (coding_basic hstandard hf hm _).1] at h
  split at h
  · next hj =>
    rw [eq_null_of_decodeNull h]
    exact ⟨fun _ => hj, nofun⟩
  · have hreads := reads_of_decode hbasic.usual.isForeign h
    refine ⟨fun hnull => hreads.isNull ▸ hnull, ?_⟩
    rintro s items rfl
    cases hreads with
    | array _ => exact hbasic

theorem written_of_element (hstandard : g.Standard d) (hf : g.factory package className = .ok f)
    {component : TypeRef} (hexact : component.isExact = true) {j : Json} (hj : j.Sized) {v : Value}
    (h : f.decode j (elementSlot component) = .ok v) :
    ∃ t, Json.Written t j ∧ f.encode v (elementSlot component) = .ok t := by
  cases hnull : j.isNull with
  | true =>
    rw [elementSlot, decode_declared, if_pos hnull] at h
    unfold decodeNull at h
    split at h
    · next hnullable =>
      cases h
      cases j with
      | null =>
        refine ⟨_, Json.written_null, ?_⟩
        rw [elementSlot, encode_declared]
        exact if_pos hnullable
      | _ => cases hnull
    · cases h
  | false =>
    -- An element that is not null goes straight to the marshaller of the component, both ways.
    have hcoding {m : Marshaller} (hm : component.basic? = some m) {w : Value}
        (hw : f.decode j (elementSlot component) = .ok w) :
        f.decode j (.through m) = .ok w ∧
          f.encode w (elementSlot component) = f.encode w (.through m) := by
      obtain ⟨hdecode, hencode⟩ := coding_basic hstandard hf hm (ArraySignature.mk component 1).id
      rw [elementSlot, hdecode, hnull] at hw
      have hm := (TypeRef.basic_of_basic? hm).usual.isForeign
      exact ⟨hw, hencode w ((isNull_of_through hm hw).trans hnull)⟩
    rcases TypeRef.exact_cases hexact with hm | ⟨p, hm, hp⟩
    · obtain ⟨hread, hencode⟩ := hcoding hm h
      rw [hencode]
      exact written_of_string hnull hread
    · obtain ⟨hread, hencode⟩ := hcoding hm h
      rw [hencode]
      exact written_of_scalar hp hj hnull hread

/-- What an array marshaller reads has the rows of the document in every dimension, and is written
as the document again, if its elements are strings or scalars other than floating point numbers. -/
theorem rows_of_decode (hstandard : g.Standard d) (hf : g.factory package className = .ok f)
    {s : ArraySignature} (hs : s.type.Flat) {j : Json} {v : Value}
    (h : f.decode j (.through (.array s)) = .ok v) :
    Rows (f.ReadsElement s.component) s.component s.dimensions j v ∧
    (s.component.isExact = true → j.Sized →
      ∃ t, f.encode v (.through (.array s)) = .ok t ∧
        (Json.nesting t ≤ Json.nestingLimit → Wire.parse t = .ok j)) := by
  obtain ⟨component, dimensions⟩ := s
  obtain ⟨hdimensions, hcomponent⟩ := hs
  -- a flat array has a dimension at least, and the induction is on those after the first
  obtain ⟨n, rfl⟩ := Nat.exists_eq_add_of_le' hdimensions
  have hrows := (decode_array_iff hcomponent).1 h
  refine ⟨hrows.imp fun i w => readsElement_of_decode hstandard hf hcomponent, ?_⟩
  intro hexact hj
  obtain ⟨t, hwritten, ht⟩ := written_of_rows hcomponent
    (fun i w hi => written_of_element hstandard hf hexact hi) hj hrows
  refine ⟨t, ht, ?_⟩
  intro hlimit
  rw [Wire.parse, hwritten.parse? hlimit]

/-- A row of an integer and a missing one, no row, and an empty row. -/
def raggedGrid : Json := .array [.array [.ofInt 7, .null], .null, .array []]

theorem raggedGrid_sized : raggedGrid.Sized := by
  have hseven : (Json.ofInt 7).Sized := by
    refine .number ?_
    rintro i ⟨⟩
    decide
  unfold raggedGrid
  refine .array (List.forall_mem_cons.2 ⟨?_, List.forall_mem_cons.2 ⟨.null, ?_⟩⟩)
  · exact .array (List.forall_mem_cons.2 ⟨hseven, List.forall_mem_singleton.2 .null⟩)
  · exact List.forall_mem_singleton.2 (.array (fun _ h => absurd h List.not_mem_nil))

theorem raggedGrid_read : (factoryOver knots).toOption.any (fun f =>
    (f.decode raggedGrid (.through (.array ⟨.boxed .i32, 2⟩))).toOption.any fun v =>
      (f.encode v (.through (.array ⟨.boxed .i32, 2⟩))).toOption.any
        fun t => decide (Json.nesting t ≤ Json.nestingLimit)) = true := by
  decide +kernel

/-- Rows of several lengths, one of them null, with a null among the numbers. -/
theorem rows_of_decode_raggedGrid : ∃ c f v t,
    (⟨c, Providers.builtin⟩ : Generator).factory "demo" "Factory" = .ok f ∧
    f.decode raggedGrid (.through (.array ⟨.boxed .i32, 2⟩)) = .ok v ∧
    Rows (f.ReadsElement (.boxed .i32)) (.boxed .i32) 2 raggedGrid v ∧
    f.encode v (.through (.array ⟨.boxed .i32, 2⟩)) = .ok t ∧ Wire.parse t = .ok raggedGrid := by
  obtain ⟨f, hf, hread⟩ := (Option.any_eq_true _ _).1 raggedGrid_read
  obtain ⟨c, hstandard, hf⟩ :=
    standard_of_factoryOver parse_knotDocument (toOption_eq_some_iff.1 hf)
  obtain ⟨v, hv, hwritten⟩ := (Option.any_eq_true _ _).1 hread
  obtain ⟨t, ht, hlimit⟩ := (Option.any_eq_true _ _).1 hwritten
  rw [toOption_eq_some_iff] at hv ht
  obtain ⟨hrows, hback⟩ := rows_of_decode hstandard hf (s := ⟨.boxed .i32, 2⟩) (by decide) hv
  obtain ⟨t', ht', hparse⟩ := hback rfl raggedGrid_sized
  cases ht.symm.trans ht'
  exact ⟨c, f, v, t, hf, hv, hrows, ht, hparse (of_decide_eq_true hlimit)⟩

/-- An object type with an array in a field that takes anything. -/
def shelfDocument : String :=
  "\x7b\"types\":[\x7b\"name\":\"Shelf\",\"kind\":\"object\",\"fields\":[" ++
    "\x7b\"name\":\"things\",\"type\":\"any[]\"\x7d]\x7d]\x7d"

/-- The catalog of the document. -/
def shelves : Catalog :=
  ⟨[⟨"Shelf", .object [⟨"things", .array .any 1, true, true⟩], none⟩], .empty⟩

theorem parse_shelfDocument : Catalog.parse .json shelfDocument = .ok shelves := by
  have h : (Catalog.parse .json shelfDocument).toOption = some shelves := by decide +kernel
  exact toOption_eq_some_iff.1 h

/-- An item with the tag of strings around null, and one with the tag of the array around a row
without items. -/
def taggedItems : Json :=
  .array [.object [(Wire.typeKey, .string "string"), (Wire.valueKey, .null)],
    .object [(Wire.typeKey, .string "any[]"), (Wire.valueKey, .array [])]]

/-- The array of anything that has null and an array of its own kind for elements. -/
def anythings : Value := .array ⟨.any, 1⟩ [.null, .array ⟨.any, 1⟩ []]

theorem taggedItems_decoded : (factoryOver shelves).toOption.any (fun f =>
    (f.lookup "any[]").any (fun i => i.marshaller.shape? = some ⟨.any, 1⟩) &&
    match f.decode taggedItems (.through (.array ⟨.any, 1⟩)) with
    | .ok (.array ⟨.any, 1⟩ [.null, .array ⟨.any, 1⟩ []]) => true
    | _ => false) = true := by
  decide +kernel

/-- The array marshaller of anything reads null where the document has a tagged object, and an array
of its own where its elements stand. -/
theorem taggedItems_read : ∃ c f i, (⟨c, Providers.builtin⟩ : Generator).Standard shelves ∧
    (⟨c, Providers.builtin⟩ : Generator).factory "demo" "Factory" = .ok f ∧
    f.lookup "any[]" = some i ∧ i.marshaller = .array ⟨.any, 1⟩ ∧
      f.decode taggedItems (.through i.marshaller) = .ok anythings := by
  obtain ⟨f, hf, hread⟩ := (Option.any_eq_true _ _).1 taggedItems_decoded
  obtain ⟨c, hstandard, hf⟩ :=
    standard_of_factoryOver parse_shelfDocument (toOption_eq_some_iff.1 hf)
  rw [Bool.and_eq_true] at hread
  obtain ⟨i, hi, hm⟩ := (Option.any_eq_true _ _).1 hread.1
  have hm := Marshaller.eq_of_shape? (of_decide_eq_true hm)
  have hdecode := hread.2
  split at hdecode
  · next heq => exact ⟨c, f, i, hstandard, hf, hi, hm, hm ▸ heq⟩
  · cases hdecode

end Generator
end TaggedWire
