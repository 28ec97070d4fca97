import TaggedWire.Catalog.Fingerprint
import TaggedWire.Proofs.Catalog.Sound
import TaggedWire.Proofs.Digest.Sha256
import TaggedWire.Proofs.Json.Written

/-!
# What a fingerprint tells

The document of which a fingerprint is a digest tells all that it is made of: the target, the
available classes and the catalog, up to the order of its types.  A stored fingerprint that was cut
short is not taken for any other.

* `Catalog.document_injective`: catalogs with spelled types have documents of their own.
* `Fingerprint.message_eq_iff`: equal messages come from equal targets, classes and catalogs, up to
  order and repetition.
* `Fingerprint.compute_eq_iff`: so do equal fingerprints, where the digest does not collide.
* `Fingerprint.eq_of_stored`: a front of a stored fingerprint is read as that one or as none.
-/

namespace TaggedWire

/-! ### Documents of catalogs

The document of a catalog can be told apart from that of any other, down to the order of fields. -/

theorem eq_of_map_eq {α β : Type} {f : α → β} {xs ys : List α}
    (hinj : ∀ x ∈ xs, ∀ y ∈ ys, f x = f y → x = y) (h : xs.map f = ys.map f) : xs = ys := by
  induction xs generalizing ys with
  | nil => exact (List.map_eq_nil_iff.1 h.symm).symm
  | cons x xs ih =>
    cases ys with
    | nil => cases h
    | cons y ys =>
      obtain ⟨hhead, htail⟩ := List.cons.inj h
      have hxy := hinj x List.mem_cons_self y List.mem_cons_self hhead
      have hxs := ih (fun a ha b hb => hinj a (List.mem_cons_of_mem x ha) b
        (List.mem_cons_of_mem y hb)) htail
      rw [hxy, hxs]

theorem Json.ofTexts_injective {ss ts : List String} (h : ofTexts ss = ofTexts ts) : ss = ts :=
  (List.map_inj_right fun _ _ h => Json.string.inj h).1 (Json.array.inj h)

theorem Field.document_injective {f g : Field} (hf : f.declared.Spelled) (hg : g.declared.Spelled)
    (h : f.document = g.document) : f = g := by
  obtain ⟨name, declared, readable, writable⟩ := f
  simp only [document, Json.object.injEq, List.cons.injEq, Prod.mk.injEq, Json.string.injEq,
    Json.bool.injEq, true_and, and_true] at h
  obtain ⟨rfl, hid, rfl, rfl⟩ := h
  have hdeclared : declared = g.declared := TypeRef.Spelled.id_injective hf hg hid
  subst hdeclared
  rfl

/-- The members of a shape tell it, whatever follows them. -/
theorem Shape.members_append_inj {s t : Shape} {xs ys : List (String × Json)} (hs : s.Spelled)
    (ht : t.Spelled) (h : s.members ++ xs = t.members ++ ys) : s = t ∧ xs = ys := by
  cases s with
  | object fields =>
    cases t with
    | object others =>
      simp only [members, List.cons_append, List.nil_append, List.cons.injEq, Prod.mk.injEq,
        Json.array.injEq, true_and] at h
      obtain ⟨hfields, hrest⟩ := h
      have hinj : ∀ f ∈ fields, ∀ g ∈ others, f.document = g.document → f = g :=
        fun f hf g hg => Field.document_injective (hs f hf) (ht g hg)
      rw [eq_of_map_eq hinj hfields, hrest]
      exact ⟨rfl, rfl⟩
    | enumeration | array | unstructured => simp [members] at h
  | enumeration variants =>
    cases t with
    | enumeration others =>
      simp only [members, List.cons_append, List.nil_append, List.cons.injEq, Prod.mk.injEq,
        true_and] at h
      obtain ⟨hvariants, hrest⟩ := h
      rw [Json.ofTexts_injective hvariants, hrest]
      exact ⟨rfl, rfl⟩
    | object | array | unstructured => simp [members] at h
  | array =>
    cases t with
    | array => exact ⟨rfl, (List.cons.inj h).2⟩
    | object | enumeration | unstructured => simp [members] at h
  | unstructured =>
    cases t with
    | unstructured => exact ⟨rfl, (List.cons.inj h).2⟩
    | object | enumeration | array => simp [members] at h

theorem ExposedType.document_injective {t u : ExposedType} (ht : t.shape.Spelled)
    (hu : u.shape.Spelled) (h : t.document = u.document) : t = u := by
  obtain ⟨name, shape, className⟩ := t
  obtain ⟨name', shape', className'⟩ := u
  simp only [document, List.cons_append, List.nil_append, Json.object.injEq, List.cons.injEq,
    Prod.mk.injEq, Json.string.injEq, true_and] at h
  obtain ⟨rfl, h⟩ := h
  obtain ⟨rfl, hclass⟩ := Shape.members_append_inj ht hu h
  cases className with
  | none =>
    cases className' with
    | none => rfl
    | some c => cases hclass
  | some c =>
    cases className' with
    | none => cases hclass
    | some c' =>
      cases hclass
      rfl

theorem Table.document_injective {t u : Table String} (h : t.document = u.document) : t = u := by
  obtain ⟨entries, hentries⟩ := t
  obtain ⟨entries', hentries'⟩ := u
  have hinj : ∀ a b : String × String, (a.1, Json.string a.2) = (b.1, Json.string b.2) → a = b := by
    rintro ⟨k, v⟩ ⟨k', v'⟩ h
    cases h
    rfl
  obtain rfl := (List.map_inj_right hinj).1 (Json.object.inj h)
  rfl

/-- A catalog with spelled types is told by its document. -/
theorem Catalog.document_injective {c d : Catalog} (hc : c.Spelled) (hd : d.Spelled)
    (h : c.document = d.document) : c = d := by
  obtain ⟨types, aliases⟩ := c
  simp only [document, Json.object.injEq, List.cons.injEq, Prod.mk.injEq, Json.array.injEq,
    true_and, and_true] at h
  obtain ⟨htypes, haliases⟩ := h
  have hinj : ∀ t ∈ types, ∀ u ∈ d.types, t.document = u.document → t = u :=
    fun t ht u hu => ExposedType.document_injective (hc t ht) (hd u hu)
  have htypes := eq_of_map_eq hinj htypes
  have haliases := Table.document_injective haliases
  subst htypes haliases
  rfl

theorem Catalog.Spelled.canonical {c : Catalog} (h : c.Spelled) : c.canonical.Spelled :=
  fun t ht => h t (mem_canonical.1 ht)

/-! ### No numbers

The documents have no numbers in them, so their compact texts denote them. -/

namespace Json

theorem numberless_ofTexts (texts : List String) : (ofTexts texts).Numberless := by
  refine .array ?_
  intro j hj
  obtain ⟨s, -, rfl⟩ := List.mem_map.1 hj
  exact .string s

theorem numberless_object_cons {key : String} {j : Json} {members : List (String × Json)}
    (hj : j.Numberless) (h : (object members).Numberless) :
    (object ((key, j) :: members)).Numberless := by
  cases h with
  | object h => exact .object (List.forall_mem_cons.2 ⟨hj, h⟩)

theorem numberless_object_nil : (object []).Numberless :=
  .object fun _ h => absurd h List.not_mem_nil

theorem numberless_object_append {xs ys : List (String × Json)} (hxs : (object xs).Numberless)
    (hys : (object ys).Numberless) : (object (xs ++ ys)).Numberless := by
  cases hxs with
  | object hxs =>
    cases hys with
    | object hys => exact .object (List.forall_mem_append.2 ⟨hxs, hys⟩)

end Json

open Json

theorem Field.numberless (f : Field) : f.document.Numberless :=
  numberless_object_cons (.string _) (numberless_object_cons (.string _)
    (numberless_object_cons (.bool _) (numberless_object_cons (.bool _) numberless_object_nil)))

theorem Shape.numberless (s : Shape) : (Json.object s.members).Numberless := by
  cases s with
  | object fields =>
    refine numberless_object_cons (.string _) (numberless_object_cons (.array fun j hj => ?_)
      numberless_object_nil)
    obtain ⟨f, -, rfl⟩ := List.mem_map.1 hj
    exact f.numberless
  | enumeration variants =>
    exact numberless_object_cons (.string _)
      (numberless_object_cons (numberless_ofTexts variants) numberless_object_nil)
  | array | unstructured => exact numberless_object_cons (.string _) numberless_object_nil

theorem ExposedType.numberless (t : ExposedType) : t.document.Numberless := by
  unfold document
  refine numberless_object_append (numberless_object_append ?_ t.shape.numberless) ?_
  · exact numberless_object_cons (.string _) numberless_object_nil
  · cases t.className with
    | none => exact numberless_object_nil
    | some c => exact numberless_object_cons (.string c) numberless_object_nil

theorem Catalog.numberless (c : Catalog) : c.document.Numberless := by
  refine numberless_object_cons (.array fun j hj => ?_)
    (numberless_object_cons (.object fun m hm => ?_) numberless_object_nil)
  · obtain ⟨t, -, rfl⟩ := List.mem_map.1 hj
    exact t.numberless
  · obtain ⟨e, -, rfl⟩ := List.mem_map.1 hm
    exact .string e.2

/-! ### Messages and digests

A message is the text of a document, hence equal messages come from equal documents. -/

/-- Only the line break behind a text without blanks is trimmed. -/
theorem Text.trim_append_newline {s : String} (hs : s ≠ "")
    (hblank : ∀ c ∈ s.toList, isBlank c = false) : trim (s ++ "\n") = s := by
  have hnewline : isBlank '\n' = true := rfl
  have hstart : trimStart (s.toList ++ ['\n']) = s.toList ++ ['\n'] := by
    refine trimStart_eq_self fun c hc => hblank c ?_
    rw [List.head?_append_of_ne_nil _ (by simpa using hs)] at hc
    exact List.mem_of_head? hc
  have hend : trimEnd (s.toList ++ ['\n']) = trimEnd s.toList := by
    simp [trimEnd, hnewline]
  have hself : trimEnd s.toList = s.toList :=
    trimEnd_eq_self fun c hc => hblank c (List.mem_of_getLast? hc)
  unfold trim
  rw [String.toList_append, show "\n".toList = ['\n'] from rfl, hstart, hend, hself,
    String.ofList_toList]

namespace Fingerprint

/-- The bytes of which the fingerprint is a digest. -/
def message (c : Catalog) (classes : List String) (package className : String) : List UInt8 :=
  (document c classes package className).compact.toUTF8.data.toList

theorem numberless (c : Catalog) (classes : List String) (package className : String) :
    (document c classes package className).Numberless :=
  numberless_object_cons (.string _) (numberless_object_cons (.string _)
    (numberless_object_cons (.string _) (numberless_object_cons (numberless_ofTexts _)
      (numberless_object_cons c.canonical.numberless numberless_object_nil))))

/-- Equal messages come from one target, the same classes, and catalogs that only differ in the
order of their types. -/
theorem message_inj {c d : Catalog} {classes classes' : List String}
    {package package' className className' : String} (hc : c.Spelled) (hd : d.Spelled)
    (h : message c classes package className = message d classes' package' className') :
    package = package' ∧ className = className' ∧ sortTexts classes = sortTexts classes' ∧
      c.canonical = d.canonical := by
  unfold message at h
  have hbytes := ByteArray.ext (Array.toList_inj.1 h)
  have htexts := String.toByteArray_inj.1 hbytes
  have hdocuments := compact_injective (numberless c classes package className)
    (numberless d classes' package' className') htexts
  simp only [document, Json.object.injEq, List.cons.injEq, Prod.mk.injEq, Json.string.injEq,
    true_and, and_true] at hdocuments
  obtain ⟨hpackage, hclass, hclasses, hcatalog⟩ := hdocuments
  exact ⟨hpackage, hclass, Json.ofTexts_injective hclasses,
    Catalog.document_injective hc.canonical hd.canonical hcatalog⟩

/-- Classes that are listed in another order, or more than once, are the same in order. -/
theorem sortTexts_eq_iff {texts texts' : List String} :
    sortTexts texts = sortTexts texts' ↔ ∀ s, s ∈ texts ↔ s ∈ texts' := by
  constructor
  · intro h s
    rw [← mem_sortTexts, h, mem_sortTexts]
  · intro h
    have hsorted := pairwise_sortTexts texts
    have hsorted' := pairwise_sortTexts texts'
    have hperm : (sortTexts texts).Perm (sortTexts texts') := by
      refine (List.perm_ext_iff_of_nodup (hsorted.imp String.ne_of_lt)
        (hsorted'.imp String.ne_of_lt)).2 fun s => ?_
      rw [mem_sortTexts, mem_sortTexts]
      exact h s
    exact hperm.eq_of_pairwise (fun s t _ _ hst hts => absurd hts (String.lt_asymm hst)) hsorted
      hsorted'

section Identity

variable {c d : Catalog} {classes classes' : List String}
  {package package' className className' : String}

/-- The messages of two fingerprints are equal exactly where the targets are, the classes have the
same names, and the catalogs differ in the order of their types at most. -/
theorem message_eq_iff (hc : c.Spelled) (hd : d.Spelled) (hnodup : c.names.Nodup) :
    message c classes package className = message d classes' package' className' ↔
      package = package' ∧ className = className' ∧ (∀ s, s ∈ classes ↔ s ∈ classes') ∧
        c.aliases = d.aliases ∧ c.types.Perm d.types := by
  constructor
  · intro h
    obtain ⟨hpackage, hclass, hclasses, hcanonical⟩ := message_inj hc hd h
    have htypes : Catalog.sortByName c.types = Catalog.sortByName d.types :=
      congrArg Catalog.types hcanonical
    have haliases : c.canonical.aliases = d.canonical.aliases :=
      congrArg Catalog.aliases hcanonical
    refine ⟨hpackage, hclass, sortTexts_eq_iff.1 hclasses, haliases, ?_⟩
    exact (Catalog.sortByName_perm c.types).symm.trans (htypes ▸ Catalog.sortByName_perm d.types)
  · rintro ⟨rfl, rfl, hclasses, haliases, htypes⟩
    unfold message document
    rw [sortTexts_eq_iff.2 hclasses, Catalog.canonical_eq_of_perm hnodup htypes haliases]

/-- A fingerprint identifies the target, the names of the classes, the aliases and the types of a
catalog from documents, each type with all its parts; it does not tell the order of the types and
classes, nor how often a class is listed. -/
theorem compute_eq_iff (hc : c.Documented) (hd : d.Documented) (hnodup : c.names.Nodup)
    (hdigest : Sha256.digest (message c classes package className) =
        Sha256.digest (message d classes' package' className') →
      message c classes package className = message d classes' package' className') :
    compute c classes package className = compute d classes' package' className' ↔
      package = package' ∧ className = className' ∧ (∀ s, s ∈ classes ↔ s ∈ classes') ∧
        c.aliases = d.aliases ∧ c.types.Perm d.types := by
  rw [← message_eq_iff hc.spelled hd.spelled hnodup]
  constructor
  · intro h
    exact hdigest (Sha256.hexDigest_inj.1 (Fingerprint.mk.inj h))
  · intro h
    exact congrArg (fun m => Fingerprint.mk (Sha256.hexDigest m)) h

/-- The text of an object type with one field. -/
def ropeText (name type : String) : String :=
  "\x7b\"name\":\"" ++ name ++ "\",\"kind\":\"object\",\"fields\":[" ++
    "\x7b\"name\":\"to\",\"type\":\"" ++ type ++ "\"\x7d]\x7d"

/-- The text of a catalog without aliases. -/
def typesText (types : String) : String := "\x7b\"types\":[" ++ types ++ "]\x7d"

/-- Two types that refer to each other, each with its text. -/
def ropes : List (ExposedType × String) :=
  [(⟨"Rope", .object [⟨"to", .named "Mast", true, true⟩], none⟩, ropeText "Rope" "Mast"),
    (⟨"Mast", .object [⟨"to", .array (.named "Rope") 1, true, true⟩], none⟩,
      ropeText "Mast" "Rope []")]

/-- Of two types that refer to each other either may come first, and classes may be listed in any
order and repeated; but no class may be missing. -/
theorem compute_eq_iff_ropes :
    Catalog.Documented ⟨ropes.map (·.1), Table.empty⟩ ∧
    Catalog.Documented ⟨ropes.reverse.map (·.1), Table.empty⟩ ∧
    compute ⟨ropes.map (·.1), Table.empty⟩ ["A", "B"] "demo" "Factory" =
      compute ⟨ropes.reverse.map (·.1), Table.empty⟩ ["B", "A", "B"] "demo" "Factory" ∧
    compute ⟨ropes.map (·.1), Table.empty⟩ ["A", "B"] "demo" "Factory" ≠
      compute ⟨ropes.reverse.map (·.1), Table.empty⟩ ["B"] "demo" "Factory" := by
  have hparse : (Catalog.parse .json (typesText (Json.joined "," (ropes.map (·.2))))).toOption =
      some ⟨ropes.map (·.1), Table.empty⟩ := by
    decide +kernel
  have hreverse : (Catalog.parse .json
      (typesText (Json.joined "," (ropes.reverse.map (·.2))))).toOption =
      some ⟨ropes.reverse.map (·.1), Table.empty⟩ := by
    decide +kernel
  have hc : Catalog.Documented ⟨ropes.map (·.1), Table.empty⟩ :=
    .parse (toOption_eq_some_iff.1 hparse)
  have hd : Catalog.Documented ⟨ropes.reverse.map (·.1), Table.empty⟩ :=
    .parse (toOption_eq_some_iff.1 hreverse)
  have hnodup : Catalog.names ⟨ropes.map (·.1), Table.empty⟩ |>.Nodup := by decide
  have hperm : (ropes.map (·.1)).Perm (ropes.reverse.map (·.1)) :=
    ((List.reverse_perm ropes).map _).symm
  have hsame : ∀ s, s ∈ ["A", "B"] ↔ s ∈ ["B", "A", "B"] := by
    intro s
    grind
  refine ⟨hc, hd, ?_, ?_⟩
  · refine (compute_eq_iff hc hd hnodup fun _ => ?_).2 ⟨rfl, rfl, hsame, rfl, hperm⟩
    exact (message_eq_iff hc.spelled hd.spelled hnodup).2 ⟨rfl, rfl, hsame, rfl, hperm⟩
  · intro heq
    have hdiffer : Sha256.digest (message ⟨ropes.map (·.1), Table.empty⟩ ["A", "B"] "demo"
        "Factory") ≠
        Sha256.digest (message ⟨ropes.reverse.map (·.1), Table.empty⟩ ["B"] "demo" "Factory") := by
      decide +kernel
    obtain ⟨-, -, hclasses, -⟩ := (compute_eq_iff hc hd hnodup (absurd · hdiffer)).1 heq
    exact absurd ((hclasses "A").1 (by decide)) (by decide)

end Identity

/-- A front of a stored digest is taken for that digest or for none. -/
theorem eq_of_stored {message message' : List UInt8} {stored : String}
    (hstored : stored.toList <+: (Sha256.hexDigest message ++ "\n").toList)
    (h : ofStored stored = ⟨Sha256.hexDigest message'⟩) :
    Sha256.hexDigest message = Sha256.hexDigest message' := by
  have htrim : Text.trim stored = Sha256.hexDigest message' := Fingerprint.mk.inj h
  have hlength := Sha256.length_hexDigest message
  have hblank (c : Char) (hc : c ∈ (Sha256.hexDigest message).toList) : Text.isBlank c = false :=
    Sha256.isBlank_hexDigest hc
  rw [String.toList_append] at hstored
  rcases List.prefix_concat_iff.1 hstored with hall | hpart
  · have hnonempty : Sha256.hexDigest message ≠ "" := by
      intro hempty
      simp [hempty] at hlength
    rw [← htrim, ← Text.trim_append_newline hnonempty hblank]
    exact congrArg Text.trim (String.toList_inj.1 (by rw [hall, String.toList_append]; rfl))
  · -- nothing is trimmed, so what is there has the length of a whole digest
    have hself : Text.trim stored = stored :=
      Text.trim_eq_self (fun c hc => hblank c (hpart.subset (List.mem_of_head? hc)))
        fun c hc => hblank c (hpart.subset (List.mem_of_getLast? hc))
    rw [← htrim, hself, ← String.toList_inj]
    refine (hpart.eq_of_length ?_).symm
    rw [← hself, htrim, Sha256.length_hexDigest, hlength]

end Fingerprint
end TaggedWire
