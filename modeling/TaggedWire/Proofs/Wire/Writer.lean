import TaggedWire.Proofs.Json.Written
import TaggedWire.Proofs.Results
import TaggedWire.Proofs.Table
import TaggedWire.Wire.Writer

/-!
# What is written part by part is read part by part

A writer does not look at the texts of its parts.  Whatever they look like, the finished text is
read as an array or object of what the parts are read as, and only nesting can prevent that: the
array or object is one container more.  Where keys are repeated the last entry counts, so an entry
may take the place of the type tag.

* `Json.nesting_arrayText_le_iff`, `Json.nesting_objectText_le_iff`: one container more than the
  parts.
* `Wire.maps_reading`: what is found under each key of the object that is read.
* `Wire.parse_writers`: what the finished texts are read as, and when.
-/

namespace TaggedWire

namespace Json

/-! ### Nesting of composed texts

One container more than the deepest part. -/

theorem Tree.itemsDepth_le_iff {texts : List String} {trees : List Tree}
    (h : List.Forall₂ (fun s t => Tree.parse? s = some t) texts trees) {n : Nat} :
    itemsDepth trees ≤ n ↔ ∀ s ∈ texts, nesting s ≤ n := by
  induction h with
  | nil => simp [itemsDepth]
  | @cons s t texts trees hst _ ih =>
    have hnesting : nesting s = t.depth := by rw [nesting, hst, Option.map_some, Option.getD_some]
    rw [itemsDepth, Nat.max_le, ih, List.forall_mem_cons, hnesting]

theorem Tree.membersDepth_eq (members : List (Literal × Tree)) :
    membersDepth members = itemsDepth (members.map (·.2)) := by
  induction members with
  | nil => rfl
  | cons m rest ih => rw [membersDepth, ih, List.map_cons, itemsDepth]

/-- An array nests one container more than what it holds, -/
theorem nesting_arrayText_le_iff {texts : List String} {js : List Json}
    (h : List.Forall₂ Written texts js) {n : Nat} :
    nesting (arrayText texts) ≤ n + 1 ↔ ∀ s ∈ texts, nesting s ≤ n := by
  obtain ⟨trees, hparses, -⟩ := exists_trees h
  rw [nesting, Tree.parse?_arrayText hparses, Option.map_some, Option.getD_some, Tree.depth,
    Nat.add_le_add_iff_right, Tree.itemsDepth_le_iff hparses]

/-- and so does an object. -/
theorem nesting_objectText_le_iff {members : List (String × String)} {js : List (String × Json)}
    (h : List.Forall₂ WrittenMember members js) {n : Nat} :
    nesting (objectText members) ≤ n + 1 ↔ ∀ m ∈ members, nesting m.2 ≤ n := by
  have hvalues : List.Forall₂ Written (members.map (·.2)) (js.map (·.2)) := by
    rw [List.forall₂_map_left_iff, List.forall₂_map_right_iff]
    exact h.imp fun _ _ hm => hm.2
  obtain ⟨trees, hparses, -⟩ := exists_trees hvalues
  have hlength : trees.length ≤ members.length := by
    simpa using Nat.le_of_eq hparses.length_eq.symm
  have htrees : ((members.zip trees).map fun e => (Literal.ofText e.1.1, e.2)).map (·.2) =
      trees := by
    rw [List.map_map]
    exact List.map_snd_zip hlength
  rw [nesting, Tree.parse?_objectText hparses, Option.map_some, Option.getD_some, Tree.depth,
    Nat.add_le_add_iff_right, Tree.membersDepth_eq, htrees, Tree.itemsDepth_le_iff hparses,
    List.forall_mem_map]

/-! ### Repeated keys

The last of the entries with one key is found, and the tag comes before all of them. -/

/-- The last member with a key is the one that is found. -/
theorem find?_of_last {key : String} {value : α} {front back : List (String × α)}
    (h : key ∉ back.map (·.1)) : find? key (front ++ (key, value) :: back) = some value := by
  rw [← List.singleton_append, find?_append, find?_append, find?_eq_none h]
  simp [find?]

end Json

namespace Wire

open Json

theorem parse_eq_ok_iff {s : String} {j : Json} : parse s = .ok j ↔ Json.parse? s = some j := by
  unfold parse
  cases Json.parse? s <;> simp

/-- An object has under each key what the text of the last entry with that key is read as, and under
the key of the type tag the tag, unless an entry has that key. -/
structure Maps (tag : Option String) (entries : List (String × String)) (j : Json) : Prop where
  last : ∀ front key text back, entries = front ++ (key, text) :: back →
    key ∉ back.map (·.1) → ∃ k, parse text = .ok k ∧ j.get? key = some k
  tag : typeKey ∉ entries.map (·.1) → j.get? typeKey = tag.map Json.string
  other : ∀ key, key ≠ typeKey → key ∉ entries.map (·.1) → j.get? key = none

/-- The members that a type tag and some entries are read as. -/
def reading (tag : Option String) (entries : List (String × String)) : List (String × Json) :=
  tag.toList.map (fun type => (typeKey, .string type)) ++
    entries.map fun e => (e.1, (Json.parse? e.2).getD .null)

/-- The last entry for a key is the one that is found. -/
theorem maps_reading (tag : Option String) {entries : List (String × String)}
    (h : ∀ e ∈ entries, ∃ j, parse e.2 = .ok j) :
    Maps tag entries (.object (reading tag entries)) := by
  have hkeys : ∀ key, key ∉ entries.map (·.1) →
      find? key (entries.map fun e => (e.1, (Json.parse? e.2).getD .null)) = none := by
    intro key hkey
    refine find?_eq_none ?_
    rwa [List.map_map]
  constructor
  -- a later entry wins, and entries win over the tag, which stands in front
  case last =>
    rintro front key text back rfl hback
    obtain ⟨j, hj⟩ := h (key, text) (List.mem_append_right _ List.mem_cons_self)
    refine ⟨j, hj, ?_⟩
    rw [get?, reading, List.map_append, List.map_cons, ← List.append_assoc, find?_of_last,
      parse_eq_ok_iff.1 hj, Option.getD_some]
    rwa [List.map_map]
  case tag =>
    intro hkey
    rw [get?, reading, find?_append, hkeys _ hkey, Option.none_or]
    cases tag <;> simp [find?]
  case other =>
    intro key hne hkey
    rw [get?, reading, find?_append, hkeys _ hkey, Option.none_or]
    cases tag <;> simp [find?, hne.symm]

/-- The entries that a tagged object opens with. -/
def tagEntries (tag : Option String) : List (String × String) :=
  tag.toList.map fun type => (typeKey, quote type)

theorem closeObject_eq (tag : Option String) (entries : List (String × String)) :
    (entries.foldl Writer.entry (.openObject tag)).closeObject =
      objectText (tagEntries tag ++ entries) := by
  cases tag with
  | none => exact Writer.closeObject_foldl entries
  | some type => exact Writer.closeObject_tagged type entries

theorem written_reading (tag : Option String) {entries : List (String × String)}
    (h : ∀ e ∈ entries, ∃ j, parse e.2 = .ok j) :
    List.Forall₂ WrittenMember (tagEntries tag ++ entries) (reading tag entries) := by
  have hentries : List.Forall₂ WrittenMember entries
      (entries.map fun e => (e.1, (Json.parse? e.2).getD .null)) := by
    rw [List.forall₂_map_right_iff, List.forall₂_same]
    intro e he
    obtain ⟨j, hj⟩ := h e he
    rw [parse_eq_ok_iff] at hj
    refine ⟨rfl, written_of_parse? ?_⟩
    rw [hj, Option.getD_some]
  cases tag with
  | none => exact hentries
  | some type => exact .cons ⟨rfl, written_quote type⟩ hentries

theorem nesting_quote (s : String) : nesting (quote s) = 0 := by
  rw [nesting, Tree.parse?_quote]
  rfl

/-! ### The finished texts

What a writer has been given so far is a list of texts or entries, and closing it composes them. -/

theorem parse_arrayText_iff {texts : List String} {docs : List Json}
    (h : List.Forall₂ (fun s j => parse s = .ok j) texts docs) :
    parse (arrayText texts) = .ok (.array docs) ↔ ∀ s ∈ texts, nesting s ≤ 126 := by
  have hwritten : List.Forall₂ Written texts docs :=
    h.imp fun _ _ hs => written_of_parse? (parse_eq_ok_iff.1 hs)
  rw [parse_eq_ok_iff, (written_array hwritten).parse?_eq, ← nesting_arrayText_le_iff hwritten,
    nestingLimit, Option.ite_none_right_eq_some]
  exact and_iff_left rfl

/-- Entries whose texts are read make up an object that is read as what it maps to, unless it nests
too deep. -/
theorem parse_objectText_iff (tag : Option String) {entries : List (String × String)}
    (h : ∀ e ∈ entries, ∃ j, parse e.2 = .ok j) :
    (∃ members, parse (objectText (tagEntries tag ++ entries)) = .ok (.object members) ∧
      Maps tag entries (.object members)) ↔ ∀ e ∈ entries, nesting e.2 ≤ 126 := by
  have hwritten := written_reading tag h
  -- the tag is a string, which does not nest
  have htag : ∀ e ∈ tagEntries tag, nesting e.2 ≤ 126 := by
    intro e he
    obtain ⟨type, -, rfl⟩ := List.mem_map.1 he
    rw [nesting_quote]
    exact Nat.zero_le _
  have hnesting : nesting (objectText (tagEntries tag ++ entries)) ≤ nestingLimit ↔
      ∀ e ∈ entries, nesting e.2 ≤ 126 := by
    rw [nestingLimit, nesting_objectText_le_iff hwritten, List.forall_mem_append]
    exact and_iff_right htag
  rw [← hnesting]
  constructor
  · rintro ⟨members, hparse, -⟩
    exact nesting_le_of_parse? (parse_eq_ok_iff.1 hparse)
  · intro hlimit
    exact ⟨_, parse_eq_ok_iff.2 ((written_object hwritten).parse? hlimit), maps_reading tag h⟩

/-- An array that is written part by part is read as the array of what the parts are read as, and an
object as the object that has for each key what the last entry is read as: exactly if no part nests
more than 126 containers.  The texts are those that the encoder puts together, and a type tag put
around a text makes an object of two entries. -/
theorem parse_writers :
    (∀ (texts : List String) (docs : List Json),
      List.Forall₂ (fun s j => parse s = .ok j) texts docs →
      (parse (texts.foldl Writer.push .openArray).closeArray = .ok (.array docs) ↔
        ∀ s ∈ texts, nesting s ≤ 126)) ∧
    (∀ (tag : Option String) (entries : List (String × String)),
      (∀ e ∈ entries, ∃ j, parse e.2 = .ok j) →
      ((∃ members, parse (entries.foldl Writer.entry (.openObject tag)).closeObject =
        .ok (.object members) ∧ Maps tag entries (.object members)) ↔
          ∀ e ∈ entries, nesting e.2 ≤ 126)) ∧
    (∀ texts : List String, (texts.foldl Writer.push .openArray).closeArray = arrayText texts) ∧
    (∀ entries : List (String × String),
      (entries.foldl Writer.entry (.openObject none)).closeObject = objectText entries) ∧
    (∀ (type : String) (entries : List (String × String)),
      (entries.foldl Writer.entry (.openObject (some type))).closeObject =
        taggedText type entries) ∧
    ∀ type plain : String,
      wrapText type plain =
        ((Writer.openObject (some type)).entry (valueKey, plain)).closeObject := by
  -- the writers put together the texts of arrays and objects, so the rest is about these
  refine ⟨?_, ?_, Writer.closeArray_foldl, Writer.closeObject_foldl, Writer.closeObject_tagged, ?_⟩
  · intro texts docs h
    rw [Writer.closeArray_foldl]
    exact parse_arrayText_iff h
  · intro tag entries h
    rw [closeObject_eq]
    exact parse_objectText_iff tag h
  · intro type plain
    exact (Writer.closeObject_tagged type [(valueKey, plain)]).symm

/-- Parts with blanks around them, and with brackets and a comma inside a string. -/
def looseParts : List String := [" [1 , \"],[\" ]\n", "null"]

/-- Entries of which the last takes the place of the first, and one takes the place of the tag. -/
def looseEntries : List (String × String) :=
  [("end", "1"), (typeKey, " true"), ("end", "\x7b\"rope\":[] \x7d")]

theorem looseParts_read : ((looseParts.mapM parse).toOption.isSome &&
    looseParts.all fun s => decide (nesting s ≤ 126)) = true := by decide +kernel

theorem looseEntries_read : (looseEntries.all fun e =>
    (parse e.2).toOption.isSome && decide (nesting e.2 ≤ 126)) = true := by decide +kernel

/-- Parts with blanks around them, and an entry in the place of the tag. -/
theorem parse_writers_loose : ∃ docs members j k,
    parse (looseParts.foldl Writer.push .openArray).closeArray = .ok (.array docs) ∧
    parse (looseEntries.foldl Writer.entry (.openObject (some "Knot"))).closeObject =
      .ok (.object members) ∧
    parse " true" = .ok j ∧ (object members).get? typeKey = some j ∧
    parse "\x7b\"rope\":[] \x7d" = .ok k ∧ (object members).get? "end" = some k := by
  obtain ⟨hsome, hparts⟩ := (Bool.and_eq_true _ _).mp looseParts_read
  obtain ⟨docs, hdocs⟩ := Option.isSome_iff_exists.1 hsome
  rw [toOption_eq_some_iff, mapM_eq_ok_iff] at hdocs
  have hentries : ∀ e ∈ looseEntries, (∃ j, parse e.2 = .ok j) ∧ nesting e.2 ≤ 126 := by
    intro e he
    obtain ⟨hread, hlimit⟩ := (Bool.and_eq_true _ _).mp (List.all_eq_true.1 looseEntries_read e he)
    obtain ⟨j, hj⟩ := Option.isSome_iff_exists.1 hread
    exact ⟨⟨j, toOption_eq_some_iff.1 hj⟩, of_decide_eq_true hlimit⟩
  have harray := (parse_writers.1 looseParts docs hdocs).2 fun s hs =>
    of_decide_eq_true (List.all_eq_true.1 hparts s hs)
  obtain ⟨members, hmembers, hmaps⟩ := (parse_writers.2.1 (some "Knot") looseEntries
    fun e he => (hentries e he).1).2 fun e he => (hentries e he).2
  obtain ⟨j, hj, htag⟩ := hmaps.last [("end", "1")] typeKey " true" _ rfl (by decide)
  obtain ⟨k, hk, hend⟩ := hmaps.last [("end", "1"), (typeKey, " true")] "end" _ [] rfl (by decide)
  exact ⟨docs, members, j, k, harray, hmembers, hj, htag, hk, hend⟩

end Wire
end TaggedWire
