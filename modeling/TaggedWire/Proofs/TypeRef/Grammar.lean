import Mathlib.Data.List.TakeWhile
import TaggedWire.Proofs.TypeRef.Spelled

/-!
# The grammar of type spellings

The reader of spellings takes brackets off the end and looks the rest up in its tables.  Here its
language is written down from the front, as a grammar: a base, and pairs of brackets with blanks
before them.  The reader and the grammar agree on every text.

* `isTypeName_iff`: the names of exposed types, segment by segment.
* `parse_eq_ok_iff`: what a text spells is what the grammar says its trimmed form spells.
* `parse_canonical`: spellings have canonical forms, and which texts are spellings at all.
-/

namespace TaggedWire

/-! ### Names

The reader of names goes through the characters with a flag that says whether a segment has to
begin.  The grammar has segments, and points between them. -/

/-- A letter, underscore or dollar sign, followed by any of these and digits. -/
def IsSegment (cs : List Char) : Prop :=
  ∃ c part, cs = c :: part ∧ isNameStart c = true ∧ ∀ d ∈ part, isNamePart d = true

/-- Segments with points between them. -/
inductive IsDotted : List Char → Prop where
  | segment {cs : List Char} (h : IsSegment cs) : IsDotted cs
  | point {cs rest : List Char} (h : IsSegment cs) (hrest : IsDotted rest) :
    IsDotted (cs ++ '.' :: rest)

theorem isNameFrom_segment {cs : List Char} (h : IsSegment cs) (rest : List Char) :
    isNameFrom true (cs ++ rest) = isNameFrom false rest := by
  obtain ⟨c, part, rfl, hstart, hpart⟩ := h
  rw [List.cons_append, isNameFrom, if_pos rfl, hstart, Bool.true_and]
  -- behind its first character the segment goes on, as no part of it is a point
  induction part with
  | nil => rfl
  | cons d ds ih =>
    obtain ⟨hd, hds⟩ := List.forall_mem_cons.1 hpart
    have hpoint : (d == '.') = false := by
      rw [beq_eq_false_iff_ne]
      rintro rfl
      exact absurd hd (by decide)
    rw [List.cons_append, isNameFrom, if_neg (by decide), hpoint, if_neg (by decide), hd,
      Bool.true_and]
    exact ih hds

theorem isNameFrom_of_isDotted {cs : List Char} (h : IsDotted cs) : isNameFrom true cs = true := by
  induction h with
  | segment h => simpa [isNameFrom] using isNameFrom_segment h []
  | point h _ ih =>
    rw [isNameFrom_segment h, isNameFrom]
    exact ih

/-- Where a segment is due one has to follow, and where a segment is open it may go on. -/
theorem isDotted_of_isNameFrom (cs : List Char) :
    (isNameFrom true cs = true → IsDotted cs) ∧
      (isNameFrom false cs = true → ∀ done, IsSegment done → IsDotted (done ++ cs)) := by
  induction cs with
  | nil =>
    refine ⟨nofun, fun _ done hdone => ?_⟩
    rw [List.append_nil]
    exact .segment hdone
  | cons c cs ih =>
    constructor
    · intro h
      obtain ⟨hstart, hcs⟩ := Bool.and_eq_true_iff.1 h
      exact ih.2 hcs [c] ⟨c, [], rfl, hstart, nofun⟩
    · intro h done hdone
      rw [isNameFrom, if_neg (by decide)] at h
      split at h
      -- a point ends the open segment and asks for another one; any other character joins it
      · next hpoint =>
        rw [eq_of_beq hpoint]
        exact .point hdone (ih.1 h)
      · obtain ⟨hc, hcs⟩ := Bool.and_eq_true_iff.1 h
        obtain ⟨first, part, rfl, hstart, hpart⟩ := hdone
        rw [List.append_cons]
        refine ih.2 hcs _ ⟨first, part ++ [c], rfl, hstart, ?_⟩
        exact List.forall_mem_append.2 ⟨hpart, List.forall_mem_singleton.2 hc⟩

/-- The scan accepts the names of the grammar. -/
theorem isTypeName_iff {s : String} : isTypeName s = true ↔ IsDotted s.toList :=
  ⟨(isDotted_of_isNameFrom s.toList).1, isNameFrom_of_isDotted⟩

/-! ### Tables

The reader asks one comparison after the other.  The grammar lists what is compared, and both
directions go through the finite lists. -/

/-- The spellings of a primitive type, its name first. -/
def Primitive.spellings : Primitive → List String
  | .bool => ["bool", "boolean"]
  | .i8 => ["i8", "byte", "int8"]
  | .i16 => ["i16", "short", "int16"]
  | .i32 => ["i32", "int", "int32"]
  | .i64 => ["i64", "long", "int64"]
  | .f32 => ["f32", "float", "float32"]
  | .f64 => ["f64", "double", "float64"]
  | .char => ["char"]

theorem Primitive.ofSpelling?_eq_some_iff {s : String} {p : Primitive} :
    ofSpelling? s = some p ↔ s ∈ p.spellings := by
  constructor
  · intro h
    unfold ofSpelling? at h
    repeat' split at h
    all_goals cases h
    all_goals simpa [spellings] using ‹_›
  · intro h
    have hall : ∀ p ∈ Primitive.all, ∀ s ∈ p.spellings, ofSpelling? s = some p := by decide
    exact hall p (mem_all p) s h

namespace TypeRef

/-- The spellings of the built-in types. -/
def builtinSpellings : List (String × TypeRef) :=
  [("string", .string), ("str", .string), ("list", .list), ("set", .set), ("map", .map),
    ("any", .any), ("object", .any)]

/-- The spellings that a named type may not have. -/
def reserved : List String :=
  Primitive.all.flatMap Primitive.spellings ++ builtinSpellings.map (·.1)

theorem mem_reserved {s : String} :
    s ∈ reserved ↔ (∃ p : Primitive, s ∈ p.spellings) ∨ s ∈ builtinSpellings.map (·.1) := by
  simp [reserved, Primitive.mem_all]

theorem ofPlain?_eq_some_iff {s : String} {t : TypeRef} :
    ofPlain? s = some t ↔ (s, t) ∈ builtinSpellings ∨
      t = .named s ∧ IsDotted s.toList ∧ s ∉ builtinSpellings.map (·.1) := by
  rw [← isTypeName_iff]
  constructor
  · intro h
    unfold ofPlain? at h
    repeat' split at h
    all_goals cases h
    all_goals simp_all [builtinSpellings]
  · rintro (h | ⟨rfl, hname, hfree⟩)
    · have hall : ∀ e ∈ builtinSpellings, ofPlain? e.1 = some e.2 := by decide
      exact hall _ h
    · simp only [builtinSpellings, List.map_cons, List.map_nil, List.mem_cons, List.not_mem_nil,
        or_false, not_or] at hfree
      simp [ofPlain?, hname, hfree]

/-! ### Bases

What is left without the brackets: a primitive or one of its synonyms, the same with a question
mark, a built-in type, or a name that is none of these. -/

/-- What a text without brackets spells. -/
inductive SpellsBase : String → TypeRef → Prop where
  | primitive {s : String} {p : Primitive} (h : s ∈ p.spellings) : SpellsBase s (.primitive p)
  | boxed {s : String} {p : Primitive} (h : s ∈ p.spellings) : SpellsBase (s ++ "?") (.boxed p)
  | builtin {s : String} {t : TypeRef} (h : (s, t) ∈ builtinSpellings) : SpellsBase s t
  | named {s : String} (h : IsDotted s.toList) (hfree : s ∉ reserved) : SpellsBase s (.named s)

theorem boxedBase?_eq_some_iff {s inner : String} :
    boxedBase? s = some inner ↔ s = inner ++ "?" := by
  unfold boxedBase?
  constructor
  · intro h
    split at h
    · next rest hs =>
      cases h
      rw [← String.toList_inj, ← List.reverse_inj, hs]
      simp
    · cases h
  · rintro rfl
    simp

theorem boxedBase?_append (inner : String) : boxedBase? (inner ++ "?") = some inner :=
  boxedBase?_eq_some_iff.2 rfl

/-- Only the spellings of boxed primitives end in a question mark. -/
theorem boxedBase?_of_mem_reserved {s : String} (h : s ∈ reserved) : boxedBase? s = none := by
  have hall : ∀ r ∈ reserved, boxedBase? r = none := by decide
  exact hall s h

theorem boxedBase?_of_isDotted {s : String} (h : IsDotted s.toList) : boxedBase? s = none := by
  cases hboxed : boxedBase? s with
  | none => rfl
  | some inner =>
    -- a name has no question mark anywhere
    have hmark : '?' ∈ s.toList := by
      rw [boxedBase?_eq_some_iff.1 hboxed]
      simp
    obtain ⟨-, -, hne⟩ := ne_of_isNamePart (isNamePart_of_isNameFrom (isTypeName_iff.2 h) _ hmark)
    exact absurd rfl hne

theorem parseBase_eq_ok_iff {s : String} {t : TypeRef} :
    parseBase s = .ok t ↔ SpellsBase s t := by
  constructor
  · intro h
    unfold parseBase at h
    split at h
    -- the reader's questions in their order: a question mark, a primitive, the other types
    · next inner hboxed =>
      rw [boxedBase?_eq_some_iff.1 hboxed]
      split at h <;> cases h
      exact .boxed (Primitive.ofSpelling?_eq_some_iff.1 ‹_›)
    · split at h
      · cases h
        exact .primitive (Primitive.ofSpelling?_eq_some_iff.1 ‹_›)
      · next hprimitive =>
        split at h
        · next hplain =>
          cases h
          rcases ofPlain?_eq_some_iff.1 hplain with hbuiltin | ⟨rfl, hdotted, hbuiltin⟩
          · exact .builtin hbuiltin
          · refine .named hdotted fun hmem => ?_
            rcases mem_reserved.1 hmem with ⟨p, hp⟩ | hmem
            · rw [Primitive.ofSpelling?_eq_some_iff.2 hp] at hprimitive
              cases hprimitive
            · exact hbuiltin hmem
        · cases h
  · intro h
    cases h with
    | primitive h =>
      have hreserved := mem_reserved.2 (.inl ⟨_, h⟩)
      rw [parseBase, boxedBase?_of_mem_reserved hreserved]
      simp only [Primitive.ofSpelling?_eq_some_iff.2 h]
    | boxed h =>
      rw [parseBase, boxedBase?_append]
      simp only [Primitive.ofSpelling?_eq_some_iff.2 h]
    | builtin h =>
      have hall : ∀ e ∈ builtinSpellings, parseBase e.1 = .ok e.2 := by decide
      exact hall _ h
    -- a name that is not reserved gets past every question before the last
    | named h hfree =>
      have hprimitive : Primitive.ofSpelling? s = none := by
        by_contra hsome
        obtain ⟨p, hp⟩ := Option.ne_none_iff_exists'.1 hsome
        exact hfree (mem_reserved.2 (.inl ⟨p, Primitive.ofSpelling?_eq_some_iff.1 hp⟩))
      have hplain : ofPlain? s = some (.named s) :=
        ofPlain?_eq_some_iff.2 (.inr ⟨rfl, h, fun hmem => hfree (mem_reserved.2 (.inr hmem))⟩)
      rw [parseBase, boxedBase?_of_isDotted h]
      simp only [hprimitive, hplain]

/-! ### Brackets

The reader goes from the end of the text to the front and counts pairs.  A run of brackets is built
from the front, one pair behind the other, and the two are tied together by the recursion of the
reader. -/

/-- Pairs of brackets, each with any blanks before it. -/
inductive BracketRun : Nat → List Char → Prop where
  | none : BracketRun 0 []
  | pair {n : Nat} {run blanks : List Char} (h : BracketRun n run)
    (hblanks : ∀ c ∈ blanks, Text.isBlank c = true) :
    BracketRun (n + 1) (run ++ blanks ++ ['[', ']'])

/-- Where no pair of brackets stands, blanks are passed over. -/
theorem splitBrackets_cons {c : Char} {rest : List Char}
    (h : ∀ inner, c = ']' → rest = '[' :: inner → False) :
    splitBrackets (c :: rest) = if Text.isBlank c then splitBrackets rest else (0, c :: rest) := by
  conv_lhs => unfold splitBrackets
  split
  · next heq =>
    obtain ⟨rfl, rfl⟩ := List.cons.inj heq
    exact (h _ rfl rfl).elim
  · next heq =>
    obtain ⟨rfl, rfl⟩ := List.cons.inj heq
    rfl
  · next heq => cases heq

theorem splitBrackets_append {blanks : List Char} (h : ∀ c ∈ blanks, Text.isBlank c = true)
    (cs : List Char) : splitBrackets (blanks ++ cs) = splitBrackets cs := by
  induction blanks with
  | nil => rfl
  | cons c blanks ih =>
    obtain ⟨hc, hblanks⟩ := List.forall_mem_cons.1 h
    rw [List.cons_append, splitBrackets_cons, if_pos hc, ih hblanks]
    rintro _ rfl -
    exact absurd hc (by decide)

/-- What is taken off the end is a run of brackets and the blanks behind it. -/
theorem exists_bracketRun (rs : List Char) : ∃ run blanks,
    rs.reverse = (splitBrackets rs).2.reverse ++ run ++ blanks ∧
      BracketRun (splitBrackets rs).1 run ∧ ∀ c ∈ blanks, Text.isBlank c = true := by
  -- the cases of the reader: a pair of brackets, a blank, another character, the front of the text
  induction rs using splitBrackets.induct with
  | case1 rest ih =>
    obtain ⟨run, blanks, hrest, hrun, hblanks⟩ := ih
    refine ⟨run ++ blanks ++ ['[', ']'], [], ?_, .pair hrun hblanks, nofun⟩
    simp [splitBrackets_pair, hrest]
  | case2 c rest hpair hblank ih =>
    obtain ⟨run, blanks, hrest, hrun, hblanks⟩ := ih
    rw [splitBrackets_cons hpair, if_pos hblank]
    refine ⟨run, blanks ++ [c], by simp [hrest], hrun, ?_⟩
    exact List.forall_mem_append.2 ⟨hblanks, List.forall_mem_singleton.2 hblank⟩
  | case3 c rest hpair hblank =>
    rw [splitBrackets_cons hpair, if_neg hblank]
    exact ⟨[], [], by simp, .none, nofun⟩
  | case4 => exact ⟨[], [], rfl, .none, nofun⟩

theorem splitBrackets_bracketRun {n : Nat} {run : List Char} (h : BracketRun n run) {s : String}
    (hbare : Bare s) : splitBrackets (s.toList ++ run).reverse = (n, s.toList.reverse) := by
  induction h with
  | none => rw [List.append_nil, splitBrackets_of_bare hbare]
  | @pair n run blanks _ hblanks ih =>
    have hreverse : (s.toList ++ (run ++ blanks ++ ['[', ']'])).reverse =
        ']' :: '[' :: (blanks.reverse ++ (s.toList ++ run).reverse) := by simp
    have hpassed : ∀ c ∈ blanks.reverse, Text.isBlank c = true :=
      fun c hc => hblanks c (List.mem_reverse.1 hc)
    rw [hreverse, splitBrackets_pair, splitBrackets_append hpassed, ih]

/-! ### Spellings

A spelling is a base and a run of brackets.  The blanks around it are not part of it: those in front
are trimmed, and those behind are passed over with the brackets. -/

/-- The text is a base and a run of brackets, and spells the base or an array over it. -/
def Spells (s : String) (t : TypeRef) : Prop :=
  ∃ base component n run, SpellsBase base component ∧ BracketRun n run ∧
    s.toList = base.toList ++ run ∧ t = if n = 0 then component else .array component n

theorem underBrackets_eq {component : TypeRef} (h : component.signature? = none) (n : Nat) :
    underBrackets n component = if n = 0 then component else .array component n := by
  unfold underBrackets
  split
  · rfl
  · next hzero =>
    have hmax : max n 1 = n := Nat.max_eq_left (Nat.one_le_iff_ne_zero.2 hzero)
    cases component with
    | array _ _ => cases h
    | _ => simp [arrayOf, ArraySignature.of, ArraySignature.type, hmax]

/-- The blanks at the end are taken off with the brackets. -/
theorem splitBrackets_trim (s : String) :
    splitBrackets (Text.trimStart s.toList).reverse =
      splitBrackets (Text.trim s).toList.reverse := by
  have hreverse : (Text.trim s).toList.reverse =
      (Text.trimStart s.toList).reverse.dropWhile Text.isBlank := by
    simp [Text.trim, Text.trimEnd]
  rw [hreverse]
  conv_lhs => rw [← List.takeWhile_append_dropWhile (p := Text.isBlank)
    (l := (Text.trimStart s.toList).reverse)]
  exact splitBrackets_append (fun c hc => List.mem_takeWhile_imp hc) _

theorem isBlank_getLast?_trim {s : String} {c : Char} (h : (Text.trim s).toList.getLast? = some c) :
    Text.isBlank c = false := by
  have hhead : (Text.trim s).toList.getLast? =
      ((Text.trimStart s.toList).reverse.dropWhile Text.isBlank).head? := by
    simp [Text.trim, Text.trimEnd]
  rw [hhead, ← List.find?_not_eq_head?_dropWhile] at h
  simpa using List.find?_some h

theorem bare_of_spellsBase {s : String} {t : TypeRef} (h : SpellsBase s t) : Bare s := by
  have hreserved : ∀ r ∈ reserved, Bare r ∧ Bare (r ++ "?") := by decide
  cases h with
  | primitive h => exact (hreserved s (mem_reserved.2 (.inl ⟨_, h⟩))).1
  | boxed h => exact (hreserved _ (mem_reserved.2 (.inl ⟨_, h⟩))).2
  | builtin h => exact (hreserved s (mem_reserved.2 (.inr (List.mem_map_of_mem h)))).1
  | named h _ => exact bare_of_isTypeName (isTypeName_iff.2 h)

/-- The reader and the grammar agree. -/
theorem parse_eq_ok_iff {s : String} {t : TypeRef} :
    parse s = .ok t ↔ Spells (Text.trim s) t := by
  unfold parse
  rw [splitBrackets_trim]
  constructor
  · intro h
    obtain ⟨component, hbase, rfl⟩ := map_eq_ok_iff.1 h
    obtain ⟨run, blanks, htext, hrun, hblanks⟩ := exists_bracketRun (Text.trim s).toList.reverse
    rw [List.reverse_reverse] at htext
    refine ⟨_, component, _, run, parseBase_eq_ok_iff.1 hbase, hrun, ?_,
      underBrackets_eq (signature?_of_parseBase hbase) _⟩
    -- a trimmed text has no blanks behind its brackets
    rcases List.eq_nil_or_concat blanks with rfl | ⟨front, c, rfl⟩
    · rw [List.append_nil] at htext
      rw [String.toList_ofList]
      exact htext
    · have hlast : (Text.trim s).toList.getLast? = some c := by
        rw [htext, List.concat_eq_append, ← List.append_assoc, List.getLast?_concat]
      have hblank := hblanks c (List.concat_eq_append ▸ List.mem_concat_self)
      rw [isBlank_getLast?_trim hlast] at hblank
      cases hblank
  · rintro ⟨base, component, n, run, hbase, hrun, htext, rfl⟩
    have hread := parseBase_eq_ok_iff.2 hbase
    rw [htext, splitBrackets_bracketRun hrun (bare_of_spellsBase hbase)]
    refine map_eq_ok_iff.2 ⟨component, ?_, underBrackets_eq (signature?_of_parseBase hread) n⟩
    rw [List.reverse_reverse, String.ofList_toList]
    exact hread

/-- A text without brackets that spells a type. -/
def IsBase (s : String) : Prop :=
  (∃ p : Primitive, s ∈ p.spellings) ∨ (∃ p : Primitive, ∃ r ∈ p.spellings, s = r ++ "?") ∨
    s ∈ builtinSpellings.map (·.1) ∨ IsDotted s.toList

theorem isBase_iff {s : String} : IsBase s ↔ ∃ t, SpellsBase s t := by
  constructor
  · rintro (⟨p, hp⟩ | ⟨p, r, hr, rfl⟩ | hbuiltin | hdotted)
    · exact ⟨_, .primitive hp⟩
    · exact ⟨_, .boxed hr⟩
    · obtain ⟨⟨s, t⟩, hmem, rfl⟩ := List.mem_map.1 hbuiltin
      exact ⟨t, .builtin hmem⟩
    · by_cases hreserved : s ∈ reserved
      · rcases mem_reserved.1 hreserved with ⟨p, hp⟩ | hbuiltin
        · exact ⟨_, .primitive hp⟩
        · obtain ⟨⟨s, t⟩, hmem, rfl⟩ := List.mem_map.1 hbuiltin
          exact ⟨t, .builtin hmem⟩
      · exact ⟨_, .named hdotted hreserved⟩
  · rintro ⟨t, ht⟩
    cases ht with
    | primitive h => exact .inl ⟨_, h⟩
    | boxed h => exact .inr (.inl ⟨_, _, h, rfl⟩)
    | builtin h => exact .inr (.inr (.inl (List.mem_map_of_mem h)))
    | named h _ => exact .inr (.inr (.inr h))

/-- Arrays are flat, and the names of named types are names that spell nothing else. -/
def WellFormed : TypeRef → Prop
  | named name => IsDotted name.toList ∧ name ∉ reserved
  | array component dimensions =>
    1 ≤ dimensions ∧ component.signature? = none ∧ component.WellFormed
  | _ => True

theorem wellFormed_of_spellsBase {s : String} {t : TypeRef} (h : SpellsBase s t) :
    t.signature? = none ∧ t.WellFormed := by
  cases h with
  | primitive _ | boxed _ => exact ⟨rfl, trivial⟩
  | builtin h =>
    have hall : ∀ e ∈ builtinSpellings, e.2 ∈ [string, list, set, map, any] := by decide
    have hmem := hall _ h
    simp only [List.mem_cons, List.not_mem_nil, or_false] at hmem
    rcases hmem with rfl | rfl | rfl | rfl | rfl <;> exact ⟨rfl, trivial⟩
  | named h hfree => exact ⟨rfl, h, hfree⟩

theorem wellFormed_of_spells {s : String} {t : TypeRef} (h : Spells s t) : t.WellFormed := by
  obtain ⟨base, component, n, run, hbase, -, -, rfl⟩ := h
  obtain ⟨hplain, hcomponent⟩ := wellFormed_of_spellsBase hbase
  split
  · exact hcomponent
  · next hzero => exact ⟨Nat.one_le_iff_ne_zero.2 hzero, hplain, hcomponent⟩

/-- The identifier of what a text spells is its canonical spelling: it is read as the same type,
which is well formed, and no other type that has a spelling has that identifier.  The texts that
are spellings are those of the grammar. -/
theorem parse_canonical (s : String) :
    (∀ t, parse s = .ok t → parse t.id = .ok t ∧ t.WellFormed ∧
      ∀ s' u, parse s' = .ok u → u.id = t.id → u = t) ∧
    ((∃ t, parse s = .ok t) ↔ ∃ base n run, IsBase base ∧ BracketRun n run ∧
      (Text.trim s).toList = base.toList ++ run) := by
  refine ⟨fun t ht => ?_, ?_, ?_⟩
  · have hspelled : t.Spelled := ⟨s, ht⟩
    refine ⟨hspelled.parse_id, wellFormed_of_spells (parse_eq_ok_iff.1 ht), ?_⟩
    intro s' u hu hid
    exact Spelled.id_injective ⟨s', hu⟩ hspelled hid
  · rintro ⟨t, ht⟩
    obtain ⟨base, component, n, run, hbase, hrun, htext, -⟩ := parse_eq_ok_iff.1 ht
    exact ⟨base, n, run, isBase_iff.2 ⟨component, hbase⟩, hrun, htext⟩
  · rintro ⟨base, n, run, hbase, hrun, htext⟩
    obtain ⟨component, hbase⟩ := isBase_iff.1 hbase
    exact ⟨_, parse_eq_ok_iff.2 ⟨base, component, n, run, hbase, hrun, htext, rfl⟩⟩

/-- A synonym with no-break spaces around it and before its brackets. -/
theorem parse_canonical_long :
    parse "\u00a0long?\u00a0[] []\u00a0" = .ok (.array (.boxed .i64) 2) ∧
      parse "i64?[][]" = .ok (.array (.boxed .i64) 2) ∧
      (array (.boxed .i64) 2).WellFormed ∧
      ∀ s u, parse s = .ok u → u.id = "i64?[][]" → u = .array (.boxed .i64) 2 := by
  have hread : parse "\u00a0long?\u00a0[] []\u00a0" = .ok (.array (.boxed .i64) 2) := by decide
  have hid : (array (.boxed .i64) 2).id = "i64?[][]" := by decide
  obtain ⟨hagain, hwellFormed, honly⟩ := (parse_canonical _).1 _ hread
  rw [hid] at hagain honly
  exact ⟨hread, hagain, hwellFormed, honly⟩

end TypeRef
end TaggedWire
