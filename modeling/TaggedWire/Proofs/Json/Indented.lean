import TaggedWire.Proofs.Json.Written
import TaggedWire.Proofs.Results

/-!
# Indented texts

The line breaks and the indentation between the parts of a document are blanks, which no token
keeps.  So the indented text of a document is scanned as the texts of its parts, with the same
brackets, commas and colons between them as in a compact text.

* `written_indented`: an indented text denotes its document, and so it does with a line break behind
  it.
* `parseRecord?_indented`: a record with no other keys than those asked for is read as it is.
-/

namespace TaggedWire.Json

/-! ### Blanks between tokens

Outside of tokens a blank changes nothing, and behind a number it ends the number. -/

/-- The characters that JSON takes for white space. -/
def Blanks (cs : List Char) : Prop := ∀ c ∈ cs, isSpace c = true

theorem toList_newline (depth : Nat) :
    (newline depth).toList = '\n' :: List.replicate (2 * depth) ' ' := by
  simp [newline]

theorem blanks_newline (depth : Nat) : Blanks (newline depth).toList := by
  intro c hc
  rw [toList_newline] at hc
  rcases List.mem_cons.1 hc with rfl | hc
  · rfl
  · exact List.eq_of_mem_replicate hc ▸ rfl

theorem isSpace_cases {c : Char} (h : isSpace c = true) :
    c = ' ' ∨ c = '\t' ∨ c = '\n' ∨ c = '\r' := by
  simpa [isSpace, or_assoc] using h

theorem scan_blanks {cs : List Char} (h : Blanks cs) (below : List Token) :
    scan ⟨.outside, below⟩ cs = some ⟨.outside, below⟩ := by
  induction cs with
  | nil => rfl
  | cons c cs ih =>
    obtain ⟨hc, hcs⟩ := List.forall_mem_cons.1 h
    rw [scan_cons]
    rcases isSpace_cases hc with rfl | rfl | rfl | rfl <;> exact ih hcs

/-- A blank ends an open number and is no token itself. -/
theorem step_blank {s s' : Scan} {c : Char} (hs : s.closed? = some s') (hc : isSpace c = true) :
    s.step c = some s' := by
  obtain ⟨mode, tokens⟩ := s
  cases mode with
  | outside =>
    cases hs
    rcases isSpace_cases hc with rfl | rfl | rfl | rfl <;> rfl
  | word _ _ | string _ _ => cases hs
  | number part n =>
    cases h : part.complete with
    | false => simp [Scan.closed?, h] at hs
    | true =>
      simp only [Scan.closed?, h, if_true, Option.some.injEq] at hs
      subst hs
      have hnext : part.next? n c = none := by
        rcases isSpace_cases hc with rfl | rfl | rfl | rfl <;> cases part <;> rfl
      simp only [Scan.step, hnext, h, if_true]
      rcases isSpace_cases hc with rfl | rfl | rfl | rfl <;> rfl

/-- Blanks behind a complete text change nothing. -/
theorem scan_closed_blanks {cs : List Char} {ts : List Token} (h : tokens? cs = some ts)
    {c : Char} {blanks : List Char} (hblanks : Blanks (c :: blanks)) (below : List Token) :
    scan ⟨.outside, below⟩ (cs ++ c :: blanks) = some ⟨.outside, ts.reverse ++ below⟩ := by
  obtain ⟨hc, hrest⟩ := List.forall_mem_cons.1 hblanks
  obtain ⟨s, hs, hclosed⟩ := scan_of_tokens? h below
  rw [scan_append, hs, Option.bind_some, scan_cons, step_blank hclosed hc, Option.bind_some]
  exact scan_blanks hrest _

theorem Scans.append_newline {text : String} {ts : List Token} (h : Scans text ts) :
    Scans (text ++ "\n") ts := by
  show tokens? _ = _
  rw [String.toList_append, tokens?]
  rw [show (text.toList ++ "\n".toList) = text.toList ++ '\n' :: [] from rfl]
  show (scan ⟨.outside, []⟩ _).bind _ = _
  rw [scan_closed_blanks h (fun c hc => List.mem_singleton.1 hc ▸ rfl)]
  simp [Scan.finish]

/-! ### Lines between brackets

An indented array differs from a compact one in the blanks behind brackets and commas, and so it has
the same tokens. -/

/-- An opening bracket, with its token. -/
inductive Opens : Char → Token → Prop
  | openArray : Opens '[' .openArray
  | openObject : Opens '\x7b' .openObject

theorem Opens.scan {c : Char} {t : Token} (h : Opens c t) (cs : List Char) :
    scan {} (c :: cs) = Json.scan ⟨.outside, [t]⟩ cs := by
  cases h <;> rfl

/-- Texts on lines of their own, up to the line break behind the last. -/
theorem scan_lines {s : String} {ts : List Token} {texts : List String} {tss : List (List Token)}
    (hs : Scans s ts) (h : List.Forall₂ Scans texts tss) (inner outer : Nat)
    (below : List Token) :
    scan ⟨.outside, below⟩
        ((joined ("," ++ newline inner) (s :: texts)).toList ++ (newline outer).toList) =
      some ⟨.outside, (separated (ts :: tss)).reverse ++ below⟩ := by
  -- by induction on the lines that follow; behind each comma a line is broken
  induction h generalizing s ts below with
  | nil =>
    rw [toList_newline]
    exact scan_closed_blanks hs (toList_newline outer ▸ blanks_newline outer) below
  | @cons s' ts' texts tss hs' _ ih =>
    have htext : (joined ("," ++ newline inner) (s :: s' :: texts)).toList ++
        (newline outer).toList = s.toList ++ ',' :: ((newline inner).toList ++
          ((joined ("," ++ newline inner) (s' :: texts)).toList ++ (newline outer).toList)) := by
      simp [joined]
    rw [htext, scan_closed hs .comma, scan_append, scan_blanks (blanks_newline inner),
      Option.bind_some, ih hs']
    simp [separated]

theorem scans_block {texts : List String} {tss : List (List Token)}
    (h : List.Forall₂ Scans texts tss) (depth : Nat) {opening closing : String} {o c : Char}
    {t u : Token} (hopening : opening.toList = [o]) (hclosing : closing.toList = [c])
    (hopens : Opens o t) (hcloses : Closes c u) :
    Scans (block depth opening closing texts) (t :: separated tss ++ [u]) := by
  have hclose (below : List Token) : scan ⟨.outside, below⟩ [c] = some ⟨.outside, u :: below⟩ := by
    rw [scan_cons]
    show (Scan.stepOutside ⟨.outside, below⟩ c).bind _ = _
    rw [hcloses.stepOutside]
    rfl
  show (scan {} _).bind Scan.finish = _
  cases h with
  | nil =>
    rw [show block depth opening closing [] = opening ++ closing from rfl, String.toList_append,
      hopening, hclosing, List.singleton_append, hopens.scan, hclose]
    rfl
  | @cons s ts texts tss hs hrest =>
    -- blanks stand behind the opening character and before the closing one, and say nothing
    have htext : (block depth opening closing (s :: texts)).toList =
        o :: ((newline (depth + 1)).toList ++
          ((joined ("," ++ newline (depth + 1)) (s :: texts)).toList ++ (newline depth).toList ++
            [c])) := by
      simp [block, hopening, hclosing]
    rw [htext, hopens.scan, scan_append, scan_blanks (blanks_newline _), Option.bind_some,
      scan_append, scan_lines hs hrest, Option.bind_some, hclose]
    simp [Scan.finish]

/-- A key before a value on its line. -/
theorem scans_memberLine (key : String) {value : String} {ts : List Token} (h : Scans value ts) :
    Scans (quote key ++ ": " ++ value) (.string (.ofText key) :: .colon :: ts) := by
  have htext : (quote key ++ ": " ++ value).toList =
      (quote key).toList ++ ':' :: ' ' :: value.toList := by
    simp
  have hcolon (below : List Token) : scan ⟨.outside, below⟩ (':' :: ' ' :: value.toList) =
      scan ⟨.outside, .colon :: below⟩ value.toList := rfl
  obtain ⟨s, hs, hclosed⟩ := scan_of_tokens? h [.colon, .string (.ofText key)]
  show tokens? _ = _
  rw [tokens?_eq, htext, scan_quote, hcolon, hs, Option.bind_some, hclosed]
  simp

/-! ### Indented documents

A text denotes what another one does if both have the same tokens. -/

/-- Texts with the same tokens denote the same document. -/
theorem Written.of_scans {s t : String} {ts : List Token} {j : Json} (h : Written s j)
    (hs : Scans s ts) (ht : Scans t ts) : Written t j := by
  obtain ⟨tree, hparse, hdocument⟩ := h
  obtain ⟨us, hus, hreads⟩ := Tree.parse?_eq_some_iff.1 hparse
  cases hs.symm.trans hus
  exact ⟨tree, Tree.parse?_eq_some_iff.2 ⟨ts, ht, hreads⟩, hdocument⟩

theorem Written.exists_scans {s : String} {j : Json} (h : Written s j) : ∃ ts, Scans s ts := by
  obtain ⟨tree, hparse, -⟩ := h
  obtain ⟨ts, hs, -⟩ := Tree.parse?_eq_some_iff.1 hparse
  exact ⟨ts, hs⟩

theorem Written.append_newline {s : String} {j : Json} (h : Written s j) :
    Written (s ++ "\n") j := by
  obtain ⟨ts, hs⟩ := h.exists_scans
  exact h.of_scans hs hs.append_newline

theorem exists_scans {texts : List String} {js : List Json} (h : List.Forall₂ Written texts js) :
    ∃ tss, List.Forall₂ Scans texts tss :=
  exists_forall₂ fun _ hs =>
    have ⟨_, _, hwritten⟩ := exists_of_forall₂ h _ hs
    hwritten.exists_scans

theorem written_block_array {texts : List String} {js : List Json}
    (h : List.Forall₂ Written texts js) (depth : Nat) :
    Written (block depth "[" "]" texts) (.array js) := by
  obtain ⟨tss, hscans⟩ := exists_scans h
  exact (written_array h).of_scans (tokens?_arrayText hscans)
    (scans_block hscans depth rfl rfl .openArray .closeArray)

theorem written_block_object {members : List (String × String)} {js : List (String × Json)}
    (h : List.Forall₂ WrittenMember members js) (depth : Nat) :
    Written (block depth "\x7b" "\x7d" (members.map fun m => quote m.1 ++ ": " ++ m.2))
      (.object js) := by
  have hvalues : List.Forall₂ Written (members.map (·.2)) (js.map (·.2)) := by
    rw [List.forall₂_map_left_iff, List.forall₂_map_right_iff]
    exact h.imp fun _ _ hm => hm.2
  obtain ⟨tss, hscans⟩ := exists_scans hvalues
  -- each line is a member with a blank behind its colon
  have hlines : List.Forall₂ Scans (members.map fun m => quote m.1 ++ ": " ++ m.2)
      ((members.zip tss).map fun e => .string (.ofText e.1.1) :: .colon :: e.2) := by
    clear h hvalues
    induction members generalizing tss with
    | nil => exact .nil
    | cons m members ih =>
      cases hscans with
      | cons hm hrest => exact .cons (scans_memberLine m.1 hm) (ih _ hrest)
  exact (written_object h).of_scans (tokens?_objectText hscans)
    (scans_block hlines depth rfl rfl .openObject .closeObject)

/-- At most `depth` containers nest in the document, and every number in it is an integer of 64
bits. -/
inductive Plain : Nat → Json → Prop
  | null (depth : Nat) : Plain depth .null
  | bool (depth : Nat) (b : Bool) : Plain depth (.bool b)
  | integer (depth : Nat) {n : Int} (low : -2 ^ 63 ≤ n) (high : n < 2 ^ 64) :
    Plain depth (.number (.integer n))
  | string (depth : Nat) (s : String) : Plain depth (.string s)
  | array {depth : Nat} {items : List Json} (hdepth : 0 < depth)
    (h : ∀ j ∈ items, Plain (depth - 1) j) : Plain depth (.array items)
  | object {depth : Nat} {members : List (String × Json)} (hdepth : 0 < depth)
    (h : ∀ m ∈ members, Plain (depth - 1) m.2) : Plain depth (.object members)

@[simp] theorem plain_bool (depth : Nat) (b : Bool) : Plain depth (.bool b) := .bool depth b

@[simp] theorem plain_string (depth : Nat) (s : String) : Plain depth (.string s) := .string depth s

theorem plain_array_iff {depth : Nat} {items : List Json} :
    Plain depth (.array items) ↔ 0 < depth ∧ ∀ j ∈ items, Plain (depth - 1) j :=
  ⟨fun h => by cases h with | array hdepth h => exact ⟨hdepth, h⟩, fun h => .array h.1 h.2⟩

theorem plain_object_iff {depth : Nat} {members : List (String × Json)} :
    Plain depth (.object members) ↔ 0 < depth ∧ ∀ m ∈ members, Plain (depth - 1) m.2 :=
  ⟨fun h => by cases h with | object hdepth h => exact ⟨hdepth, h⟩, fun h => .object h.1 h.2⟩

theorem indentedItems_eq (depth : Nat) (items : List Json) :
    indentedItems depth items = items.map (indentedAt depth) := by
  induction items with
  | nil => rfl
  | cons j js ih => rw [indentedItems, ih, List.map_cons]

theorem indentedMembers_eq (depth : Nat) (members : List (String × Json)) :
    indentedMembers depth members =
      (members.map fun m => (m.1, indentedAt depth m.2)).map fun m => quote m.1 ++ ": " ++ m.2 := by
  induction members with
  | nil => rfl
  | cons m ms ih => rw [indentedMembers, ih, List.map_cons, List.map_cons]

theorem written_indentedAt {limit : Nat} {j : Json} (h : j.Plain limit) (depth : Nat) :
    Written (j.indentedAt depth) j := by
  induction h generalizing depth with
  | null => exact written_null
  | bool _ b => exact written_bool b
  | integer _ low high => exact written_int low high
  | string _ s => exact written_quote s
  | array _ _ ih =>
    rw [indentedAt, indentedItems_eq]
    exact written_block_array (forall₂_map_self fun j hj => ih j hj _) depth
  | object _ _ ih =>
    rw [indentedAt, indentedMembers_eq]
    apply written_block_object
    exact forall₂_map_self fun m hm => ⟨rfl, ih m hm (depth + 1)⟩

/-- The layout with indents denotes the document that it lays out. -/
theorem written_indented {limit : Nat} {j : Json} (h : j.Plain limit) : Written j.indented j :=
  written_indentedAt h 0

/-! ### Nesting

For documents of bounded depth the limit on nesting is met, whatever text they were read from. -/

namespace Tree

theorem documents?_of_forall {d d' : Nat} {ts : List Tree} {js : List Json}
    (h : documents? d ts = some js)
    (hitems : ∀ j ∈ js, ∀ t, document? d t = some j → document? d' t = some j) :
    documents? d' ts = some js := by
  induction ts generalizing js with
  | nil => exact h
  | cons t ts ih =>
    obtain ⟨j, hj, h⟩ := Option.bind_eq_some_iff.1 h
    obtain ⟨js', hjs', h⟩ := Option.bind_eq_some_iff.1 h
    cases h
    obtain ⟨hhead, htail⟩ := List.forall_mem_cons.1 hitems
    simp only [documents?, hhead t hj, ih hjs' htail, Option.bind_eq_bind, Option.bind_some]

theorem members?_of_forall {d d' : Nat} {ms : List (Literal × Tree)} {js : List (String × Json)}
    (h : members? d ms = some js)
    (hvalues : ∀ j ∈ js, ∀ t, document? d t = some j.2 → document? d' t = some j.2) :
    members? d' ms = some js := by
  induction ms generalizing js with
  | nil => exact h
  | cons m ms ih =>
    obtain ⟨k, t⟩ := m
    obtain ⟨key, hkey, h⟩ := Option.bind_eq_some_iff.1 h
    obtain ⟨j, hj, h⟩ := Option.bind_eq_some_iff.1 h
    obtain ⟨js', hjs', h⟩ := Option.bind_eq_some_iff.1 h
    cases h
    obtain ⟨hhead, htail⟩ := List.forall_mem_cons.1 hvalues
    simp only [members?, hkey, hhead t hj, ih hjs' htail, Option.bind_eq_bind, Option.bind_some]

/-- A tree with its document, by shape. -/
inductive Denotes (depth : Nat) : Tree → Json → Prop
  | null : Denotes depth .null .null
  | bool (b : Bool) : Denotes depth (.bool b) (.bool b)
  | number {n : Numeral} {x : Number} (h : n.number? = some x) :
    Denotes depth (.number n) (.number x)
  | string {l : Literal} {s : String} (h : l.text? = some s) : Denotes depth (.string l) (.string s)
  | array {ts : List Tree} {js : List Json} (hdepth : 0 < depth)
    (h : documents? (depth - 1) ts = some js) : Denotes depth (.array ts) (.array js)
  | object {ms : List (Literal × Tree)} {js : List (String × Json)} (hdepth : 0 < depth)
    (h : members? (depth - 1) ms = some js) : Denotes depth (.object ms) (.object js)

theorem document?_eq_some_iff {depth : Nat} {t : Tree} {j : Json} :
    t.document? depth = some j ↔ Denotes depth t j := by
  constructor
  · intro h
    cases t with
    | null =>
      cases h
      exact .null
    | bool b =>
      cases h
      exact .bool b
    | number n =>
      obtain ⟨x, hx, rfl⟩ := Option.map_eq_some_iff.1 h
      exact .number hx
    | string l =>
      obtain ⟨s, hs, rfl⟩ := Option.map_eq_some_iff.1 h
      exact .string hs
    -- a container takes one from the depth, which must not be used up
    | array ts =>
      obtain ⟨hdepth, h⟩ := Option.ite_none_left_eq_some.1 h
      obtain ⟨js, hjs, rfl⟩ := Option.map_eq_some_iff.1 h
      exact .array (Nat.pos_of_ne_zero hdepth) hjs
    | object ms =>
      obtain ⟨hdepth, h⟩ := Option.ite_none_left_eq_some.1 h
      obtain ⟨js, hjs, rfl⟩ := Option.map_eq_some_iff.1 h
      exact .object (Nat.pos_of_ne_zero hdepth) hjs
  · intro h
    cases h with
    | null | bool _ => rfl
    | number h | string h => simp only [document?, h, Option.map_some]
    | array hdepth h | object hdepth h =>
      simp only [document?, if_neg (Nat.pos_iff_ne_zero.1 hdepth), h, Option.map_some]

/-- A tree nests as deep as its document does. -/
theorem document?_of_plain {d d' : Nat} {t : Tree} {j : Json} (h : t.document? d = some j)
    (hplain : j.Plain d') : t.document? d' = some j := by
  rw [document?_eq_some_iff] at h ⊢
  -- by induction on the plainness of the document, which bounds the depth at every part
  induction hplain generalizing t d with
  | null =>
    cases h
    exact .null
  | bool _ b =>
    cases h
    exact .bool b
  | integer =>
    cases h with
    | number h => exact .number h
  | string =>
    cases h with
    | string h => exact .string h
  | array hdepth _ ih =>
    cases h with
    | array _ h =>
      refine .array hdepth (documents?_of_forall h fun j hj t ht => ?_)
      exact document?_eq_some_iff.2 (ih j hj (document?_eq_some_iff.1 ht))
  | object hdepth _ ih =>
    cases h with
    | object _ h =>
      refine .object hdepth (members?_of_forall h fun m hm t ht => ?_)
      exact document?_eq_some_iff.2 (ih m hm (document?_eq_some_iff.1 ht))

end Tree

/-! ### Records

Reading a record leaves out the members with other keys; here there are none. -/

theorem Tree.text?_of_members? {d : Nat} {ms : List (Literal × Tree)} {js : List (String × Json)}
    (h : members? d ms = some js) : ∀ m ∈ ms, ∃ j ∈ js, m.1.text? = some j.1 := by
  induction ms generalizing js with
  | nil => simp
  | cons m ms ih =>
    obtain ⟨k, t⟩ := m
    obtain ⟨key, hkey, h⟩ := Option.bind_eq_some_iff.1 h
    obtain ⟨j, -, h⟩ := Option.bind_eq_some_iff.1 h
    obtain ⟨js', hjs', h⟩ := Option.bind_eq_some_iff.1 h
    cases h
    intro m hm
    rcases List.mem_cons.1 hm with rfl | hm
    · exact ⟨_, List.mem_cons_self, hkey⟩
    · obtain ⟨j', hj', htext⟩ := ih hjs' m hm
      exact ⟨j', List.mem_cons_of_mem _ hj', htext⟩

/-- Where no other keys stand than those asked for, nothing is cut out. -/
theorem Tree.restrict_eq_self {keys : List String} {d : Nat} {t : Tree}
    {members : List (String × Json)} (h : t.document? d = some (.object members))
    (hkeys : ∀ m ∈ members, m.1 ∈ keys) : t.restrict keys = t := by
  cases document?_eq_some_iff.1 h with
  | object _ hmembers =>
    rw [restrict, List.filter_eq_self.2 fun m hm => ?_]
    obtain ⟨j, hj, htext⟩ := text?_of_members? hmembers m hm
    simp [htext, hkeys j hj]

/-- A record with no other keys than those asked for is read from its indented text as it is. -/
theorem parseRecord?_indented {keys : List String} {members : List (String × Json)}
    (hplain : Plain nestingLimit (.object members)) (hkeys : ∀ m ∈ members, m.1 ∈ keys) :
    parseRecord? keys ((object members).indented ++ "\n") = some (.object members) := by
  obtain ⟨t, hparse, hdocument⟩ := (written_indented hplain).append_newline
  rw [parseRecord?, hparse, Option.bind_some, Tree.restrict_eq_self hdocument hkeys]
  exact Tree.document?_of_plain hdocument hplain

end TaggedWire.Json
