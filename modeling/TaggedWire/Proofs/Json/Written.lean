import Mathlib.Algebra.Group.Int.Defs
import TaggedWire.Proofs.Json.Numerals
import TaggedWire.Proofs.Json.Reading

/-!
# Texts that denote documents

A text is `Written` for a document when it is read as that document, nesting aside: the limit on
nesting is a property of the text alone, and is checked once at the end.  Texts of parts make up
texts of arrays and objects.

* `Written.parse?_eq`: a text is read as its document exactly within the limit.
* `written_array`, `written_object`: composed texts denote composed documents.
* `written_compact`: the compact text of a document without numbers denotes it.
-/

namespace TaggedWire.Json

/-! ### Nesting

A tree has a depth, and it denotes a document if there is room for this depth.  So what it denotes
can be told at the depth of the tree itself, and the limit on nesting is compared with that. -/

namespace Tree

mutual

/-- How many containers nest in a tree. -/
def depth : Tree → Nat
  | .array items => itemsDepth items + 1
  | .object members => membersDepth members + 1
  | .null | .bool _ | .number _ | .string _ => 0

/-- How many containers nest in the items of an array. -/
def itemsDepth : List Tree → Nat
  | [] => 0
  | t :: ts => max t.depth (itemsDepth ts)

/-- How many containers nest in the members of an object. -/
def membersDepth : List (Literal × Tree) → Nat
  | [] => 0
  | (_, t) :: ms => max t.depth (membersDepth ms)

end

mutual

/-- A tree that is a document within some limit is that document within every limit that admits
its depth. -/
theorem document?_of_depth_le {d d' : Nat} : ∀ {t : Tree} {j : Json},
    t.document? d = some j → t.depth ≤ d' → t.document? d' = some j
  | .null, _, h, _ | .bool _, _, h, _ | .number _, _, h, _ | .string _, _, h, _ => by
    simpa only [document?] using h
  | .array items, j, h, hle => by
    simp only [document?] at h ⊢
    split at h
    · cases h
    · obtain ⟨js, hjs, rfl⟩ := Option.map_eq_some_iff.1 h
      rw [depth] at hle
      rw [if_neg (by omega), documents?_of_depth_le hjs (by omega), Option.map_some]
  | .object members, j, h, hle => by
    simp only [document?] at h ⊢
    split at h
    · cases h
    · obtain ⟨js, hjs, rfl⟩ := Option.map_eq_some_iff.1 h
      rw [depth] at hle
      rw [if_neg (by omega), members?_of_depth_le hjs (by omega), Option.map_some]

theorem documents?_of_depth_le {d d' : Nat} : ∀ {ts : List Tree} {js : List Json},
    documents? d ts = some js → itemsDepth ts ≤ d' → documents? d' ts = some js
  | [], _, h, _ => by simpa only [documents?] using h
  | t :: ts, js, h, hle => by
    simp only [documents?, Option.bind_eq_bind, Option.bind_eq_some_iff] at h ⊢
    obtain ⟨j, hj, js, hjs, heq⟩ := h
    rw [itemsDepth] at hle
    exact ⟨j, document?_of_depth_le hj (by omega), js, documents?_of_depth_le hjs (by omega), heq⟩

theorem members?_of_depth_le {d d' : Nat} : ∀ {ms : List (Literal × Tree)}
    {js : List (String × Json)},
    members? d ms = some js → membersDepth ms ≤ d' → members? d' ms = some js
  | [], _, h, _ => by simpa only [members?] using h
  | (k, t) :: ms, js, h, hle => by
    simp only [members?, Option.bind_eq_bind, Option.bind_eq_some_iff] at h ⊢
    obtain ⟨key, hkey, j, hj, js, hjs, heq⟩ := h
    rw [membersDepth] at hle
    exact ⟨key, hkey, j, document?_of_depth_le hj (by omega), js,
      members?_of_depth_le hjs (by omega), heq⟩

end

mutual

/-- A tree is a document only within limits that admit its depth. -/
theorem depth_le_of_document? {d : Nat} : ∀ {t : Tree} {j : Json}, t.document? d = some j →
    t.depth ≤ d
  | .null, _, _ | .bool _, _, _ | .number _, _, _ | .string _, _, _ => Nat.zero_le _
  | .array items, j, h => by
    rw [document?] at h
    split at h
    · cases h
    · obtain ⟨js, hjs, -⟩ := Option.map_eq_some_iff.1 h
      have hle := itemsDepth_le_of_documents? hjs
      rw [depth]
      omega
  | .object members, j, h => by
    rw [document?] at h
    split at h
    · cases h
    · obtain ⟨js, hjs, -⟩ := Option.map_eq_some_iff.1 h
      have hle := membersDepth_le_of_members? hjs
      rw [depth]
      omega

theorem itemsDepth_le_of_documents? {d : Nat} : ∀ {ts : List Tree} {js : List Json},
    documents? d ts = some js → itemsDepth ts ≤ d
  | [], _, _ => Nat.zero_le _
  | t :: ts, js, h => by
    simp only [documents?, Option.bind_eq_bind, Option.bind_eq_some_iff] at h
    obtain ⟨j, hj, js, hjs, -⟩ := h
    exact Nat.max_le.2 ⟨depth_le_of_document? hj, itemsDepth_le_of_documents? hjs⟩

theorem membersDepth_le_of_members? {d : Nat} : ∀ {ms : List (Literal × Tree)}
    {js : List (String × Json)}, members? d ms = some js → membersDepth ms ≤ d
  | [], _, _ => Nat.zero_le _
  | (k, t) :: ms, js, h => by
    simp only [members?, Option.bind_eq_bind, Option.bind_eq_some_iff] at h
    obtain ⟨key, -, j, hj, js, hjs, -⟩ := h
    exact Nat.max_le.2 ⟨depth_le_of_document? hj, membersDepth_le_of_members? hjs⟩

end

theorem documents?_eq_some {ts : List Tree} {js : List Json}
    (h : List.Forall₂ (fun t j => t.document? t.depth = some j) ts js) :
    documents? (itemsDepth ts) ts = some js := by
  induction h with
  | nil => rfl
  | @cons t j ts js hj _ ih =>
    have hhead := document?_of_depth_le hj (Nat.le_max_left _ (itemsDepth ts))
    have htail := documents?_of_depth_le ih (Nat.le_max_right t.depth _)
    simp only [itemsDepth, documents?, hhead, htail, Option.bind_eq_bind, Option.bind_some]

theorem members?_eq_some {ms : List (Literal × Tree)} {js : List (String × Json)}
    (h : List.Forall₂ (fun m j => m.1.text? = some j.1 ∧ m.2.document? m.2.depth = some j.2)
      ms js) : members? (membersDepth ms) ms = some js := by
  induction h with
  | nil => rfl
  | @cons m j ms js hj _ ih =>
    obtain ⟨k, t⟩ := m
    have hhead := document?_of_depth_le hj.2 (Nat.le_max_left _ (membersDepth ms))
    have htail := members?_of_depth_le ih (Nat.le_max_right t.depth _)
    simp only at hhead hj
    simp only [membersDepth, members?, hj.1, hhead, htail, Option.bind_eq_bind, Option.bind_some]

end Tree

/-- How many containers nest in a text. -/
def nesting (s : String) : Nat := ((Tree.parse? s).map Tree.depth).getD 0

/-- The text denotes the document, whatever the limit on nesting. -/
def Written (s : String) (j : Json) : Prop :=
  ∃ t, Tree.parse? s = some t ∧ t.document? t.depth = some j

theorem Written.parse? {s : String} {j : Json} (h : Written s j)
    (hlimit : nesting s ≤ nestingLimit) : Json.parse? s = some j := by
  obtain ⟨t, hparse, ht⟩ := h
  rw [nesting, hparse] at hlimit
  rw [Json.parse?, hparse, Option.bind_some]
  exact Tree.document?_of_depth_le ht hlimit

/-- What is read of a text stays within the limit. -/
theorem nesting_le_of_parse? {s : String} {j : Json} (h : Json.parse? s = some j) :
    nesting s ≤ nestingLimit := by
  obtain ⟨t, hparse, ht⟩ := Option.bind_eq_some_iff.1 h
  rw [nesting, hparse]
  exact Tree.depth_le_of_document? ht

/-- A text that denotes a document is read as that document, or is refused for its nesting. -/
theorem Written.parse?_eq {s : String} {j : Json} (h : Written s j) :
    Json.parse? s = if nesting s ≤ nestingLimit then some j else none := by
  split
  · next hlimit => exact h.parse? hlimit
  · next hlimit =>
    rw [Option.eq_none_iff_forall_ne_some]
    intro k hk
    exact hlimit (nesting_le_of_parse? hk)

theorem written_of_parse? {s : String} {j : Json} (h : Json.parse? s = some j) : Written s j := by
  obtain ⟨t, hparse, ht⟩ := Option.bind_eq_some_iff.1 h
  exact ⟨t, hparse, Tree.document?_of_depth_le ht (Nat.le_refl _)⟩

/-- A text denotes at most one document. -/
theorem Written.unique {s : String} {j k : Json} (hj : Written s j) (hk : Written s k) : j = k := by
  obtain ⟨t, hparse, ht⟩ := hj
  obtain ⟨u, hparse', hu⟩ := hk
  rw [hparse] at hparse'
  cases hparse'
  exact Option.some.inj (ht.symm.trans hu)

/-! ### Composed texts

One lemma for each way in which a text is composed. -/

theorem written_null : Written "null" .null := ⟨.null, rfl, rfl⟩

theorem written_bool (b : Bool) : Written (boolText b) (.bool b) := by
  cases b <;> exact ⟨.bool _, rfl, rfl⟩

theorem written_quote (s : String) : Written (quote s) (.string s) := by
  refine ⟨_, Tree.parse?_quote s, ?_⟩
  rw [Tree.document?, Literal.text?_ofText, Option.map_some]

theorem exists_trees {texts : List String} {js : List Json} (h : List.Forall₂ Written texts js) :
    ∃ trees, List.Forall₂ (fun s t => Tree.parse? s = some t) texts trees ∧
      List.Forall₂ (fun t j => t.document? t.depth = some j) trees js := by
  induction h with
  | nil => exact ⟨[], .nil, .nil⟩
  | cons hs _ ih =>
    obtain ⟨t, hparse, ht⟩ := hs
    obtain ⟨trees, hparses, htrees⟩ := ih
    exact ⟨t :: trees, .cons hparse hparses, .cons ht htrees⟩

/-- Texts that denote documents make the text of an array that denotes the array of these, -/
theorem written_array {texts : List String} {js : List Json} (h : List.Forall₂ Written texts js) :
    Written (arrayText texts) (.array js) := by
  obtain ⟨trees, hparses, htrees⟩ := exists_trees h
  refine ⟨_, Tree.parse?_arrayText hparses, ?_⟩
  rw [Tree.depth, Tree.document?, if_neg (Nat.succ_ne_zero _), Nat.add_sub_cancel,
    Tree.documents?_eq_some htrees, Option.map_some]

/-- A member whose text denotes a document. -/
def WrittenMember (m : String × String) (j : String × Json) : Prop := m.1 = j.1 ∧ Written m.2 j.2

/-- and with their names the text of an object. -/
theorem written_object {members : List (String × String)} {js : List (String × Json)}
    (h : List.Forall₂ WrittenMember members js) :
    Written (objectText members) (.object js) := by
  have hvalues : List.Forall₂ Written (members.map (·.2)) (js.map (·.2)) := by
    rw [List.forall₂_map_left_iff, List.forall₂_map_right_iff]
    exact h.imp fun _ _ hm => hm.2
  obtain ⟨trees, hparses, htrees⟩ := exists_trees hvalues
  -- each tree denotes its document at its own depth, and the deepest of them gives that of the
  -- object
  have hmembers : List.Forall₂ (fun m j => m.1.text? = some j.1 ∧
      m.2.document? m.2.depth = some j.2)
      ((members.zip trees).map fun e => (Literal.ofText e.1.1, e.2)) js := by
    clear hparses hvalues
    induction h generalizing trees with
    | nil => exact .nil
    | @cons m j ms js hm _ ih =>
      cases htrees with
      | cons ht htrees => exact .cons ⟨hm.1 ▸ Literal.text?_ofText m.1, ht⟩ (ih _ htrees)
  refine ⟨_, Tree.parse?_objectText hparses, ?_⟩
  rw [Tree.depth, Tree.document?, if_neg (Nat.succ_ne_zero _), Nat.add_sub_cancel,
    Tree.members?_eq_some hmembers, Option.map_some]

theorem writtenMember_zip (names : List String) {texts : List String} {js : List Json}
    (h : List.Forall₂ Written texts js) :
    List.Forall₂ WrittenMember (names.zip texts) (names.zip js) := by
  induction h generalizing names with
  | nil => cases names <;> exact .nil
  | cons ht _ ih =>
    cases names with
    | nil => exact .nil
    | cons name names => exact .cons ⟨rfl, ht⟩ (ih names)

/-! ### Integers

The digits of an integer are scanned as one number, which is the integer again within 64 bits. -/

/-- The literal of an integer. -/
def Numeral.ofInt (n : Int) : Numeral := { negative := decide (n < 0), significand := n.natAbs }

theorem tokens?_int (n : Int) : Scans (toString n) [.number (.ofInt n)] := by
  have hdigits : ∀ (negative : Bool) (m : Nat), 0 < m →
      ((scan (.signed negative []) (Nat.toDigits 10 m)).bind Scan.finish) =
        some [.number { negative := negative, significand := m }] := by
    intro negative m hm
    rw [scan_toDigits negative [] hm]
    rfl
  show tokens? (Int.repr n).toList = _
  -- zero has a state of its own, and a sign is read before the digits
  cases n with
  | ofNat m =>
    show tokens? (Nat.repr m).toList = _
    rw [Nat.toList_repr]
    cases m with
    | zero => rfl
    | succ m => exact hdigits false (m + 1) (Nat.succ_pos m)
  | negSucc m =>
    show tokens? ("-" ++ Nat.repr (m + 1)).toList = _
    have hnegative : Numeral.ofInt (.negSucc m) = { negative := true, significand := m + 1 } := by
      simp [Numeral.ofInt, Int.negSucc_lt_zero]
    rw [hnegative, String.toList_append, Nat.toList_repr]
    show (scan {} ('-' :: Nat.toDigits 10 (m + 1))).bind _ = _
    rw [scan_cons]
    exact hdigits true (m + 1) (Nat.succ_pos m)

theorem number?_ofInt {n : Int} (hlow : -2 ^ 63 ≤ n) (hhigh : n < 2 ^ 64) :
    (Numeral.ofInt n).number? = some (.integer n) := by
  have hint : (Numeral.ofInt n).int = n := by
    simp only [Numeral.int, Numeral.ofInt, decide_eq_true_eq]
    split <;> omega
  have hinteger : (Numeral.ofInt n).isInteger = true := by
    rw [Numeral.isInteger, hint]
    simp [Numeral.ofInt]
    omega
  rw [Numeral.number?_whole hinteger, hint]

theorem written_int {n : Int} (hlow : -2 ^ 63 ≤ n) (hhigh : n < 2 ^ 64) :
    Written (toString n) (.number (.integer n)) := by
  refine ⟨.number (.ofInt n), Tree.parse?_eq_some_iff.2 ⟨_, tokens?_int n, rfl⟩, ?_⟩
  rw [Tree.document?, number?_ofInt hlow hhigh, Option.map_some]

/-! ### Compact texts

By induction on the document, whose numbers are left aside. -/

/-- No number occurs in the document. -/
inductive Numberless : Json → Prop
  | null : Numberless .null
  | bool (b : Bool) : Numberless (.bool b)
  | string (s : String) : Numberless (.string s)
  | array {items : List Json} (h : ∀ j ∈ items, Numberless j) : Numberless (.array items)
  | object {members : List (String × Json)} (h : ∀ m ∈ members, Numberless m.2) :
    Numberless (.object members)

theorem compactItems_eq (items : List Json) : compactItems items = items.map compact := by
  induction items with
  | nil => rfl
  | cons j js ih => rw [compactItems, ih, List.map_cons]

theorem compactMembers_eq (members : List (String × Json)) :
    compactMembers members = members.map fun m => (m.1, compact m.2) := by
  induction members with
  | nil => rfl
  | cons m ms ih => rw [compactMembers, ih, List.map_cons]

theorem forall₂_map_self {R : α → β → Prop} {f : β → α} {xs : List β} (h : ∀ x ∈ xs, R (f x) x) :
    List.Forall₂ R (xs.map f) xs := by
  induction xs with
  | nil => exact .nil
  | cons x xs ih =>
    obtain ⟨hx, hxs⟩ := List.forall_mem_cons.1 h
    exact .cons hx (ih hxs)

/-- The compact text denotes the document. -/
theorem written_compact {j : Json} (h : j.Numberless) : Written j.compact j := by
  induction h with
  | null => exact written_null
  | bool b => exact written_bool b
  | string s => exact written_quote s
  | array _ ih =>
    rw [compact, compactItems_eq]
    exact written_array (forall₂_map_self ih)
  | object _ ih =>
    rw [compact, compactMembers_eq]
    exact written_object (forall₂_map_self fun m hm => ⟨rfl, ih m hm⟩)

/-- Documents without numbers have distinct compact texts. -/
theorem compact_injective {j k : Json} (hj : j.Numberless) (hk : k.Numberless)
    (h : j.compact = k.compact) : j = k :=
  (written_compact hj).unique (h ▸ written_compact hk)

end TaggedWire.Json
