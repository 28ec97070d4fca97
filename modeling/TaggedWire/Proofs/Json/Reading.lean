import TaggedWire.Json.Tree
import TaggedWire.Proofs.Json.Tokens

/-!
# Trees of composed texts

The tokens of a document are read inside open containers as they are read alone: the tree that ends
the reading alone is placed in the innermost container (`read_inside`).  With the tokens of composed
texts this makes the grammar compositional, whatever the texts of the parts look like.

* `parse?_arrayText`, `parse?_objectText`: texts of arrays and objects are read part by part.
-/

namespace TaggedWire.Json.Tree

open Json.Tree.Reading

/-! ### Reading inside open containers

A reading that is not done looks at the innermost container only, so that containers may be added
below.  It is done once a tree is placed outside of all containers, and then it takes no more
tokens. -/

/-- What a reading becomes when it stands inside open containers. -/
def Reading.inside (below : List Container) (r : Reading) : Option Reading :=
  match r.expected with
  | .done t => place t below
  | _ => some ⟨r.containers ++ below, r.expected⟩

/-- A reading that is not complete, and whose next token belongs to its own containers. -/
def Reading.Open (r : Reading) : Prop :=
  match r.expected with
  | .value => True
  | .done _ => False
  | _ => r.containers ≠ []

theorem place_inside (t : Tree) (containers below : List Container) :
    (place t containers).bind (inside below) = place t (containers ++ below) := by
  cases containers with
  | nil => rfl
  | cons c rest => cases c <;> rfl

theorem value_inside (containers below : List Container) (token : Token) :
    (value containers token).bind (inside below) = value (containers ++ below) token := by
  cases token with
  | null | bool _ | number _ | string _ => exact place_inside _ containers below
  | openArray | openObject | closeArray | closeObject | comma | colon => rfl

theorem key_inside {containers : List Container} (h : containers ≠ []) (below : List Container)
    (token : Token) : (key containers token).bind (inside below) =
      key (containers ++ below) token := by
  cases containers with
  | nil => exact absurd rfl h
  | cons c rest => cases c <;> cases token <;> rfl

theorem close_inside {containers : List Container} (h : containers ≠ []) (below : List Container)
    (token : Token) : (close containers token).bind (inside below) =
      close (containers ++ below) token := by
  cases containers with
  | nil => exact absurd rfl h
  | cons c rest =>
    cases c with
    | array items => cases token <;> first | rfl | exact place_inside _ rest below
    | object members => cases token <;> first | rfl | exact place_inside _ rest below
    | member members k => cases token <;> rfl

/-- One token is taken inside open containers as it is taken alone. -/
theorem step_inside {r : Reading} (h : r.Open) (below : List Container) (token : Token) :
    (r.step token).bind (inside below) = step ⟨r.containers ++ below, r.expected⟩ token := by
  obtain ⟨containers, expected⟩ := r
  cases expected with
  | value => exact value_inside containers below token
  | done t => exact absurd h id
  -- behind an opening bracket the container may be closed at once
  | firstItem =>
    simp only [step]
    split
    · exact close_inside h below token
    · exact value_inside containers below token
  | firstKey =>
    simp only [step]
    split
    · exact close_inside h below token
    · exact key_inside h below token
  | key => exact key_inside h below token
  | colon =>
    simp only [step]
    split <;> rfl
  | separator =>
    simp only [step]
    split
    -- a comma only looks at the innermost container, and there is one as the reading is open
    · cases containers with
      | nil => exact absurd rfl h
      | cons c rest => cases c <;> rfl
    · exact close_inside h below token

/-- A reading that has made a step is open or complete. -/
def Reading.Settled (r : Reading) : Prop := r.Open ∨ ∃ t, r.expected = .done t

theorem settled_place {t : Tree} {containers : List Container} {r : Reading}
    (h : place t containers = some r) : r.Settled := by
  cases containers with
  | nil =>
    cases h
    exact .inr ⟨t, rfl⟩
  | cons c rest =>
    cases c with
    | object members => cases h
    | array items | member members k =>
      cases h
      exact .inl (List.cons_ne_nil _ _)

theorem settled_value {containers : List Container} {token : Token} {r : Reading}
    (h : value containers token = some r) : r.Settled := by
  cases token with
  | null | bool _ | number _ | string _ => exact settled_place h
  | openArray | openObject =>
    cases h
    exact .inl (List.cons_ne_nil _ _)
  | closeArray | closeObject | comma | colon => cases h

theorem settled_key {containers : List Container} {token : Token} {r : Reading}
    (h : key containers token = some r) : r.Settled := by
  unfold key at h
  split at h
  · cases h
    exact .inl (List.cons_ne_nil _ _)
  · cases h

theorem settled_close {containers : List Container} {token : Token} {r : Reading}
    (h : close containers token = some r) : r.Settled := by
  unfold close at h
  split at h
  · exact settled_place h
  · exact settled_place h
  · cases h

theorem settled_step {r r' : Reading} {token : Token} (hopen : r.Open)
    (h : r.step token = some r') : r'.Settled := by
  obtain ⟨containers, expected⟩ := r
  -- one case for each thing that may be expected, as in the definition of a step
  cases expected with
  | value => exact settled_value h
  | done t => exact absurd hopen id
  | firstItem =>
    simp only [step] at h
    split at h
    · exact settled_close h
    · exact settled_value h
  | firstKey =>
    simp only [step] at h
    split at h
    · exact settled_close h
    · exact settled_key h
  | key => exact settled_key h
  | colon =>
    simp only [step] at h
    split at h
    · cases h
      exact .inl trivial
    · cases h
  | separator =>
    simp only [step] at h
    split at h
    · split at h
      · cases h
        exact .inl trivial
      · cases h
        exact .inl hopen
    · exact settled_close h

theorem read_nil (r : Reading) : read r [] = some r := rfl

theorem read_cons (r : Reading) (t : Token) (ts : List Token) :
    read r (t :: ts) = (r.step t).bind (read · ts) := rfl

/-- The tokens, read alone, are this tree. -/
def Reads (ts : List Token) (t : Tree) : Prop := (read {} ts).bind Reading.finish = some t

/-- By induction on the tokens: a reading that stays open is continued, one that is complete can
take no further token. -/
theorem read_inside {r : Reading} (hopen : r.Open) {ts : List Token} {t : Tree}
    (h : (read r ts).bind Reading.finish = some t) (below : List Container) :
    read ⟨r.containers ++ below, r.expected⟩ ts = place t below := by
  -- by induction on the tokens; as long as the reading is open, both readings take the same step
  induction ts generalizing r with
  | nil =>
    rw [read_nil, Option.bind_some] at h
    obtain ⟨containers, expected⟩ := r
    cases expected with
    | done t => exact absurd hopen id
    | value | firstItem | firstKey | key | colon | separator => cases h
  | cons token ts ih =>
    rw [read_cons] at h
    obtain ⟨r₁, hfinish, hread⟩ : ∃ r₁, r.step token = some r₁ ∧
        (read r₁ ts).bind Reading.finish = some t := by
      -- a step that fails would fail the reading as a whole
      cases hstep : r.step token with
      | none => simp [hstep] at h
      | some r₁ => exact ⟨r₁, rfl, by simpa [hstep] using h⟩
    rw [read_cons, ← step_inside hopen below token, hfinish, Option.bind_some]
    rcases settled_step hopen hfinish with hr₁ | ⟨t', ht'⟩
    · have hinside : inside below r₁ = some ⟨r₁.containers ++ below, r₁.expected⟩ := by
        obtain ⟨containers, expected⟩ := r₁
        cases expected with
        | done t => exact absurd hr₁ id
        | value | firstItem | firstKey | key | colon | separator => rfl
      rw [hinside, Option.bind_some]
      exact ih hr₁ hread
    · obtain ⟨containers, expected⟩ := r₁
      cases ht'
      -- nothing may follow a complete tree, and placing it is all that is left
      cases ts with
      | nil =>
        cases hread
        show (place t below).bind (read · []) = _
        cases place t below <;> rfl
      | cons _ _ => cases hread

theorem Reads.value {ts : List Token} {t : Tree} (h : Reads ts t) (below : List Container) :
    read ⟨below, .value⟩ ts = place t below :=
  read_inside (r := {}) trivial h below

/-- An array that has just been opened takes its first item like any other. -/
theorem Reads.firstItem {ts : List Token} {t : Tree} (h : Reads ts t) (below : List Container) :
    read ⟨below, .firstItem⟩ ts = place t below := by
  rw [← h.value below]
  cases ts with
  | nil => cases h
  | cons token ts =>
    -- no tree is read from tokens that begin with the end of an array
    have hne : token ≠ .closeArray := by
      rintro rfl
      cases h
    rw [read_cons, read_cons]
    show (if token = .closeArray then _ else Reading.value below token).bind _ = _
    rw [if_neg hne]
    rfl

/-! ### Arrays

The items are read one after the other, each of them inside the array that holds those before it. -/

/-- The items that are left, each after a comma but the first, and the end of their array. -/
theorem read_items {ts : List Token} {t : Tree} {tss : List (List Token)} {trees : List Tree}
    (ht : Reads ts t) (htrees : List.Forall₂ Reads tss trees) (items : List Tree)
    (below : List Container) :
    (place t (.array items :: below)).bind
        (read · ((separated (ts :: tss)).drop ts.length ++ [.closeArray])) =
      place (.array (items.reverse ++ t :: trees)) below := by
  -- on the items that follow; the one being read goes to those before it
  induction htrees generalizing ts t items with
  | nil =>
    have hdrop : (separated [ts]).drop ts.length = [] := by simp [separated]
    rw [hdrop]
    show (read ⟨.array (t :: items) :: below, .separator⟩ [.closeArray]) = _
    rw [read_cons]
    show (place (.array (t :: items).reverse) below).bind (read · []) = _
    rw [List.reverse_cons]
    cases place (.array (items.reverse ++ [t])) below <;> rfl
  | @cons us u tss trees hu hrest ih =>
    have hdrop : (separated (ts :: us :: tss)).drop ts.length =
        .comma :: separated (us :: tss) := by simp [separated]
    have hsplit : separated (us :: tss) = us ++ (separated (us :: tss)).drop us.length := by
      cases tss <;> simp [separated]
    have hnext := ih hu (t :: items)
    rw [hdrop]
    show read ⟨.array (t :: items) :: below, .value⟩ (separated (us :: tss) ++ [.closeArray]) = _
    rw [hsplit, List.append_assoc, read_append, hu.value, hnext]
    simp

theorem reads_array {tss : List (List Token)} {trees : List Tree}
    (h : List.Forall₂ Reads tss trees) :
    Reads (.openArray :: separated tss ++ [.closeArray]) (.array trees) := by
  cases h with
  | nil => rfl
  | @cons ts t tss trees ht hrest =>
    have hsplit : separated (ts :: tss) = ts ++ (separated (ts :: tss)).drop ts.length := by
      cases tss <;> simp [separated]
    show (read ⟨[.array []], .firstItem⟩ (separated (ts :: tss) ++ [.closeArray])).bind _ = _
    rw [hsplit, List.append_assoc, read_append, ht.firstItem, read_items ht hrest]
    rfl

/-! ### Objects

The same for members, which begin with a key. -/

/-- The tokens of a member. -/
def memberTokens (m : Literal × List Token) : List Token := .string m.1 :: .colon :: m.2

/-- Members with the same keys, the tokens of the one being read as the tree of the other. -/
def MemberReads (m : Literal × List Token) (u : Literal × Tree) : Prop := m.1 = u.1 ∧ Reads m.2 u.2

/-- Members up to the end of their object. -/
theorem read_members {m : Literal × List Token} {u : Literal × Tree}
    {ms : List (Literal × List Token)} {us : List (Literal × Tree)} (hm : MemberReads m u)
    (hms : List.Forall₂ MemberReads ms us) (done : List (Literal × Tree))
    (below : List Container) :
    read ⟨.object done :: below, .key⟩
        (separated ((m :: ms).map memberTokens) ++ [.closeObject]) =
      place (.object (done.reverse ++ u :: us)) below := by
  obtain ⟨k, ts⟩ := m
  obtain ⟨l, t⟩ := u
  obtain ⟨rfl, hts⟩ : k = l ∧ Reads ts t := hm
  -- on the members that follow; the one being read goes to those before it
  induction hms generalizing k ts t done with
  | nil =>
    show read ⟨.member done k :: below, .value⟩ (ts ++ [.closeObject]) = _
    rw [read_append, hts.value]
    show (place (.object ((k, t) :: done).reverse) below).bind (read · []) = _
    rw [List.reverse_cons]
    cases place (.object (done.reverse ++ [(k, t)])) below <;> rfl
  | @cons m' u' ms us hm' hrest ih =>
    obtain ⟨k', ts'⟩ := m'
    obtain ⟨l', t'⟩ := u'
    obtain ⟨rfl, hts'⟩ : k' = l' ∧ Reads ts' t' := hm'
    -- the member is complete, and the next key is read behind the comma
    have hnext := ih ((k, t) :: done) k' ts' t' hts'
    have htokens : separated (((k, ts) :: (k', ts') :: ms).map memberTokens) ++ [.closeObject] =
        .string k :: .colon :: (ts ++ (.comma ::
          (separated (((k', ts') :: ms).map memberTokens) ++ [.closeObject]))) := by
      simp [separated, memberTokens]
    rw [htokens]
    show read ⟨.member done k :: below, .value⟩ _ = _
    rw [read_append, hts.value]
    show read ⟨.object ((k, t) :: done) :: below, .key⟩ _ = _
    rw [hnext]
    simp

theorem reads_object {ms : List (Literal × List Token)} {us : List (Literal × Tree)}
    (h : List.Forall₂ MemberReads ms us) :
    Reads (.openObject :: separated (ms.map memberTokens) ++ [.closeObject]) (.object us) := by
  cases h with
  | nil => rfl
  | @cons m u ms us hm hrest =>
    -- the first key is taken as any other key would be
    have hfirst : read ⟨[.object []], .firstKey⟩
        (separated ((m :: ms).map memberTokens) ++ [.closeObject]) =
          read ⟨[.object []], .key⟩
            (separated ((m :: ms).map memberTokens) ++ [.closeObject]) := by
      cases ms <;> rfl
    show (read ⟨[.object []], .firstKey⟩
      (separated ((m :: ms).map memberTokens) ++ [.closeObject])).bind _ = _
    rw [hfirst, read_members hm hrest]
    rfl

/-! ### Texts

Scanning and reading are put together: texts that are parsed make up texts that are parsed. -/

theorem parse?_eq_some_iff {s : String} {t : Tree} :
    parse? s = some t ↔ ∃ ts, Scans s ts ∧ Reads ts t := by
  have hparse : parse? s =
      (tokens? s.toList).bind fun ts => (read {} ts).bind Reading.finish := rfl
  rw [hparse, Option.bind_eq_some_iff]
  rfl

theorem exists_tokens {texts : List String} {trees : List Tree}
    (h : List.Forall₂ (fun s t => parse? s = some t) texts trees) :
    ∃ tss, List.Forall₂ Scans texts tss ∧ List.Forall₂ Reads tss trees := by
  induction h with
  | nil => exact ⟨[], .nil, .nil⟩
  | cons hs _ ih =>
    obtain ⟨ts, hscan, hread⟩ := parse?_eq_some_iff.1 hs
    obtain ⟨tss, hscans, hreads⟩ := ih
    exact ⟨ts :: tss, .cons hscan hscans, .cons hread hreads⟩

theorem parse?_arrayText {texts : List String} {trees : List Tree}
    (h : List.Forall₂ (fun s t => parse? s = some t) texts trees) :
    parse? (arrayText texts) = some (.array trees) := by
  obtain ⟨tss, hscans, hreads⟩ := exists_tokens h
  exact parse?_eq_some_iff.2 ⟨_, tokens?_arrayText hscans, reads_array hreads⟩

theorem parse?_objectText {members : List (String × String)} {trees : List Tree}
    (h : List.Forall₂ (fun s t => parse? s = some t) (members.map (·.2)) trees) :
    parse? (objectText members) =
      some (.object ((members.zip trees).map fun e => (.ofText e.1.1, e.2))) := by
  obtain ⟨tss, hscans, hreads⟩ := exists_tokens h
  have htokens : (members.zip tss).map (fun e =>
      Token.string (.ofText e.1.1) :: .colon :: e.2) =
        ((members.zip tss).map fun e => (Literal.ofText e.1.1, e.2)).map memberTokens := by
    rw [List.map_map]
    rfl
  -- keys are read as they are written, so the members are related through their values
  have hmembers : List.Forall₂ MemberReads
      ((members.zip tss).map fun e => (Literal.ofText e.1.1, e.2))
      ((members.zip trees).map fun e => (Literal.ofText e.1.1, e.2)) := by
    clear htokens hscans
    induction members generalizing tss trees with
    | nil => exact .nil
    | cons m members ih =>
      cases h with
      | cons hm hrest =>
        cases hreads with
        | cons hts htss => exact .cons ⟨rfl, hts⟩ (ih hrest _ htss)
  refine parse?_eq_some_iff.2 ⟨_, tokens?_objectText hscans, ?_⟩
  rw [htokens]
  exact reads_object hmembers

theorem parse?_quote (s : String) : parse? (quote s) = some (.string (.ofText s)) :=
  parse?_eq_some_iff.2 ⟨_, tokens?_quote s, rfl⟩

end TaggedWire.Json.Tree
