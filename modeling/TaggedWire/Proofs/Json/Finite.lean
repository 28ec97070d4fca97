import TaggedWire.Json.Tree
import TaggedWire.Proofs.Binary.Rounding

/-!
# Numbers on the wire are finite

The number nearest to an integer of 64 bits is finite, and a literal that would be read as an
infinite number denotes nothing.

* `Hereditary.of_parse?`: a property that documents inherit from their parts holds of those that
  have been read if it holds of the numbers that literals denote.
* `finite_of_parse?`, `sized_of_parse?`: all numbers of a document that has been read are finite,
  and its integers have 64 bits.
-/

namespace TaggedWire

namespace Json

theorem isFinite_of_number? {n : Numeral} {x : Number} (h : n.number? = some x) :
    x.toBinary64.isFinite = true := by
  unfold Numeral.number? at h
  split at h
  · next hinteger =>
    cases h
    simp only [Numeral.isInteger, Bool.and_eq_true, decide_eq_true_eq] at hinteger
    exact Binary.isFinite_ofInt hinteger.1.2.1 hinteger.1.2.2
  · simp only at h
    split at h
    · next hfinite =>
      cases h
      exact hfinite
    · cases h

/-- Every number in the document is finite as a floating point number. -/
inductive Finite : Json → Prop
  | null : Finite .null
  | bool (b : Bool) : Finite (.bool b)
  | number {n : Number} (h : n.toBinary64.isFinite = true) : Finite (.number n)
  | string (s : String) : Finite (.string s)
  | array {items : List Json} (h : ∀ j ∈ items, Finite j) : Finite (.array items)
  | object {members : List (String × Json)} (h : ∀ m ∈ members, Finite m.2) :
    Finite (.object members)

/-- Every integer in the document is one that 64 bits hold. -/
inductive Sized : Json → Prop
  | null : Sized .null
  | bool (b : Bool) : Sized (.bool b)
  | number {n : Number} (h : ∀ i, n = .integer i → -2 ^ 63 ≤ i ∧ i < 2 ^ 64) : Sized (.number n)
  | string (s : String) : Sized (.string s)
  | array {items : List Json} (h : ∀ j ∈ items, Sized j) : Sized (.array items)
  | object {members : List (String × Json)} (h : ∀ m ∈ members, Sized m.2) :
    Sized (.object members)

/-- The property holds of what has no parts, of the numbers that literals denote, and of a document
if it holds of its parts. -/
structure Hereditary (p : Json → Prop) : Prop where
  null : p .null
  bool : ∀ b, p (.bool b)
  number : ∀ (n : Numeral) x, n.number? = some x → p (.number x)
  string : ∀ s, p (.string s)
  array : ∀ items, (∀ j ∈ items, p j) → p (.array items)
  object : ∀ members : List (String × Json), (∀ m ∈ members, p m.2) → p (.object members)

namespace Tree

variable {p : Json → Prop}

mutual

theorem holds_of_document? (hp : Hereditary p) {d : Nat} :
    ∀ {t : Tree} {j : Json}, t.document? d = some j → p j
  | .null, _, h => by
    cases h
    exact hp.null
  | .bool b, _, h => by
    cases h
    exact hp.bool b
  | .number n, _, h => by
    obtain ⟨x, hx, rfl⟩ := Option.map_eq_some_iff.1 h
    exact hp.number _ x hx
  | .string s, _, h => by
    obtain ⟨x, -, rfl⟩ := Option.map_eq_some_iff.1 h
    exact hp.string x
  | .array items, _, h => by
    rw [document?] at h
    split at h
    · cases h
    · obtain ⟨js, hjs, rfl⟩ := Option.map_eq_some_iff.1 h
      exact hp.array js (holds_of_documents? hp hjs)
  | .object members, _, h => by
    rw [document?] at h
    split at h
    · cases h
    · obtain ⟨js, hjs, rfl⟩ := Option.map_eq_some_iff.1 h
      exact hp.object js (holds_of_members? hp hjs)

theorem holds_of_documents? (hp : Hereditary p) {d : Nat} : ∀ {ts : List Tree} {js : List Json},
    documents? d ts = some js → ∀ j ∈ js, p j
  | [], _, h => by
    cases h
    intro _ hj
    exact absurd hj List.not_mem_nil
  | t :: ts, _, h => by
    simp only [documents?, Option.bind_eq_bind, Option.bind_eq_some_iff] at h
    obtain ⟨j, hj, js, hjs, heq⟩ := h
    cases heq
    exact List.forall_mem_cons.2 ⟨holds_of_document? hp hj, holds_of_documents? hp hjs⟩

theorem holds_of_members? (hp : Hereditary p) {d : Nat} :
    ∀ {ms : List (Literal × Tree)} {js : List (String × Json)},
    members? d ms = some js → ∀ m ∈ js, p m.2
  | [], _, h => by
    cases h
    intro _ hj
    exact absurd hj List.not_mem_nil
  | (k, t) :: ms, _, h => by
    simp only [members?, Option.bind_eq_bind, Option.bind_eq_some_iff] at h
    obtain ⟨key, -, j, hj, js, hjs, heq⟩ := h
    cases heq
    exact List.forall_mem_cons.2 ⟨holds_of_document? hp hj, holds_of_members? hp hjs⟩

end

end Tree

/-- What is inherited holds of all documents that are read. -/
theorem Hereditary.of_parse? {p : Json → Prop} (hp : Hereditary p) {s : String} {j : Json}
    (h : parse? s = some j) : p j := by
  obtain ⟨t, -, ht⟩ := Option.bind_eq_some_iff.1 h
  exact Tree.holds_of_document? hp ht

theorem hereditary_finite : Hereditary Finite where
  null := .null
  bool := .bool
  number _ _ hx := .number (isFinite_of_number? hx)
  string := .string
  array _ h := .array h
  object _ h := .object h

/-- No text denotes a number that is infinite. -/
theorem finite_of_parse? {s : String} {j : Json} (h : parse? s = some j) : j.Finite :=
  hereditary_finite.of_parse? h

theorem sized_of_number? {n : Numeral} {x : Number} (h : n.number? = some x) :
    Sized (.number x) := by
  refine .number ?_
  rintro i rfl
  unfold Numeral.number? at h
  split at h
  · next hinteger =>
    cases h
    simp only [Numeral.isInteger, Bool.and_eq_true, decide_eq_true_eq] at hinteger
    exact hinteger.1.2
  · simp only at h
    split at h <;> cases h

theorem hereditary_sized : Hereditary Sized where
  null := .null
  bool := .bool
  number _ _ hx := sized_of_number? hx
  string := .string
  array _ h := .array h
  object _ h := .object h

/-- No text denotes an integer that 64 bits do not hold. -/
theorem sized_of_parse? {s : String} {j : Json} (h : parse? s = some j) : j.Sized :=
  hereditary_sized.of_parse? h

end Json
end TaggedWire
