import Mathlib.Algebra.Group.Nat.Defs
import TaggedWire.Plan.Source
import TaggedWire.Proofs.Json.Indented
import TaggedWire.Proofs.Table
import TaggedWire.Proofs.TypeRef.Spelled

/-!
# Reading a source back

Each part of a plan is read back from its document: the keys of a record differ, so every part is
found under its own, and a type is read back from its identifier when it has a spelling.  What is
left is the check of the plan.

* `Plan.read?_document`: the document of a plan is read as that plan.
* `Plan.ofSource_source`: so is the source, if the plan passes its check.
-/

namespace TaggedWire

/-! ### What can be stored

A type goes into a source as its identifier, so it has to be spelled. -/

/-- The types of a strategy have spellings, and dimensions are counted in 64 bits. -/
def Strategy.Spelled : Strategy → Prop
  | .array signature => signature.component.Spelled ∧ signature.dimensions < 2 ^ 64
  | .reflective _ fields => ∀ f ∈ fields, f.declared.Spelled
  | .explicit _ _ | .enumeration _ _ => True

/-- All strategies of a plan do. -/
def Plan.Spelled (p : Plan) : Prop := ∀ m ∈ p.marshallers, m.strategy.Spelled

/-! ### Reading the parts

One lemma for each kind of record, from fields and shapes up to bindings. -/

theorem TypeRef.read?_id {t : TypeRef} (h : t.Spelled) : read? (.string t.id) = some t := by
  simp only [read?, Json.string?, Option.bind_some, h.parse_id, Except.toOption]

theorem mapM_read_eq_some {α β : Type} {document : α → β} {read : β → Option α} {xs : List α}
    (h : ∀ x ∈ xs, read (document x) = some x) : (xs.map document).mapM read = some xs := by
  rw [mapM_eq_some_iff, List.forall₂_map_left_iff]
  exact List.forall₂_same.2 h

theorem Json.texts?_ofTexts (texts : List String) : (ofTexts texts).texts? = some texts :=
  mapM_read_eq_some fun _ _ => rfl

theorem Field.read?_document {f : Field} (h : f.declared.Spelled) : read? f.document = some f := by
  obtain ⟨name, declared, readable, writable⟩ := f
  simp [read?, document, Json.required?, Json.optional?, Json.single?, Json.string?, Json.bool?,
    TypeRef.read?_id h]

theorem Field.readAll?_documents {fields : List Field} (h : ∀ f ∈ fields, f.declared.Spelled) :
    readAll? (.array (fields.map document)) = some fields :=
  mapM_read_eq_some fun f hf => read?_document (h f hf)

theorem ArraySignature.read?_document {s : ArraySignature} (h : s.component.Spelled) :
    read? s.document = some s := by
  simp [read?, document, Json.required?, Json.single?, Json.ofInt, Json.nat?, TypeRef.read?_id h]

theorem Strategy.read?_members {s : Strategy} (h : s.Spelled) (variableName : String) :
    read? (("var", .string variableName) :: s.members) = some s := by
  cases s with
  | explicit className type =>
    simp [read?, members, text?, Json.required?, Json.single?, Json.string?, readKind?, names]
  | array signature =>
    simp [read?, members, Json.required?, Json.single?, readKind?, names,
      ArraySignature.read?_document h.1]
  | enumeration type variants =>
    simp [read?, members, text?, Json.required?, Json.single?, Json.string?, readKind?, names,
      Json.texts?_ofTexts]
  | reflective type fields =>
    simp [read?, members, text?, Json.required?, Json.single?, Json.string?, readKind?, names,
      Field.readAll?_documents h]

theorem Planned.read?_document {m : Planned} (h : m.strategy.Spelled) :
    read? m.document = some m := by
  have hvar : Strategy.text? (("var", .string m.variableName) :: m.strategy.members) "var" =
      some m.variableName := by
    cases m.strategy <;>
      simp [Strategy.text?, Strategy.members, Json.required?, Json.single?, Json.string?]
  simp [read?, document, Json.members?, hvar, Strategy.read?_members h]

theorem Table.read?_document (t : Table String) : read? t.document = some t := by
  have hself : ofList t.entries = t := by
    refine ext_get? fun key => Option.ext fun value => ?_
    rw [get?_ofList t.nodup_entries, mem_entries_iff]
  have hentries : (t.entries.map fun e : String × String => (e.1, Json.string e.2)).mapM
      (fun m : String × Json => m.2.string?.map (m.1, ·)) = some t.entries :=
    mapM_read_eq_some fun _ _ => rfl
  show (Option.bind _ fun entries => some (ofList entries)) = some t
  rw [hentries, Option.bind_some, hself]

/-! ### Nesting and numbers

The document of a plan is of a fixed depth, and its only numbers are dimensions. -/

theorem ArraySignature.plain_document {s : ArraySignature} (h : s.dimensions < 2 ^ 64)
    {depth : Nat} (hdepth : 0 < depth) : s.document.Plain depth := by
  have hdimensions : (Json.ofInt s.dimensions).Plain (depth - 1) :=
    .integer _ (by omega) (by omega)
  simp [document, Json.plain_object_iff, hdepth, hdimensions]

theorem Field.plain_document (f : Field) {depth : Nat} (hdepth : 0 < depth) :
    f.document.Plain depth := by
  simp [document, Json.plain_object_iff, hdepth]

theorem Strategy.plain_members {s : Strategy} (h : s.Spelled) {depth : Nat} (hdepth : 2 ≤ depth) :
    ∀ m ∈ s.members, m.2.Plain depth := by
  have hpos : 0 < depth := by omega
  cases s with
  | explicit className type => simp [members]
  | array signature => simp [members, ArraySignature.plain_document h.2 hpos]
  | enumeration type variants => simp [members, Json.ofTexts, Json.plain_array_iff, hpos]
  | reflective type fields =>
    have hfields (f : Field) : f.document.Plain (depth - 1) := f.plain_document (by omega)
    simp [members, Json.plain_array_iff, hpos, hfields]

theorem Planned.plain_document {m : Planned} {depth : Nat} (hdepth : 3 ≤ depth)
    (h : m.strategy.Spelled) : m.document.Plain depth :=
  Json.plain_object_iff.2 ⟨by omega, List.forall_mem_cons.2
    ⟨.string _ _, Strategy.plain_members h (by omega)⟩⟩

/-! ### Reading a plan

A source is the indented text of a document, which is read as the document again. -/

namespace Plan

/-- The document of a plan is read as that plan. -/
theorem read?_document {p : Plan} (h : p.Spelled) : read? p.document = some p := by
  have hmarshallers : (p.marshallers.map Planned.document).mapM Planned.read? =
      some p.marshallers :=
    mapM_read_eq_some fun m hm => Planned.read?_document (h m hm)
  obtain ⟨package, className, generator, marshallers, bindings⟩ := p
  simp [read?, document, ofParts?, Json.required?, Json.single?, Json.string?, Json.items?,
    hmarshallers, Table.read?_document]

theorem plain_document {p : Plan} (h : p.Spelled) : p.document.Plain Json.nestingLimit := by
  have hmarshallers : (Json.array (p.marshallers.map Planned.document)).Plain
      (Json.nestingLimit - 1) := by
    refine .array (by decide) fun j hj => ?_
    obtain ⟨m, hm, rfl⟩ := List.mem_map.1 hj
    exact Planned.plain_document (by decide) (h m hm)
  have hbindings : p.bindings.document.Plain (Json.nestingLimit - 1) := by
    refine .object (by decide) fun m hm => ?_
    obtain ⟨e, -, rfl⟩ := List.mem_map.1 hm
    exact .string _ e.2
  have hlimit : 0 < Json.nestingLimit := by decide
  simp [document, Json.plain_object_iff, hlimit, hmarshallers, hbindings]

/-- What is wrong with a plan is told as a fault of its source. -/
theorem exists_fault {p : Plan} (h : p.validate ≠ .ok ()) :
    ∃ reason, p.validate = .error (fault reason) := by
  cases hvalid : p.validate with
  | ok => exact absurd hvalid h
  | error e =>
    unfold validate at hvalid
    split at hvalid
    · cases hvalid
      exact ⟨_, rfl⟩
    · split at hvalid
      · cases hvalid
        exact ⟨_, rfl⟩
      · cases hvalid

/-- The source of a plan is read as the plan, which is then checked like any other. -/
theorem ofSource_source {p : Plan} (h : p.Spelled) : ofSource p.source = do
    p.validate
    return p := by
  have hread : Json.parseRecord? documentKeys p.source = some p.document :=
    Json.parseRecord?_indented (plain_document h) (by simp [documentKeys])
  rw [ofSource, hread, Option.bind_some, read?_document h]

end Plan
end TaggedWire
