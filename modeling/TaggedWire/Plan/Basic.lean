import TaggedWire.Error
import TaggedWire.Marshaller.Providers

/-!
# Factory plans

A plan lists the marshallers of a factory, each under a variable, and binds identifiers to the
variables.

* `validate_eq_ok_iff`: a plan passes when its variables differ and identifiers are bound to them.
-/

namespace TaggedWire

/-- Where a marshaller comes from. -/
inductive Strategy where
  /-- A class that the type declares. -/
  | explicit (className type : String)
  | array (signature : ArraySignature)
  | enumeration (type : String) (variants : List String)
  /-- An object, field by field. -/
  | reflective (type : String) (fields : List Field)
  deriving DecidableEq, Repr

namespace Strategy

/-- The name of a strategy. -/
def name : Strategy → String
  | explicit _ _ => "explicit"
  | array _ => "array"
  | enumeration _ _ => "enum"
  | reflective _ _ => "reflective"

/-- The marshaller that a strategy describes. -/
def instantiate (providers : Providers) : Strategy → Except Error Marshaller
  | explicit className type => Providers.create providers className type
  | array signature => .ok (.array signature)
  | enumeration type variants => .ok (.enumeration type variants)
  | reflective type fields => .ok (.object type fields)

end Strategy

/-- A marshaller of a plan. -/
structure Planned where
  variableName : String
  strategy : Strategy
  deriving DecidableEq, Repr

/-- The marshallers of a factory and what they are bound to. -/
structure Plan where
  package : String
  className : String
  /-- The version of the generator that made the plan. -/
  generator : String
  marshallers : List Planned
  /-- The variable that each identifier is bound to. -/
  bindings : Table String
  deriving DecidableEq

namespace Plan

/-- The class with its package in front, if it has one. -/
def qualifiedName (p : Plan) : String :=
  if p.package = "" then p.className else p.package ++ "." ++ p.className

/-- The variables of the marshallers. -/
def variableNames (p : Plan) : List String := p.marshallers.map (·.variableName)

/-- The marshaller of a variable. -/
def marshaller? (p : Plan) (variableName : String) : Option Planned :=
  p.marshallers.find? (·.variableName = variableName)

/-- The first text that repeats an earlier one. -/
def firstRepeated : List String → List String → Option String
  | _, [] => none
  | seen, s :: rest => if s ∈ seen then some s else firstRepeated (s :: seen) rest

/-- What is wrong with the content of a plan. -/
def fault (reason : String) : Error := .parse "factory source" reason

/-- Check that variables differ and that every identifier is bound to one. -/
def validate (p : Plan) : Except Error Unit :=
  match firstRepeated [] p.variableNames with
  | some v => .error (fault s!"marshaller '{v}' declared twice")
  | none =>
    match p.bindings.entries.find? fun (_, v) => v ∉ p.variableNames with
    | some (id, v) => .error (fault s!"'{id}' bound to undeclared marshaller '{v}'")
    | none => .ok ()

theorem firstRepeated_eq_none_iff {seen texts : List String} :
    firstRepeated seen texts = none ↔ texts.Nodup ∧ ∀ s ∈ texts, s ∉ seen := by
  induction texts generalizing seen with
  | nil => simp [firstRepeated]
  | cons s rest ih =>
    unfold firstRepeated
    split
    · next h => simp [h]
    · next h =>
      rw [ih]
      constructor
      · rintro ⟨hnd, hrest⟩
        exact ⟨List.nodup_cons.2 ⟨fun hs => hrest s hs List.mem_cons_self, hnd⟩,
          List.forall_mem_cons.2 ⟨h, fun t ht hts => hrest t ht (List.mem_cons_of_mem _ hts)⟩⟩
      · rintro ⟨hnd, hrest⟩
        obtain ⟨hs, hnd⟩ := List.nodup_cons.1 hnd
        refine ⟨hnd, fun t ht hts => ?_⟩
        rcases List.mem_cons.1 hts with rfl | hts
        · exact hs ht
        · exact hrest t (List.mem_cons_of_mem _ ht) hts

theorem validate_eq_ok_iff (p : Plan) :
    p.validate = .ok () ↔
      p.variableNames.Nodup ∧ ∀ e ∈ p.bindings.entries, e.2 ∈ p.variableNames := by
  unfold validate
  cases hr : firstRepeated [] p.variableNames with
  | some v =>
    have : ¬ p.variableNames.Nodup := fun h =>
      nomatch (hr.symm.trans (firstRepeated_eq_none_iff.2 ⟨h, by simp⟩))
    simp [this]
  | none =>
    have hnd := (firstRepeated_eq_none_iff.1 hr).1
    cases hf : p.bindings.entries.find? fun (_, v) => v ∉ p.variableNames with
    | some e =>
      have he := List.find?_some hf
      have hmem := List.mem_of_find?_eq_some hf
      simp only [hnd, true_and, reduceCtorEq, false_iff, Classical.not_forall]
      exact ⟨e, hmem, by simpa using he⟩
    | none =>
      simp only [true_iff, hnd, true_and]
      intro e he
      simpa using List.find?_eq_none.1 hf e he

end Plan
end TaggedWire
