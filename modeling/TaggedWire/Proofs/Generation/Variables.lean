import TaggedWire.Proofs.Generation.Closed

/-!
# What a variable is made of

The variable of a marshaller tells what it was made for: the name of a type, or the shape of an
array.  So in a plan only an alias shares a variable, and only with what it is an alias of.

* `variableOf_of_origin`: a variable is made of the identifier that is bound to it, unless that is
  an alias.
* `variables_apart`: variables do not collide, neither as texts nor in a plan.
-/

namespace TaggedWire

namespace ArraySignature

/-- Shapes that have a spelling are determined by their variables. -/
theorem eq_of_variableName {s t : ArraySignature} (hs : s.type.Spelled) (ht : t.type.Spelled)
    (h : s.variableName = t.variableName) : s = t :=
  eq_of_id hs ht (id_eq_of_variableName h)

end ArraySignature

namespace Generator

variable {g : Generator} {package className : String} {p : Plan}

/-- Where a marshaller comes from tells how its variable is spelled. -/
theorem variableOf_of_origin {done : List (String × ExposedType)} {shapes : List ArraySignature}
    {id : String} {m : Planned} (hsound : g.catalog.Sound)
    (hdone : ∀ id t, (id, t) ∈ done ↔ t ∈ g.catalog.types ∧ g.catalog.Denotes id t)
    (halias : g.catalog.aliases.contains id = false) (h : Origin done shapes id m) :
    VariableOf m.variableName id := by
  cases h with
  | type t mem planned =>
    obtain ⟨ht, rfl | hid⟩ := (hdone id t).1 mem
    · exact variableOf_of_planned (hsound.types t ht) planned
    · rw [Table.contains, hid] at halias
      cases halias
  | shape s mem planned eq => exact .inr ⟨s, congrArg Planned.variableName planned, eq⟩

/-- Aliases apart, what a plan binds to a variable is what the variable is made of. -/
theorem variableOf_of_plan (hspelled : g.catalog.Spelled) (h : g.plan package className = .ok p)
    {id v : String} (halias : g.catalog.aliases.contains id = false)
    (hid : p.bindings.get? id = some v) : VariableOf v id := by
  obtain ⟨hsound, done, shapes, c, hp, rfl, hdone, -, -⟩ := progress_of_plan hspelled h
  obtain ⟨m, -, rfl, horigin⟩ := hp.ofBinding id v hid
  exact variableOf_of_origin hsound hdone halias horigin

/-- Escaping tells identifiers apart; array shapes share a variable only if they share an
identifier, and not at all if both have a spelling; no type has the variable of an array shape.  So
in every plan of a catalog that is made of documents, each type and each array that is bound has a
variable that nothing but its aliases is bound to as well. -/
theorem variables_apart :
    Function.Injective escapeName ∧
      (∀ s t : ArraySignature, s.variableName = t.variableName → s.id = t.id) ∧
      (∀ s t : ArraySignature, s.type.Spelled → t.type.Spelled →
        s.variableName = t.variableName → s = t) ∧
      (∀ (name : String) (s : ArraySignature), Context.typeVariable name ≠ s.variableName) ∧
      ∀ (g : Generator) (package className : String) (p : Plan), g.catalog.Documented →
        g.plan package className = .ok p → ∀ id id', id ≠ id' →
          p.bindings.contains id = true → g.catalog.aliases.contains id = false →
          g.catalog.aliases.contains id' = false → p.bindings.get? id ≠ p.bindings.get? id' := by
  refine ⟨fun _ _ => escapeName_injective, fun _ _ => ArraySignature.id_eq_of_variableName,
    fun _ _ => ArraySignature.eq_of_variableName, typeVariable_ne_variableName, ?_⟩
  intro g package className p hdocumented h id id' hne hbound halias halias' heq
  obtain ⟨v, hv⟩ := Option.isSome_iff_exists.1 hbound
  have hid := variableOf_of_plan hdocumented.spelled h halias hv
  have hid' := variableOf_of_plan hdocumented.spelled h halias' (heq.symm.trans hv)
  exact hne (hid.unique hid')

/-- Of the names `Knot` and `Knot[][]` each is bound, and neither is an alias. -/
theorem knots_bound : (Catalog.builtin.merged knots).toOption.any (fun c =>
    !c.aliases.contains "Knot" && !c.aliases.contains "Knot[][]" &&
      ((⟨c, Providers.builtin⟩ : Generator).plan "demo" "Factory").toOption.any fun p =>
        p.bindings.contains "Knot" && p.bindings.contains "Knot[][]") = true := by
  decide +kernel

/-- The knot and the grid of knots. -/
theorem variables_apart_knots : ∃ c p, Catalog.builtin.merged knots = .ok c ∧
    (⟨c, Providers.builtin⟩ : Generator).plan "demo" "Factory" = .ok p ∧
    p.bindings.contains "Knot[][]" = true ∧
    p.bindings.get? "Knot" ≠ p.bindings.get? "Knot[][]" := by
  obtain ⟨c, hc, hrest⟩ := (Option.any_eq_true _ _).1 knots_bound
  simp only [Bool.and_eq_true, Bool.not_eq_true'] at hrest
  obtain ⟨⟨hname, harray⟩, hplan⟩ := hrest
  obtain ⟨p, hp, hbound⟩ := (Option.any_eq_true _ _).1 hplan
  obtain ⟨hknot, hknots⟩ := (Bool.and_eq_true _ _).mp hbound
  rw [toOption_eq_some_iff] at hc hp
  refine ⟨c, p, hc, hp, hknots, ?_⟩
  exact variables_apart.2.2.2.2 _ _ _ _ (.merged .builtin (.parse parse_knotDocument) hc) hp
    "Knot" "Knot[][]" (by decide) hknot hname harray

end Generator
end TaggedWire
