import TaggedWire.Plan.Builder
import TaggedWire.Proofs.Plan.Source

/-!
# Plans from runs of a builder

A builder is called any number of times, and some of the calls repeat a variable or an identifier.
`Reflects` says what there is to know of it: under each variable the strategy that came first, and
for each identifier the variable that came first.  One call keeps this, so a whole run does.

The calls are made in place, so a refused one leaves what it has written before it was refused.
That this is nothing is proved (`call_of_refuses`) and not put into the definition of a run.

* `Builder.reflects_after`: a builder reflects the calls that were made.
* `Builder.ofSource_planOf`: the source of its plan is read back as that plan, unless an identifier
  is bound to a variable that has no marshaller.
-/

namespace TaggedWire.Builder

/-- A call of a builder. -/
inductive Call where
  | add (variableName : String) (strategy : Strategy)
  | bind (id variableName : String)
  deriving DecidableEq

/-- The types that a call mentions have spellings. -/
def Call.Spelled : Call → Prop
  | .add _ strategy => strategy.Spelled
  | .bind _ _ => True

/-- What a call does to the builder, and whether it answers that it did. -/
def Call.run : Call → EStateM Error Builder Bool
  | .add v strategy => addInPlace v strategy
  | .bind id v => do
    bindInPlace id v
    return true

/-- The builder that a call leaves, whether it is refused or not. -/
def call (b : Builder) (c : Call) : Builder :=
  match c.run b with
  | .ok _ b => b
  | .error _ b => b

/-- A builder after some calls, made one after the other on a new one. -/
def after (calls : List Call) : Builder := calls.foldl call {}

/-- The builder refuses the call: it answers that the variable is not new, or fails because the
identifier is bound. -/
def Refuses (b : Builder) : Call → Prop
  | .add v strategy => ∃ b', (Call.add v strategy).run b = .ok false b'
  | .bind id v => ∃ b', (Call.bind id v).run b = .error (.duplicateBinding id) b'

theorem run_add (b : Builder) (v : String) (strategy : Strategy) :
    (Call.add v strategy).run b = .ok (!b.has v) (b.add v strategy) :=
  addInPlace_eq v strategy b

theorem run_bind (b : Builder) (id v : String) :
    (Call.bind id v).run b =
      match b.bind id v with
      | .ok b' => .ok true b'
      | .error e => .error e b := by
  show EStateM.bind (bindInPlace id v) _ b = _
  rw [EStateM.bind, bindInPlace_eq]
  cases b.bind id v <;> rfl

theorem refuses_add_iff {b : Builder} {v : String} {strategy : Strategy} :
    b.Refuses (.add v strategy) ↔ b.has v = true := by
  simp [Refuses, run_add]

theorem refuses_bind_iff {b : Builder} {id v : String} :
    b.Refuses (.bind id v) ↔ b.bindings.contains id = true := by
  show (∃ b', (Call.bind id v).run b = .error (.duplicateBinding id) b') ↔ _
  rw [run_bind, Builder.bind]
  cases b.bindings.contains id <;> simp

/-! ### What comes first

The first call for a variable decides its strategy, and the first call for an identifier its
variable. `Reflects` is the invariant of a run of calls: the builder holds what came first. -/

/-- The strategy that a call offers for a variable. -/
def Call.strategy? (v : String) : Call → Option Strategy
  | .add w strategy => if w = v then some strategy else none
  | .bind _ _ => none

/-- The variable that a call offers for an identifier. -/
def Call.target? (id : String) : Call → Option String
  | .bind id' v => if id' = id then some v else none
  | .add _ _ => none

/-- The first strategy for a variable. -/
def firstStrategy (calls : List Call) (v : String) : Option Strategy :=
  calls.findSome? (Call.strategy? v)

/-- The first variable for an identifier. -/
def firstVariable (calls : List Call) (id : String) : Option String :=
  calls.findSome? (Call.target? id)

/-- A call that comes too late: there is a strategy for the variable, or a variable for the
identifier. -/
def Call.Late (calls : List Call) : Call → Prop
  | .add v _ => (firstStrategy calls v).isSome = true
  | .bind id _ => (firstVariable calls id).isSome = true

/-- A builder has what came first, and nothing else. -/
structure Reflects (calls : List Call) (b : Builder) : Prop where
  nodup : (b.marshallers.map (·.variableName)).Nodup
  marshallers : ∀ v strategy, ⟨v, strategy⟩ ∈ b.marshallers ↔ firstStrategy calls v = some strategy
  bindings : ∀ id, b.bindings.get? id = firstVariable calls id

section Step

variable {calls : List Call} {b : Builder}

theorem firstStrategy_append (c : Call) (v : String) :
    firstStrategy (calls ++ [c]) v = (firstStrategy calls v).or (c.strategy? v) := by
  simp [firstStrategy, List.findSome?_append]

theorem firstVariable_append (c : Call) (id : String) :
    firstVariable (calls ++ [c]) id = (firstVariable calls id).or (c.target? id) := by
  simp [firstVariable, List.findSome?_append]

theorem Reflects.has_iff (h : Reflects calls b) (v : String) :
    b.has v = true ↔ (firstStrategy calls v).isSome = true := by
  rw [has, List.any_eq_true, Option.isSome_iff_exists]
  constructor
  · rintro ⟨⟨w, strategy⟩, hm, hv⟩
    obtain rfl : w = v := by simpa using hv
    exact ⟨strategy, (h.marshallers w strategy).1 hm⟩
  · rintro ⟨strategy, hs⟩
    exact ⟨⟨v, strategy⟩, (h.marshallers v strategy).2 hs, by simp⟩

/-- A builder refuses exactly what comes too late. -/
theorem Reflects.refuses_iff (h : Reflects calls b) (c : Call) : b.Refuses c ↔ c.Late calls := by
  cases c with
  | add v strategy => exact refuses_add_iff.trans (h.has_iff v)
  | bind id v =>
    rw [refuses_bind_iff, Table.contains, h.bindings]
    exact Iff.rfl

/-- A call that is refused changes nothing. -/
theorem call_of_refuses {c : Call} (h : b.Refuses c) : b.call c = b := by
  cases c with
  | add v strategy =>
    rw [call, run_add]
    exact add_of_has (refuses_add_iff.1 h) strategy
  | bind id v =>
    rw [call, run_bind, Builder.bind, if_pos (refuses_bind_iff.1 h)]

/-- A call that comes too late offers nothing first. -/
theorem Reflects.late (h : Reflects calls b) {c : Call} (hlate : c.Late calls) :
    Reflects (calls ++ [c]) b := by
  -- its variable has a strategy from a call before, and its identifier a variable
  have hstrategy (v : String) : firstStrategy (calls ++ [c]) v = firstStrategy calls v := by
    rw [firstStrategy_append]
    cases c with
    | bind id w => exact Option.or_none
    | add w strategy =>
      obtain ⟨s, hs⟩ := Option.isSome_iff_exists.1 hlate
      by_cases hw : w = v
      · subst hw
        rw [hs, Option.some_or]
      · simp [Call.strategy?, hw]
  have hvariable (id : String) : firstVariable (calls ++ [c]) id = firstVariable calls id := by
    rw [firstVariable_append]
    cases c with
    | add w strategy => exact Option.or_none
    | bind id' v =>
      obtain ⟨w, hw⟩ := Option.isSome_iff_exists.1 hlate
      by_cases hid : id' = id
      · subst hid
        rw [hw, Option.some_or]
      · simp [Call.target?, hid]
  exact ⟨h.nodup, fun v s => hstrategy v ▸ h.marshallers v s,
    fun id => hvariable id ▸ h.bindings id⟩

theorem Reflects.add (h : Reflects calls b) {v : String} (strategy : Strategy)
    (hnew : firstStrategy calls v = none) :
    Reflects (calls ++ [.add v strategy])
      { b with marshallers := b.marshallers ++ [⟨v, strategy⟩] } where
  nodup := by
    rw [List.map_append, List.nodup_append]
    refine ⟨h.nodup, List.nodup_singleton v, fun w hw w' hw' heq => ?_⟩
    obtain rfl : w = v := heq.trans (List.mem_singleton.1 hw')
    obtain ⟨⟨u, s⟩, hm, rfl⟩ := List.mem_map.1 hw
    rw [(h.marshallers u s).1 hm] at hnew
    cases hnew
  marshallers w s := by
    rw [List.mem_append, List.mem_singleton, h.marshallers, firstStrategy_append]
    by_cases hw : v = w
    · subst hw
      simp [hnew, Call.strategy?, eq_comm]
    · simp [Call.strategy?, hw, Ne.symm hw]
  bindings id := by
    rw [firstVariable_append]
    exact (h.bindings id).trans Option.or_none.symm

theorem Reflects.bind (h : Reflects calls b) {id : String} (v : String)
    (hnew : firstVariable calls id = none) :
    Reflects (calls ++ [.bind id v]) { b with bindings := b.bindings.insert id v } where
  nodup := h.nodup
  marshallers w s := by
    rw [firstStrategy_append]
    exact (h.marshallers w s).trans (by rw [show Call.strategy? w (.bind id v) = none from rfl,
      Option.or_none])
  bindings id' := by
    rw [Table.get?_insert, firstVariable_append, h.bindings]
    by_cases hid : id = id'
    · subst hid
      simp [hnew, Call.target?]
    · simp [Call.target?, hid]

/-- What a builder reflects, it reflects after one more call. -/
theorem Reflects.call (h : Reflects calls b) (c : Call) : Reflects (calls ++ [c]) (b.call c) := by
  by_cases hlate : c.Late calls
  · rw [call_of_refuses ((h.refuses_iff c).2 hlate)]
    exact h.late hlate
  · cases c with
    | add v strategy =>
      have hnew : firstStrategy calls v = none := Option.not_isSome_iff_eq_none.1 hlate
      have hhas : b.has v = false := Bool.eq_false_iff.2 (hlate ∘ (h.has_iff v).1)
      have hcall : b.call (.add v strategy) =
          { b with marshallers := b.marshallers ++ [⟨v, strategy⟩] } := by
        simp [Builder.call, run_add, Builder.add, hhas]
      exact hcall ▸ h.add strategy hnew
    | bind id v =>
      have hnew : firstVariable calls id = none := Option.not_isSome_iff_eq_none.1 hlate
      have hbind := (bind_eq_ok_iff b _ id v).2 ⟨(h.bindings id).trans hnew, rfl⟩
      have hcall : b.call (.bind id v) = { b with bindings := b.bindings.insert id v } := by
        simp [Builder.call, run_bind, hbind]
      exact hcall ▸ h.bind v hnew

end Step

/-- What a builder reflects, it reflects after any more calls. -/
theorem Reflects.run {calls : List Call} {b : Builder} (h : Reflects calls b) (more : List Call) :
    Reflects (calls ++ more) (more.foldl Builder.call b) := by
  induction more generalizing calls b with
  | nil => simpa using h
  | cons c more ih =>
    have hmore := ih (h.call c)
    rwa [List.append_assoc, List.singleton_append] at hmore

/-- After any calls a builder reflects them. -/
theorem reflects_after (calls : List Call) : Reflects calls (after calls) :=
  have hnew : Reflects [] {} := ⟨List.nodup_nil, by simp [firstStrategy], fun _ => rfl⟩
  hnew.run calls

/-! ### Plans

The invariant at the end of a run, in terms of the plan. -/

theorem mem_of_firstStrategy {calls : List Call} {v : String} {strategy : Strategy}
    (h : firstStrategy calls v = some strategy) : Call.add v strategy ∈ calls := by
  obtain ⟨c, hc, hstrategy⟩ := List.exists_of_findSome?_eq_some h
  cases c with
  | add w s =>
    obtain ⟨rfl, hs⟩ := Option.ite_none_right_eq_some.1 hstrategy
    cases hs
    exact hc
  | bind id w => cases hstrategy

theorem exists_firstStrategy {calls : List Call} {v : String} {strategy : Strategy}
    (h : Call.add v strategy ∈ calls) : ∃ s, firstStrategy calls v = some s := by
  rw [← Option.isSome_iff_exists, firstStrategy, List.findSome?_isSome_iff]
  exact ⟨_, h, by simp [Call.strategy?]⟩

namespace Reflects

variable {calls : List Call} {b : Builder}

theorem marshaller? (h : Reflects calls b) (package className v : String) :
    (b.finish package className).marshaller? v = (firstStrategy calls v).map (⟨v, ·⟩) := by
  show b.marshallers.find? (·.variableName = v) = _
  cases hfirst : firstStrategy calls v with
  | none =>
    refine List.find?_eq_none.2 fun ⟨w, s⟩ hm => ?_
    rw [decide_eq_true_eq]
    rintro rfl
    cases hfirst.symm.trans ((h.marshallers w s).1 hm)
  | some strategy =>
    have hm : ⟨v, strategy⟩ ∈ b.marshallers := (h.marshallers v strategy).2 hfirst
    have hsome : (b.marshallers.find? (·.variableName = v)).isSome = true :=
      List.find?_isSome.2 ⟨_, hm, by simp⟩
    obtain ⟨⟨w, s⟩, hfind⟩ := Option.isSome_iff_exists.1 hsome
    obtain rfl : w = v := by simpa using List.find?_some hfind
    have hs := (h.marshallers w s).1 (List.mem_of_find?_eq_some hfind)
    rw [hfind, Option.some.inj (hs.symm.trans hfirst), Option.map_some]

/-- The plan passes its check when the first variable of each identifier has been added. -/
theorem validate_eq_ok_iff (h : Reflects calls b) (package className : String) :
    (b.finish package className).validate = .ok () ↔
      ∀ id v, firstVariable calls id = some v → ∃ strategy, Call.add v strategy ∈ calls := by
  -- a variable has a marshaller exactly if some call has added one
  have hname (v : String) : v ∈ b.marshallers.map (·.variableName) ↔
      ∃ strategy, Call.add v strategy ∈ calls := by
    rw [List.mem_map]
    constructor
    · rintro ⟨⟨w, s⟩, hm, rfl⟩
      exact ⟨s, mem_of_firstStrategy ((h.marshallers w s).1 hm)⟩
    · rintro ⟨strategy, hadd⟩
      obtain ⟨s, hs⟩ := exists_firstStrategy hadd
      exact ⟨⟨v, s⟩, (h.marshallers v s).2 hs, rfl⟩
  rw [Plan.validate_eq_ok_iff]
  constructor
  · rintro ⟨-, hbound⟩ id v hfirst
    exact (hname v).1 (hbound (id, v) ((b.bindings.mem_entries_iff id v).2
      ((h.bindings id).trans hfirst)))
  · intro hadded
    refine ⟨h.nodup, fun (id, v) he => (hname v).2 (hadded id v ?_)⟩
    exact (h.bindings id).symm.trans ((b.bindings.mem_entries_iff id v).1 he)

theorem spelled (h : Reflects calls b) (hspelled : ∀ c ∈ calls, c.Spelled)
    (package className : String) : (b.finish package className).Spelled :=
  fun m hm => hspelled (.add m.variableName m.strategy)
    (mem_of_firstStrategy ((h.marshallers m.variableName m.strategy).1 hm))

end Reflects

/-- The plan for a target that some calls make. -/
def planOf (calls : List Call) (package className : String) : Plan :=
  (after calls).finish package className

/-- Every bound variable has been added. -/
def Complete (calls : List Call) : Prop :=
  ∀ id v, firstVariable calls id = some v → ∃ strategy, Call.add v strategy ∈ calls

/-- The source of a plan that some calls have made is read back as that plan, and refused if a
variable was bound and never added.  The plan has the first strategy of each variable and the first
variable of each identifier; the calls that come too late are the ones that are refused, and they
change nothing. -/
theorem ofSource_planOf {calls : List Call} (hspelled : ∀ c ∈ calls, c.Spelled)
    (package className : String) :
    (Complete calls → Plan.ofSource (planOf calls package className).source =
      .ok (planOf calls package className)) ∧
    (¬Complete calls → ∃ reason, Plan.ofSource (planOf calls package className).source =
      .error (.parse "factory source" reason)) ∧
    (planOf calls package className).variableNames.Nodup ∧
    (∀ v, (planOf calls package className).marshaller? v =
      (firstStrategy calls v).map (⟨v, ·⟩)) ∧
    (∀ id, (planOf calls package className).bindings.get? id = firstVariable calls id) ∧
    ∀ before c, ((after before).Refuses c ↔ c.Late before) ∧
      ((after before).Refuses c → after (before ++ [c]) = after before) := by
  have hreflects := reflects_after calls
  have hsource := Plan.ofSource_source (hreflects.spelled hspelled package className)
  have hvalid := hreflects.validate_eq_ok_iff package className
  -- the source is read as the plan in any case, and is then checked
  refine ⟨fun hcomplete => ?_, fun hdangling => ?_, hreflects.nodup,
    hreflects.marshaller? package className, hreflects.bindings, fun before c => ⟨?_, ?_⟩⟩
  · rw [planOf, hsource, hvalid.2 hcomplete]
    rfl
  · obtain ⟨reason, hfault⟩ := Plan.exists_fault (hdangling ∘ hvalid.1)
    exact ⟨reason, by rw [planOf, hsource, hfault]; rfl⟩
  · exact (reflects_after before).refuses_iff c
  · intro hrefuses
    rw [after, List.foldl_append]
    exact call_of_refuses hrefuses

/-- Calls with a strategy of every kind, of which the third and the last come too late. -/
def knotCalls : List Call :=
  [.add "m_string" (.explicit "StringMarshaller" "string"), .bind "string" "m_string",
    .add "m_string" (.enumeration "Hue" ["RED"]), .add "m_Hue" (.enumeration "Hue" ["RED", "\n"]),
    .bind "Hue" "m_Hue", .add "arr_any_d2" (.array ⟨.any, 2⟩), .bind "any[][]" "arr_any_d2",
    .add "m_Knot" (.reflective "Knot" [⟨"ends", .array (.named "Knot") 2, true, false⟩]),
    .bind "Knot" "m_Knot", .bind "Knot" "m_Rope"]

/-- The plan of these calls is read back.  One more binding, to a variable without a marshaller, and
it is not. -/
theorem ofSource_planOf_knot :
    Plan.ofSource (planOf knotCalls "demo" "Factory").source =
      .ok (planOf knotCalls "demo" "Factory") ∧
    ∃ reason,
      Plan.ofSource (planOf (knotCalls ++ [.bind "Rope" "m_Rope"]) "demo" "Factory").source =
        .error (.parse "factory source" reason) := by
  have hends : (TypeRef.array (.named "Knot") 2).Spelled := ⟨"Knot [] []", by decide +kernel⟩
  have hany : TypeRef.any.Spelled := ⟨"object", by decide +kernel⟩
  have hspelled : ∀ c ∈ knotCalls, c.Spelled := by
    simp [knotCalls, Call.Spelled, Strategy.Spelled, hends, hany]
  have hmore : ∀ c ∈ knotCalls ++ [.bind "Rope" "m_Rope"], c.Spelled :=
    List.forall_mem_append.2 ⟨hspelled, by simp [Call.Spelled]⟩
  refine ⟨(ofSource_planOf hspelled "demo" "Factory").1 fun id v hfirst => ?_,
    (ofSource_planOf hmore "demo" "Factory").2.1 fun hcomplete => ?_⟩
  · have hbound : v ∈ ["m_string", "m_Hue", "arr_any_d2", "m_Knot"] := by
      simp only [firstVariable, knotCalls, List.findSome?_cons, Call.target?] at hfirst
      grind
    have hadded : ∀ w ∈ ["m_string", "m_Hue", "arr_any_d2", "m_Knot"],
        (firstStrategy knotCalls w).isSome = true := by
      decide
    obtain ⟨strategy, hstrategy⟩ := Option.isSome_iff_exists.1 (hadded v hbound)
    exact ⟨strategy, mem_of_firstStrategy hstrategy⟩
  · have hrope : firstVariable (knotCalls ++ [.bind "Rope" "m_Rope"]) "Rope" = some "m_Rope" := by
      decide
    obtain ⟨strategy, hadd⟩ := hcomplete "Rope" "m_Rope" hrope
    simp [knotCalls] at hadd

end TaggedWire.Builder
