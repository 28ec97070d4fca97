import Mathlib.Data.Prod.Basic
import TaggedWire.Command.Run
import TaggedWire.Proofs.Generation.Cached

/-!
# What generating prints

A source reaches the output by one of two ways: the cache prints what it generates, if so told, and
the command prints all else.  The first puts a line break behind the source that the second does
not.  Everything before only reads or stores.

* `runGenerate_eq`: a run of the command, step by step.
* `History.generate`: a run of the command is one more call in the history of its directory.
* `generate_output`: the output of a run, whatever runs were before it.
-/

namespace TaggedWire

namespace Script

variable {α β : Type}

/-! ### Scripts that print nothing

A script is silent if it leaves the output as it was, and idle if it leaves everything. -/

/-- The script prints nothing. -/
def Silent (s : Script α) : Prop := ∀ e, (s.run e).2.output = e.output

/-- The script changes nothing. -/
def Idle (s : Script α) : Prop := ∀ e, (s.run e).2 = e

theorem Silent.bind {s : Script α} {k : α → Script β} (hs : s.Silent) (hk : ∀ a, (k a).Silent) :
    (s >>= k).Silent := by
  intro e
  show ((s.bind k).run e).2.output = _
  rw [run_bind, hk, hs]

theorem Idle.bind {s : Script α} {k : α → Script β} (hs : s.Idle) (hk : ∀ a, (k a).Idle) :
    (s >>= k).Idle := by
  intro e
  show ((s.bind k).run e).2 = _
  rw [run_bind, hk, hs]

theorem silent_pure (a : α) : (pure a : Script α).Silent := fun _ => rfl

theorem idle_pure (a : α) : (pure a : Script α).Idle := fun _ => rfl

theorem idle_readFile (path : String) : (readFile path).Idle := fun _ => rfl

theorem silent_writeFile (path text : String) : (writeFile path text).Silent := by
  intro e
  show (e.change (e.files.write path text)).1.output = e.output
  cases e.files.write path text <;> rfl

theorem silent_removeFile (path : String) : (removeFile path).Silent := by
  intro e
  show (e.change (e.files.remove path)).1.output = e.output
  cases e.files.remove path <;> rfl

theorem silent_makeDirectories (path : String) : (makeDirectories path).Silent := fun _ => rfl

end Script

open Script

namespace Cache

/-! ### The cache

Storing is silent and finding is idle, so the output of the cache is what it prints on request after
a source has been generated. -/

theorem silent_discard (path : String) : (discard path).Silent := by
  refine (silent_removeFile path).bind fun answer => ?_
  split <;> exact silent_pure _

/-- A step of a chain, after which the chain goes on only in success. -/
theorem silent_chain {α β : Type} {x : ExceptT Error Script α} {k : α → ExceptT Error Script β}
    (hx : x.run.Silent) (hk : ∀ a, (k a).run.Silent) : (x >>= k).run.Silent := by
  refine Silent.bind hx fun answer => ?_
  cases answer with
  | error e => exact silent_pure _
  | ok a => exact hk a

theorem silent_store (c : Cache) (className : String) (fingerprint : Fingerprint)
    (source : String) : (c.store className fingerprint source).run.Silent := by
  refine silent_chain ((silent_makeDirectories _).bind fun _ => silent_pure _) fun _ => ?_
  refine silent_chain (silent_discard _) fun _ => ?_
  refine silent_chain ((silent_writeFile _ _).bind fun _ => silent_pure _) fun _ => ?_
  exact (silent_writeFile _ _).bind fun _ => silent_pure _

theorem idle_find (c : Cache) (className : String) (fingerprint : Fingerprint) :
    (c.find className fingerprint).Idle := by
  refine (idle_readFile _).bind fun answer => ?_
  split
  · exact idle_pure _
  · split
    · exact (idle_readFile _).bind fun _ => idle_pure _
    · exact idle_pure _

variable {c c' : Cache} {g : Generator} {package className source told : String}
  {fingerprint : Fingerprint} {e f : Effects}

/-- Storing a source prints nothing, and it is told afterwards. -/
theorem of_keep (h : Script.run (do
      match ← (c.store className fingerprint source).run with
      | .error err => return (c, .error err)
      | .ok () => return (c, .ok source) : Script (Cache × Except Error String)) e =
        ((c', .ok told), f)) : c' = c ∧ told = source ∧ f.output = e.output := by
  have hsilent := silent_store c className fingerprint source e
  rw [← hsilent]
  change Script.run (Script.bind _ _) e = _ at h
  rw [run_bind] at h
  cases hanswer : ((c.store className fingerprint source).run.run e).1 with
  | error err =>
    rw [hanswer] at h
    cases h
  | ok =>
    rw [hanswer] at h
    cases h
    exact ⟨rfl, rfl, rfl⟩

/-- What is made anew is counted, and printed with a line break behind it if so told. -/
theorem of_renew (h : (c.renew g package className).run e = ((c', .ok source), f)) :
    g.source package className = .ok source ∧ c'.generations = c.generations + 1 ∧
      f.output = e.output ++ if c.printOut then source ++ "\n" else "" := by
  unfold renew at h
  cases hsource : g.source package className with
  | error err =>
    rw [hsource] at h
    cases h
  | ok made =>
    rw [hsource] at h
    dsimp only at h
    -- printed before it is stored, so that the output does not depend on how storing ends
    split at h
    · next hprint =>
      obtain ⟨rfl, rfl, houtput⟩ := of_keep (c := { c with generations := c.generations + 1 }) h
      refine ⟨rfl, rfl, ?_⟩
      rw [if_pos hprint]
      exact houtput
    · next hprint =>
      obtain ⟨rfl, rfl, houtput⟩ := of_keep (c := { c with generations := c.generations + 1 }) h
      refine ⟨rfl, rfl, ?_⟩
      rw [if_neg hprint, houtput, String.append_empty]

end Cache

namespace Call

variable {q : Call} {e f : Effects} {c : Cache} {s : String}

/-- The source that the call takes from the cache, if there is a current one and it may. -/
def found (q : Call) (e : Effects) : Option String :=
  if q.cache.reuse then ((q.cache.find q.className q.fingerprint).run e).1 else none

theorem hits_of_found (hname : isTypeName q.className = true) (h : q.found e = some s) :
    q.Hits e s := by
  unfold found at h
  split at h
  · have hfind := goes_run (q.cache.find q.className q.fingerprint) e
    rw [h] at hfind
    exact ⟨hname, _, hfind⟩
  · cases h

theorem run_script (hname : isTypeName q.className = true) : q.script.run e =
    match q.found e with
    | some s => ((q.cache, .ok s), e)
    | none => (q.cache.renew q.generator q.package q.className).run e := by
  have hidle := Cache.idle_find q.cache q.className q.fingerprint e
  unfold script Cache.generate found
  rw [if_pos hname]
  cases q.cache.reuse with
  | false => rfl
  | true =>
    show Script.run (Script.bind (q.cache.find q.className q.fingerprint) _) e = _
    rw [run_bind, hidle, if_pos rfl]
    cases ((q.cache.find q.className q.fingerprint).run e).1 <;> rfl

/-- A call that tells a source has a proper class. -/
theorem isTypeName_of_run (h : q.script.run e = ((c, .ok s), f)) :
    isTypeName q.className = true := by
  by_contra hname
  rw [script, Cache.generate_of_not_isTypeName _ _ _ (Bool.not_eq_true _ ▸ hname)] at h
  cases h

end Call

namespace Command

variable {α β : Type} {env : Environment} {catalog : String} {target : Target}
  {o : GenerateOptions} {e f : Effects} {settings : Settings} {c : Catalog}

/-! ### The command

Settings and catalog are read before anything happens; a run of the command is a call of the cache
with these. -/

/-- Of two attempts in a row the second goes on from where the first has succeeded. -/
theorem run_attempt_bind (x : Attempt α) (k : α → Attempt β) (e : Effects) :
    (x >>= k).run.run e =
      match x.run.run e with
      | (.ok a, e) => (k a).run.run e
      | (.error err, e) => (.error err, e) := by
  show (Script.bind x.run _).run e = _
  rw [run_bind]
  obtain ⟨_ | _, _⟩ := x.run.run e <;> rfl

theorem idle_attempt_bind {x : Attempt α} {k : α → Attempt β} (hx : x.run.Idle)
    (hk : ∀ a, (k a).run.Idle) : (x >>= k).run.Idle := by
  refine Idle.bind hx fun answer => ?_
  cases answer with
  | error err => exact idle_pure _
  | ok a => exact hk a

/-- The settings for generating, as files and variables stand. -/
def settingsIn (env : Environment) (o : GenerateOptions) (e : Effects) : Except Failure Settings :=
  ((settingsOf env o).run.run e).1

/-- The catalog in a file, as files stand. -/
def catalogIn (path : String) (e : Effects) : Except Failure Catalog :=
  ((loadCatalog path).run.run e).1

/-- The call of the cache for a target. -/
def callOf (settings : Settings) (c : Catalog) (target : Target) : Call :=
  ⟨.ofSettings settings, { catalog := c }, target.package, target.className⟩

theorem run_settingsOf (env : Environment) (o : GenerateOptions) (e : Effects) :
    (settingsOf env o).run.run e = (settingsIn env o e, e) := by
  have hidle : (settingsOf env o).run.Idle := by
    unfold settingsOf
    cases o.settings with
    | none =>
      exact idle_attempt_bind (idle_pure _) fun start =>
        idle_attempt_bind (idle_pure _) fun _ => idle_pure _
    | some path =>
      refine idle_attempt_bind ?_ fun start =>
        idle_attempt_bind (idle_pure _) fun _ => idle_pure _
      refine Idle.bind (Idle.bind (idle_readFile path) fun answer => ?_) fun _ => idle_pure _
      split <;> exact idle_pure _
  exact Prod.ext rfl (hidle e)

theorem run_loadCatalog (path : String) (e : Effects) :
    (loadCatalog path).run.run e = (catalogIn path e, e) := by
  have hidle : (loadCatalog path).run.Idle := by
    refine Idle.bind (Idle.bind (idle_readFile path) fun answer => ?_) fun _ => idle_pure _
    split <;> exact idle_pure _
  exact Prod.ext rfl (hidle e)

theorem catalogIn_eq (path : String) (e : Effects) :
    catalogIn path e =
      match e.files.read path with
      | .error _ => .error (.doing s!"loading catalog {path}")
      | .ok text =>
        (Catalog.complete ((CatalogFormat.ofPath? path).getD .json) text).mapError fun _ =>
          .doing s!"loading catalog {path}" := by
  unfold catalogIn loadCatalog attemptTo Catalog.load
  show ((Script.bind (Script.bind (readFile path) _) _).run e).1 = _
  rw [run_bind, run_bind]
  cases hread : e.files.read path <;>
    · have hrun : (readFile path).run e = (e.files.read path, e) := rfl
      rw [hrun, hread]
      rfl

theorem documented_of_catalogIn (h : catalogIn catalog e = .ok c) : c.Documented := by
  rw [catalogIn_eq] at h
  split at h
  · cases h
  · next text _ =>
    generalize (CatalogFormat.ofPath? catalog).getD .json = format at h
    cases hcomplete : Catalog.complete format text with
    | error err =>
      rw [hcomplete] at h
      cases h
    | ok all =>
      rw [hcomplete] at h
      cases h
      obtain ⟨d, hparse, hrest⟩ := bind_eq_ok_iff.1 hcomplete
      obtain ⟨all, hmerged, hrest⟩ := bind_eq_ok_iff.1 hrest
      obtain ⟨_, -, heq⟩ := bind_eq_ok_iff.1 hrest
      cases heq
      exact .merged .builtin (.parse hparse) hmerged

theorem run_cachedSource (settings : Settings) (c : Catalog) (target : Target) (e : Effects) :
    (cachedSource settings c target).run.run e =
      match (callOf settings c target).script.run e with
      | ((_, .error err), f) => (.error (.error err), f)
      | ((cache, .ok source), f) => (.ok (cache, source), f) := by
  show (Script.bind (callOf settings c target).script _).run e = _
  rw [run_bind]
  obtain ⟨⟨cache, _ | _⟩, f⟩ := (callOf settings c target).script.run e <;> rfl

/-- Without a file for it the source is printed, unless it was generated with the setting to print
what is. -/
theorem runGenerate_eq (hout : o.output = none) (e : Effects) :
    (runGenerate env catalog target o).run.run e =
      match settingsIn env o e with
      | .error err => (.error err, e)
      | .ok settings =>
        match catalogIn catalog e with
        | .error err => (.error err, e)
        | .ok c =>
          match (callOf settings c target).script.run e with
          | ((_, .error err), f) => (.error (.error err), f)
          | ((cache, .ok source), f) =>
            (.ok (), if settings.printOut ∧ cache.generations > 0 then f else f.print source) := by
  unfold runGenerate
  rw [run_attempt_bind, run_settingsOf]
  -- each part of the command may fail, and what comes after it is then left out
  cases settingsIn env o e with
  | error err => rfl
  | ok settings =>
    dsimp only
    rw [run_attempt_bind, run_loadCatalog]
    cases catalogIn catalog e with
    | error err => rfl
    | ok c =>
      dsimp only
      rw [run_attempt_bind, run_cachedSource]
      obtain ⟨⟨cache, _ | source⟩, f⟩ := (callOf settings c target).script.run e
      · rfl
      · dsimp only
        rw [hout]
        dsimp only
        split <;> rfl

end Command

/-! ### Histories

A history is a list of runs in one directory.  For the cache it is a session, which is how a run
knows what it finds there. -/

/-- The files in a directory are the same in both trees. -/
structure FileTree.SameIn (directory : String) (t u : FileTree) : Prop where
  here : u.here = t.here
  texts : ∀ name, u.text? (t.goal directory ++ [name]) = t.text? (t.goal directory ++ [name])

theorem Vouched.elsewhere {directory : String} {past : List Call} {t u : FileTree}
    (h : Vouched directory past t) (hsame : t.SameIn directory u) : Vouched directory past u := by
  intro className stored hstored
  rw [FileTree.fingerprintPlace_congr hsame.here, FileTree.fingerprintPlace,
    hsame.texts] at hstored
  rw [FileTree.sourcePlace_congr hsame.here, FileTree.sourcePlace, hsame.texts]
  exact h className stored hstored

/-- What calls of caches in a directory may have made of some effects while other files changed and
things were printed; the last call comes first. -/
inductive History (directory : String) (start : Effects) : List Call → Effects → Prop
  | start : History directory start [] start
  | call {past : List Call} {q : Call} {e f : Effects} {r : Option (Cache × Except Error String)}
    (hpast : History directory start past e) (hdirectory : q.cache.directory = directory)
    (hdocumented : q.generator.catalog.Documented) (h : q.script.Goes e r f) :
    History directory start (q :: past) f
  | elsewhere {past : List Call} {e f : Effects} (hpast : History directory start past e)
    (hsame : e.files.SameIn directory f.files) : History directory start past f

namespace History

variable {directory : String} {start e f : Effects} {past : List Call}

theorem documented (h : History directory start past e) :
    ∀ p ∈ past, p.generator.catalog.Documented := by
  induction h with
  | start => simp
  | call _ _ hdocumented _ ih => exact List.forall_mem_cons.2 ⟨hdocumented, ih⟩
  | elsewhere _ _ ih => exact ih

/-- After any history of a directory that was empty, every fingerprint is vouched for. -/
theorem vouched (hvacant : start.files.Vacant directory) (h : History directory start past e) :
    Vouched directory past e.files := by
  induction h with
  | start =>
    have hsession : Session directory start [] start := .start
    exact hsession.vouched hvacant
  | @call past q e f r hpast hdirectory _ hgoes ih =>
    rcases Call.goes_cases hgoes with ⟨rfl, -⟩ | ⟨source, hsource, hstage, -⟩
    · exact ih.cons q
    · rw [hdirectory] at hstage
      exact ih.stage hgoes.here hsource hstage
  | elsewhere _ hsame ih => exact ih.elsewhere hsame

theorem print (h : History directory start past e) (text : String) :
    History directory start past (e.print text) :=
  h.elsewhere ⟨rfl, fun _ => rfl⟩

/-- A run of the command that prints its source adds its own call to the history, or nothing. -/
theorem generate (h : History directory start past e) {env : Environment} {catalog : String}
    {target : Target} {o : GenerateOptions} (hout : o.output = none)
    (hdirectory : ∀ settings, Command.settingsIn env o e = .ok settings →
      settings.cacheDirectory = directory) :
    ∃ more, History directory start (more ++ past)
        ((Command.runGenerate env catalog target o).run.run e).2 ∧
      ∀ q ∈ more, ∃ settings c, q = Command.callOf settings c target ∧
        Command.catalogIn catalog e = .ok c := by
  rw [Command.runGenerate_eq hout]
  cases hsettings : Command.settingsIn env o e with
  | error err => exact ⟨[], h, nofun⟩
  | ok settings =>
    cases hcatalog : Command.catalogIn catalog e with
    | error err => exact ⟨[], h, nofun⟩
    | ok c =>
      have hcall := h.call (q := Command.callOf settings c target) (hdirectory _ hsettings)
        (Command.documented_of_catalogIn hcatalog) (goes_run _ e)
      refine ⟨[Command.callOf settings c target], ?_, ?_⟩
      -- what is printed afterwards leaves the files alone
      · dsimp only
        rcases hscript : (Command.callOf settings c target).script.run e with
          ⟨⟨cache, err | source⟩, f⟩
        · rw [hscript] at hcall
          exact hcall
        · rw [hscript] at hcall
          dsimp only
          split
          · exact hcall
          · exact hcall.print source
      · intro q hq
        cases List.mem_singleton.1 hq
        exact ⟨settings, c, rfl, rfl⟩

end History

namespace Command

variable {directory : String} {start e f : Effects} {past : List Call} {env : Environment}
  {catalog : String} {target : Target} {o : GenerateOptions} {settings : Settings} {c : Catalog}

/-- A command that succeeds has found a source and printed it, or has generated one.  That is
printed too, with a line break behind it if it was to be printed while being generated. -/
theorem output_cases (hsettings : settingsIn env o e = .ok settings)
    (hcatalog : catalogIn catalog e = .ok c) (hout : o.output = none)
    (hrun : (runGenerate env catalog target o).run.run e = (.ok (), f)) :
    ∃ source,
      (callOf settings c target).found e = some source ∧
          (callOf settings c target).Hits e source ∧ f.output = e.output ++ source ∨
        (callOf settings c target).found e = none ∧ (callOf settings c target).source = .ok source ∧
          f.output = e.output ++ source ++ if settings.printOut then "\n" else "" := by
  rw [runGenerate_eq hout, hsettings, hcatalog] at hrun
  dsimp only at hrun
  rcases hscript : (callOf settings c target).script.run e with ⟨⟨cache, err | source⟩, f'⟩
  · rw [hscript] at hrun
    cases hrun
  rw [hscript] at hrun
  have hname := Call.isTypeName_of_run hscript
  rw [Call.run_script hname] at hscript
  obtain ⟨-, rfl⟩ := Prod.mk.inj hrun
  refine ⟨source, ?_⟩
  cases hfound : (callOf settings c target).found e with
  | some s =>
    rw [hfound] at hscript
    cases hscript
    refine .inl ⟨rfl, Call.hits_of_found hname hfound, ?_⟩
    -- a source that was found is not counted, so the command prints it
    have hcount :
        ¬ (settings.printOut = true ∧ (callOf settings c target).cache.generations > 0) :=
      fun h => absurd h.2 (Nat.lt_irrefl 0)
    rw [if_neg hcount]
    rfl
  | none =>
    rw [hfound] at hscript
    obtain ⟨hsource, hcount, houtput⟩ := Cache.of_renew hscript
    refine .inr ⟨rfl, hsource, ?_⟩
    change f'.output = e.output ++ if settings.printOut then source ++ "\n" else "" at houtput
    cases hprint : settings.printOut with
    | false =>
      rw [hprint, if_neg (by decide), String.append_empty] at houtput
      rw [if_neg (by simp), if_neg (by simp), String.append_empty]
      show f'.output ++ source = _
      rw [houtput]
    | true =>
      rw [hprint, if_pos rfl, ← String.append_assoc] at houtput
      rw [if_pos ⟨rfl, by omega⟩, if_pos rfl]
      exact houtput

/-- A command that succeeds without a file for its source prints the source that generation gives,
once, whatever runs have left in the cache.  A line break is printed behind it exactly if it was to
be printed while being generated, and no current source was found. -/
theorem generate_output (hvacant : start.files.Vacant directory)
    (hhistory : History directory start past e) (hsettings : settingsIn env o e = .ok settings)
    (hdirectory : settings.cacheDirectory = directory) (hcatalog : catalogIn catalog e = .ok c)
    (hdigest : ∀ p ∈ past,
      Sha256.digest p.message = Sha256.digest (callOf settings c target).message →
        p.message = (callOf settings c target).message)
    (hout : o.output = none)
    (hrun : ((generate catalog target o).run env).run.run e = (.ok (), f)) :
    ∃ source, ({ catalog := c } : Generator).source target.package target.className = .ok source ∧
      f.output = e.output ++ source ++
        if settings.printOut ∧ (callOf settings c target).found e = none then "\n" else "" := by
  -- every fingerprint in the cache is that of a run before, with its source beside it
  have hvouched : Vouched (callOf settings c target).cache.directory past e.files := by
    show Vouched settings.cacheDirectory past e.files
    rw [hdirectory]
    exact hhistory.vouched hvacant
  -- the source was found, or it was made just now
  obtain ⟨source, ⟨hfound, hhit, houtput⟩ | ⟨hfound, hsource, houtput⟩⟩ :=
    output_cases hsettings hcatalog hout hrun
  · refine ⟨source, hvouched.hit (fun p hp => (hhistory.documented p hp).spelled)
      (documented_of_catalogIn hcatalog).spelled hdigest hhit, ?_⟩
    rw [houtput, hfound, if_neg (fun h => nomatch h.2), String.append_empty]
  · refine ⟨source, hsource, ?_⟩
    rw [houtput, hfound]
    simp only [and_true]

/-! ### A catalog without types

The smallest run there is, for which the output can be written down. -/

/-- A file with such a catalog in a directory of its own. -/
def catalogAlone : Effects :=
  { files := (FileTree.fresh "work").put ["work", "types.json"] (.file "\x7b\x7d") }

/-- Generating from that catalog, without variables. -/
def generateAlone (o : GenerateOptions) : Attempt Unit :=
  (generate "types.json" {} o).run fun _ => none

/-- A run that prints the source while generating it. -/
def printedAlone : Except Failure Unit × Effects :=
  (generateAlone { print := true }).run.run catalogAlone

/-- A run after that one which must not use the cache. -/
def renewedAlone : Except Failure Unit × Effects :=
  (generateAlone { noCache := true }).run.run printedAlone.2

theorem vacant_catalogAlone : catalogAlone.files.Vacant ".marshalgen-cache" := by
  intro name
  simp [FileTree.get?, FileTree.goal, FileTree.start, catalogAlone, FileTree.fresh, FileTree.put,
    Path.isAbsolute, Path.steps, Path.splitOn, FileTree.step]

theorem printedAlone_ok : printedAlone.1 = .ok () ∧ renewedAlone.1 = .ok () ∧
    printedAlone.2.files.read "types.json" = catalogAlone.files.read "types.json" := by
  decide +kernel

theorem exists_catalogIn (hsettings : settingsIn env o e = .ok settings) (hout : o.output = none)
    (hrun : (runGenerate env catalog target o).run.run e = (.ok (), f)) :
    ∃ c, catalogIn catalog e = .ok c := by
  rw [runGenerate_eq hout, hsettings] at hrun
  cases hcatalog : catalogIn catalog e with
  | error err =>
    rw [hcatalog] at hrun
    cases hrun
  | ok c => exact ⟨c, rfl⟩

theorem settingsIn_printing :
    settingsIn (fun _ => none) { print := true } catalogAlone = .ok { printOut := true } := rfl

/-- The first run succeeds, with this catalog. -/
theorem exists_catalogAlone : ∃ c, catalogIn "types.json" catalogAlone = .ok c ∧
    (runGenerate (fun _ => none) "types.json" {} { print := true }).run.run catalogAlone =
      (.ok (), printedAlone.2) := by
  have hrun : printedAlone = (.ok (), printedAlone.2) := Prod.fst_eq_iff.1 printedAlone_ok.1
  obtain ⟨c, hcatalog⟩ := exists_catalogIn settingsIn_printing rfl hrun
  exact ⟨c, hcatalog, hrun⟩

/-- The first run prints more than the source. -/
theorem printedAlone_inexact : ∃ c source,
    catalogAlone.files.Vacant ".marshalgen-cache" ∧ catalogIn "types.json" catalogAlone = .ok c ∧
    ({ catalog := c } : Generator).source "marshalgen.generated" "MarshallerFactoryImpl" =
      .ok source ∧
    (generateAlone { print := true }).run.run catalogAlone = (.ok (), printedAlone.2) ∧
    printedAlone.2.output = source ++ "\n" ∧ printedAlone.2.output ≠ source := by
  obtain ⟨c, hcatalog, hrun⟩ := exists_catalogAlone
  obtain ⟨source, ⟨-, ⟨-, f, hfind⟩, -⟩ | ⟨-, hsource, houtput⟩⟩ :=
    output_cases settingsIn_printing hcatalog rfl hrun
  -- nothing can be found in an empty directory
  · have habsent : catalogAlone.files.read ((Cache.ofSettings { printOut := true }).fingerprintPath
        "MarshallerFactoryImpl") = .error .absent := by decide +kernel
    obtain ⟨stored, hstored, -⟩ := (Cache.goes_of_find hfind).2 source rfl
    cases habsent.symm.trans hstored
  · have houtput : printedAlone.2.output = source ++ "\n" := by
      rw [houtput]
      show "" ++ source ++ "\n" = _
      rw [String.empty_append]
    refine ⟨c, source, vacant_catalogAlone, hcatalog, hsource, hrun, houtput, ?_⟩
    intro hsame
    rw [houtput] at hsame
    have hlength := congrArg (fun s : String => s.toList.length) hsame
    simp at hlength

/-- The second run prints the source and nothing else. -/
theorem generate_output_alone : ∃ past c source,
    History ".marshalgen-cache" catalogAlone past printedAlone.2 ∧
    ({ catalog := c } : Generator).source "marshalgen.generated" "MarshallerFactoryImpl" =
      .ok source ∧
    renewedAlone.1 = .ok () ∧ renewedAlone.2.output = printedAlone.2.output ++ source := by
  obtain ⟨c, hcatalog, -⟩ := exists_catalogAlone
  have hagain : catalogIn "types.json" printedAlone.2 = .ok c := by
    rw [catalogIn_eq, printedAlone_ok.2.2, ← catalogIn_eq]
    exact hcatalog
  have hstart : History ".marshalgen-cache" catalogAlone [] catalogAlone := .start
  have hown : ∀ settings, settingsIn (fun _ => none) { print := true } catalogAlone = .ok settings →
      settings.cacheDirectory = ".marshalgen-cache" := by
    intro settings h
    cases h
    rfl
  obtain ⟨past, hhistory, hpast⟩ : ∃ past,
      History ".marshalgen-cache" catalogAlone (past ++ []) printedAlone.2 ∧
        ∀ q ∈ past, ∃ settings c, q = callOf settings c {} ∧
          catalogIn "types.json" catalogAlone = .ok c := hstart.generate rfl hown
  rw [List.append_nil] at hhistory
  have hdigest : ∀ p ∈ past,
      Sha256.digest p.message = Sha256.digest (callOf { useCache := false } c {}).message →
        p.message = (callOf { useCache := false } c {}).message := by
    intro p hp _
    obtain ⟨settings, c', rfl, hc'⟩ := hpast p hp
    cases hcatalog.symm.trans hc'
    rfl
  have hsettings : settingsIn (fun _ => none) { noCache := true } printedAlone.2 =
      .ok { useCache := false } := rfl
  have hrun : renewedAlone = (.ok (), renewedAlone.2) := Prod.fst_eq_iff.1 printedAlone_ok.2.1
  obtain ⟨source, hsource, houtput⟩ :=
    generate_output vacant_catalogAlone hhistory hsettings rfl hagain hdigest rfl hrun
  rw [if_neg (fun h => nomatch h.1), String.append_empty] at houtput
  exact ⟨past, c, source, hhistory, hsource, printedAlone_ok.2.1, houtput⟩

end Command
end TaggedWire
