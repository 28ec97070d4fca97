import TaggedWire.Generation.Cache
import TaggedWire.Proofs.Files.Interrupted
import TaggedWire.Proofs.TypeRef.Spelled

/-!
# Storing a source

A source is stored in stages: its old fingerprint is removed, the source is written, the new
fingerprint is written.  Whatever fails or stops on the way, the files are left in one of these
stages, and in none of them does a whole fingerprint stand beside a source that is not its own.

* `stage_of_store`: the stages are all that storing may leave behind.
* `goes_of_find`, `goes_of_generate`: what a call may come to.
-/

namespace TaggedWire

/-! ### The files of a class

A class has two files in the directory of the cache, one for its source and one for the fingerprint.
Places tell the kind of file and the class, so that no file is used for anything else. -/

theorem isName_append {className : String} (h : isTypeName className = true) {extension : String}
    (hsingle : '/' ∉ extension.toList) (hlong : 2 < extension.toList.length) :
    Path.IsName (className ++ extension) := by
  have hlength : 2 < (className ++ extension).toList.length := by
    rw [String.toList_append, List.length_append]
    omega
  refine ⟨?_, ?_, ?_, ?_⟩
  · intro hmem
    rw [String.toList_append, List.mem_append] at hmem
    rcases hmem with hname | hextension
    · rcases TypeRef.isNamePart_of_isNameFrom h '/' hname with hpart | hpoint
      · exact absurd hpart (by decide)
      · exact absurd hpoint (by decide)
    · exact hsingle hextension
  -- the name is too long to be any of the texts with a meaning of their own
  all_goals
    intro heq
    rw [heq] at hlength
    exact absurd hlength (by decide)

namespace FileTree

/-- The place of a class's source in a directory. -/
def sourcePlace (t : FileTree) (directory className : String) : List String :=
  t.goal directory ++ [className ++ ".json"]

/-- The place of a class's fingerprint in a directory. -/
def fingerprintPlace (t : FileTree) (directory className : String) : List String :=
  t.goal directory ++ [className ++ ".fingerprint"]

theorem sourcePlace_congr {t u : FileTree} (h : u.here = t.here) (directory className : String) :
    u.sourcePlace directory className = t.sourcePlace directory className := by
  unfold sourcePlace
  rw [goal_congr h]

theorem fingerprintPlace_congr {t u : FileTree} (h : u.here = t.here)
    (directory className : String) :
    u.fingerprintPlace directory className = t.fingerprintPlace directory className := by
  unfold fingerprintPlace
  rw [goal_congr h]

theorem fingerprintPlace_ne_sourcePlace (t : FileTree) (directory a b : String) :
    t.fingerprintPlace directory a ≠ t.sourcePlace directory b := by
  intro h
  have hname : a ++ ".fingerprint" = b ++ ".json" := by
    simpa [fingerprintPlace, sourcePlace] using h
  -- the last characters differ
  have hlast := congrArg (fun s : String => s.toList.getLast?) hname
  simp only [String.toList_append] at hlast
  rw [List.getLast?_append_of_ne_nil _ (by decide), List.getLast?_append_of_ne_nil _ (by decide)]
    at hlast
  exact absurd hlast (by decide)

theorem fingerprintPlace_inj {t : FileTree} {directory a b : String}
    (h : t.fingerprintPlace directory a = t.fingerprintPlace directory b) : a = b := by
  have hname : a ++ ".fingerprint" = b ++ ".fingerprint" := by
    simpa [fingerprintPlace] using h
  exact String.append_left_inj ".fingerprint" |>.1 hname

theorem sourcePlace_inj {t : FileTree} {directory a b : String}
    (h : t.sourcePlace directory a = t.sourcePlace directory b) : a = b := by
  have hname : a ++ ".json" = b ++ ".json" := by
    simpa [sourcePlace] using h
  exact String.append_left_inj ".json" |>.1 hname

end FileTree

namespace Cache

open Script FileTree

variable {c : Cache} {className source : String} {fingerprint : Fingerprint} {e f : Effects}

theorem goal_sourcePath (h : isTypeName className = true) (t : FileTree) :
    t.goal (c.sourcePath className) = t.sourcePlace c.directory className :=
  goal_join t c.directory (isName_append h (by decide) (by decide))

theorem goal_fingerprintPath (h : isTypeName className = true) (t : FileTree) :
    t.goal (c.fingerprintPath className) = t.fingerprintPlace c.directory className :=
  goal_join t c.directory (isName_append h (by decide) (by decide))

/-! ### Stages

`Stage` lists what the files of a class may look like while a source is stored.  Another class is
not touched in any of them. -/

/-- How far storing a source of a class may have changed the texts of a tree. -/
inductive Stage (directory className : String) (fingerprint : Fingerprint) (source : String)
    (t u : FileTree) : Prop
  | untouched (h : u.text? = t.text?)
  | cleared (h : u.text? = Function.update t.text? (t.fingerprintPlace directory className) none)
  | begun {part : String} (hpart : part.toList <+: source.toList)
    (h : u.text? = Function.update
      (Function.update t.text? (t.fingerprintPlace directory className) none)
      (t.sourcePlace directory className) (some part))
  | vouched {part : String} (hpart : part.toList <+: (fingerprint.digest ++ "\n").toList)
    (h : u.text? = Function.update
      (Function.update t.text? (t.sourcePlace directory className) (some source))
      (t.fingerprintPlace directory className) (some part))

/-- The files of other classes are as they were. -/
theorem Stage.elsewhere {directory other : String} {t u : FileTree}
    (h : Stage directory className fingerprint source t u) (hother : other ≠ className) :
    u.text? (t.fingerprintPlace directory other) = t.text? (t.fingerprintPlace directory other) ∧
      u.text? (t.sourcePlace directory other) = t.text? (t.sourcePlace directory other) := by
  have hfingerprint : t.fingerprintPlace directory other ≠ t.fingerprintPlace directory className :=
    fun heq => hother (fingerprintPlace_inj heq)
  have hsource : t.sourcePlace directory other ≠ t.sourcePlace directory className :=
    fun heq => hother (sourcePlace_inj heq)
  have hcross := fingerprintPlace_ne_sourcePlace t directory other className
  have hcross' := (fingerprintPlace_ne_sourcePlace t directory className other).symm
  -- the places of one class are none of the places that another class writes to
  cases h with
  | untouched h => rw [h]; exact ⟨rfl, rfl⟩
  | cleared h =>
    rw [h, Function.update_of_ne hfingerprint, Function.update_of_ne hcross']
    exact ⟨rfl, rfl⟩
  | begun _ h | vouched _ h =>
    rw [h, Function.update_of_ne, Function.update_of_ne, Function.update_of_ne,
      Function.update_of_ne]
    · exact ⟨rfl, rfl⟩
    all_goals assumption

/-- A fingerprint of the class was there before, beside the source as it was, or it is a front of
the new one and beside the new source. -/
theorem Stage.own {directory stored : String} {t u : FileTree}
    (h : Stage directory className fingerprint source t u)
    (hstored : u.text? (t.fingerprintPlace directory className) = some stored) :
    t.text? (t.fingerprintPlace directory className) = some stored ∧
        u.text? (t.sourcePlace directory className) = t.text? (t.sourcePlace directory className) ∨
      stored.toList <+: (fingerprint.digest ++ "\n").toList ∧
        u.text? (t.sourcePlace directory className) = some source := by
  have hcross := fingerprintPlace_ne_sourcePlace t directory className className
  -- from the first change on there is no fingerprint until the source has been written
  cases h with
  | untouched h =>
    rw [h] at hstored ⊢
    exact .inl ⟨hstored, rfl⟩
  | cleared h =>
    rw [h, Function.update_self] at hstored
    cases hstored
  | begun hpart h =>
    rw [h, Function.update_of_ne hcross, Function.update_self] at hstored
    cases hstored
  | vouched hpart h =>
    rw [h, Function.update_self] at hstored
    cases hstored
    rw [h, Function.update_of_ne hcross.symm, Function.update_self]
    exact .inr ⟨hpart, rfl⟩

theorem of_fault {path : String} {answer : Except FileFault Unit}
    (h : fault path answer = .ok ()) : answer = .ok () := by
  unfold fault at h
  cases answer with
  | ok => rfl
  | error fault => cases h

/-- A step of a chain has gone somewhere, or the rest goes on from where it has succeeded. -/
theorem goes_of_bind {α β : Type} {x : ExceptT Error Script α} {k : α → ExceptT Error Script β}
    {r : Option (Except Error β)} (h : Script.Goes (x >>= k).run e r f) :
    (∃ r', x.run.Goes e r' f) ∨
      ∃ a e', x.run.Goes e (some (.ok a)) e' ∧ (k a).run.Goes e' r f := by
  rcases Goes.of_bind h with ⟨-, hx⟩ | ⟨a, e', hx, hk⟩
  · exact .inl ⟨none, hx⟩
  · cases a with
    | ok a => exact .inr ⟨a, e', hx, hk⟩
    | error err =>
      obtain ⟨rfl, -⟩ := Goes.of_done hk
      exact .inl ⟨_, hx⟩

theorem goes_of_makeDirectories {path path' : String} {r : Option (Except Error Unit)}
    (h : Script.Goes (ExceptT.mk do return fault path (← makeDirectories path')).run e r f) :
    e.files.SameFiles f.files := by
  rcases Goes.of_bind h with ⟨-, h⟩ | ⟨answer, e', h, hdone⟩
  · exact h.of_makeDirectories
  · obtain ⟨rfl, -⟩ := Goes.of_done hdone
    exact h.of_makeDirectories

/-- A file that is discarded was not there, or is removed. -/
theorem goes_of_discard {path : String} {r : Option (Except Error Unit)}
    (h : (discard path).Goes e r f) :
    f.files = e.files ∧ (r = some (.ok ()) → e.files.remove path = .error .absent) ∨
      e.files.remove path = .ok f.files := by
  rcases Goes.of_bind h with ⟨rfl, hstep⟩ | ⟨answer, e', hstep, hdone⟩
  · obtain ⟨answer, hstep, -⟩ := hstep.of_removeFile
    rcases hstep.files with ⟨hfiles, -, -⟩ | ⟨hremove, -⟩
    · exact .inl ⟨hfiles, nofun⟩
    · exact .inr hremove
  · obtain ⟨answer', hstep, hr | hr⟩ := hstep.of_removeFile
    · cases hr
    cases hr
    -- a file that is not there is as good as removed
    have hend : f = e' ∧ (r = some (.ok ()) → answer = .ok () ∨ answer = .error .absent) := by
      split at hdone
      · exact ⟨(Goes.of_done hdone).1, fun _ => .inr rfl⟩
      · obtain ⟨hf, hr⟩ := Goes.of_done hdone
        refine ⟨hf, fun hok => .inl ?_⟩
        subst hok
        rcases hr with hr | hr
        · cases hr
        · exact of_fault (Option.some.inj hr).symm
    obtain ⟨rfl, hok⟩ := hend
    rcases hstep.files with ⟨hfiles, hnotOk, habsent⟩ | ⟨hremove, -⟩
    · refine .inl ⟨hfiles, ?_⟩
      intro hr
      rcases hok hr with hanswer | hanswer
      · exact absurd hanswer hnotOk
      · exact habsent hanswer
    · exact .inr hremove

/-- A file is written as far as its text goes, or not at all. -/
theorem goes_of_writeFile {path path' text : String} {r : Option (Except Error Unit)}
    (h : Script.Goes (ExceptT.mk do return fault path' (← writeFile path text)).run e r f) :
    f.files = e.files ∧ r ≠ some (.ok ()) ∨
      ∃ part, part.toList <+: text.toList ∧ e.files.write path part = .ok f.files ∧
        (r = some (.ok ()) → part = text) := by
  rcases Goes.of_bind h with ⟨rfl, hstep⟩ | ⟨answer, e', hstep, hdone⟩
  · obtain ⟨answer, hstep, -⟩ := hstep.of_writeFile
    rcases hstep.files with ⟨hfiles, -⟩ | ⟨part, hpart, hwrite, -⟩
    · exact .inl ⟨hfiles, nofun⟩
    · exact .inr ⟨part, hpart, hwrite, nofun⟩
  · obtain ⟨answer', hstep, hr | hr⟩ := hstep.of_writeFile
    · cases hr
    cases hr
    obtain ⟨rfl, hr⟩ := Goes.of_done hdone
    -- what has been written is the whole text, if the request succeeds
    have hok : r = some (.ok ()) → answer = .ok () := by
      rintro rfl
      rcases hr with hr | hr
      · cases hr
      · exact of_fault (Option.some.inj hr).symm
    rcases hstep.files with ⟨hfiles, hnotOk⟩ | ⟨part, hpart, hwrite, hwhole⟩
    · exact .inl ⟨hfiles, fun hr => hnotOk (hok hr)⟩
    · exact .inr ⟨part, hpart, hwrite, fun hr => hwhole (hok hr)⟩

theorem goal_ne_nil {t : FileTree} {path : String} {place : List String} {name : String}
    (h : t.goal path = place ++ [name]) : t.goal path ≠ [] := by
  rw [h]
  simp

theorem text?_of_write_source (h : isTypeName className = true) {t u : FileTree} {part : String}
    (hwrite : t.write (c.sourcePath className) part = .ok u) :
    u.text? = Function.update t.text? (t.sourcePlace c.directory className) (some part) := by
  have hgoal := goal_sourcePath (c := c) h t
  rw [write_eq_ok hwrite, text?_put t (goal_ne_nil hgoal), hgoal]

theorem text?_of_write_fingerprint (h : isTypeName className = true) {t u : FileTree}
    {part : String} (hwrite : t.write (c.fingerprintPath className) part = .ok u) :
    u.text? = Function.update t.text? (t.fingerprintPlace c.directory className) (some part) := by
  have hgoal := goal_fingerprintPath (c := c) h t
  rw [write_eq_ok hwrite, text?_put t (goal_ne_nil hgoal), hgoal]

theorem text?_of_remove_fingerprint (h : isTypeName className = true) {t u : FileTree}
    (hremove : t.remove (c.fingerprintPath className) = .ok u) :
    u.text? = Function.update t.text? (t.fingerprintPlace c.directory className) none := by
  have hgoal := goal_fingerprintPath (c := c) h t
  rw [remove_eq_ok hremove, text?_erase t (goal_ne_nil hgoal), hgoal]

/-- When there was no fingerprint to remove, removing it has changed nothing, as far as anybody can
tell who has written the source since. -/
theorem text?_of_absent (h : isTypeName className = true) {t u : FileTree} {part : String}
    (hremove : t.remove (c.fingerprintPath className) = .error .absent)
    (hwrite : t.write (c.sourcePath className) part = .ok u) :
    Function.update t.text? (t.fingerprintPlace c.directory className) none = t.text? := by
  have hnone : t.get? (t.fingerprintPlace c.directory className) = none :=
    get?_of_remove_absent (isName_append h (by decide) (by decide))
      (isName_append h (by decide) (by decide)) hwrite hremove
  apply Function.update_eq_self_iff.2
  unfold text?
  rw [hnone]

/-- Whatever becomes of storing a source, it ends in one of the stages. -/
theorem stage_of_store (hname : isTypeName className = true) {r : Option (Except Error Unit)}
    (h : Script.Goes (c.store className fingerprint source).run e r f) :
    Stage c.directory className fingerprint source e.files f.files := by
  unfold store at h
  -- the directories
  rcases goes_of_bind h with ⟨r₁, h₁⟩ | ⟨⟨⟩, e₁, h₁, h⟩
  · exact .untouched (goes_of_makeDirectories h₁).texts
  obtain ⟨hhere₁, htexts₁⟩ := goes_of_makeDirectories h₁
  have hfingerprint := fingerprintPlace_congr hhere₁ c.directory className
  have hsource := sourcePlace_congr hhere₁ c.directory className
  -- the old fingerprint
  have hdiscarded {r₂ : Option (Except Error Unit)} {e₂ : Effects}
      (h₂ : (discard (c.fingerprintPath className)).Goes e₁ r₂ e₂) :
      Stage c.directory className fingerprint source e.files e₂.files := by
    rcases goes_of_discard h₂ with ⟨hfiles, -⟩ | hremove
    · exact .untouched (by rw [hfiles, htexts₁])
    · exact .cleared (by rw [text?_of_remove_fingerprint hname hremove, htexts₁, hfingerprint])
  rcases goes_of_bind h with ⟨r₂, h₂⟩ | ⟨⟨⟩, e₂, h₂, h⟩
  · exact hdiscarded h₂
  have hhere₂ : e₂.files.here = e₁.files.here := Goes.here h₂
  have hsource₂ := (sourcePlace_congr hhere₂ c.directory className).trans hsource
  have hfingerprint₂ := (fingerprintPlace_congr hhere₂ c.directory className).trans hfingerprint
  -- once anything of the source is written, the old fingerprint is gone for certain
  have hcleared {part : String} {t : FileTree}
      (hwrite : e₂.files.write (c.sourcePath className) part = .ok t) :
      t.text? = Function.update
        (Function.update e.files.text? (e.files.fingerprintPlace c.directory className) none)
        (e.files.sourcePlace c.directory className) (some part) := by
    rw [text?_of_write_source hname hwrite, hsource₂]
    rcases goes_of_discard h₂ with ⟨hfiles, habsent⟩ | hremove
    · rw [hfiles] at hwrite
      rw [hfiles, ← text?_of_absent hname (habsent rfl) hwrite, htexts₁, hfingerprint]
    · rw [text?_of_remove_fingerprint hname hremove, htexts₁, hfingerprint]
  -- the source
  have hbegun {r₃ : Option (Except Error Unit)} {e₃ : Effects}
      (h₃ : Script.Goes (ExceptT.mk do
        return fault (c.sourcePath className) (← writeFile (c.sourcePath className) source)).run
        e₂ r₃ e₃) : Stage c.directory className fingerprint source e.files e₃.files := by
    rcases goes_of_writeFile h₃ with ⟨hfiles, -⟩ | ⟨part, hpart, hwrite, -⟩
    · rw [hfiles]
      exact hdiscarded h₂
    · exact .begun hpart (hcleared hwrite)
  rcases goes_of_bind h with ⟨r₃, h₃⟩ | ⟨⟨⟩, e₃, h₃, h₄⟩
  · exact hbegun h₃
  have hfingerprint₃ : e₃.files.fingerprintPlace c.directory className =
      e.files.fingerprintPlace c.directory className :=
    (fingerprintPlace_congr (Goes.here h₃) c.directory className).trans hfingerprint₂
  -- the new fingerprint
  rcases goes_of_writeFile h₄ with ⟨hfiles, -⟩ | ⟨part, hpart, hwrite, -⟩
  · rw [hfiles]
    exact hbegun h₃
  · rcases goes_of_writeFile h₃ with ⟨-, hnotOk⟩ | ⟨whole, -, hwritten, hwhole⟩
    · exact absurd rfl hnotOk
    · refine .vouched hpart ?_
      rw [text?_of_write_fingerprint hname hwrite, hcleared hwritten, hwhole rfl, hfingerprint₃,
        Function.update_comm (fingerprintPlace_ne_sourcePlace _ _ _ _), Function.update_idem]

/-! ### Calls

A call of the cache either finds a source, or generates one and stores it. -/

/-- Looking for a source reads two files. -/
theorem goes_of_find {r : Option (Option String)}
    (h : (c.find className fingerprint).Goes e r f) :
    f = e ∧ ∀ s, r = some (some s) → ∃ stored,
      e.files.read (c.fingerprintPath className) = .ok stored ∧
        Fingerprint.ofStored stored = fingerprint ∧
        e.files.read (c.sourcePath className) = .ok s := by
  rcases Goes.of_bind h with ⟨rfl, hread⟩ | ⟨answer, e', hread, hrest⟩
  · exact ⟨hread.of_readFile.1, nofun⟩
  obtain ⟨rfl, hanswer⟩ := hread.of_readFile
  have hstored := hanswer answer rfl
  cases answer with
  | error fault =>
    obtain ⟨rfl, hr⟩ := Goes.of_done hrest
    refine ⟨rfl, ?_⟩
    rintro s rfl
    rcases hr with hr | hr <;> cases hr
  | ok stored =>
    -- the source is read only when the stored fingerprint is the one asked for
    by_cases hmatch : Fingerprint.ofStored stored = fingerprint
    · simp only [hmatch, if_true] at hrest
      rcases Goes.of_bind hrest with ⟨rfl, hread⟩ | ⟨answer, e', hread, hdone⟩
      · exact ⟨hread.of_readFile.1, nofun⟩
      · obtain ⟨rfl, hanswer⟩ := hread.of_readFile
        obtain ⟨rfl, hr⟩ := Goes.of_done hdone
        refine ⟨rfl, ?_⟩
        rintro s rfl
        rcases hr with hr | hr
        · cases hr
        · have hok : answer = .ok s := toOption_eq_some_iff.1 (Option.some.inj hr).symm
          exact ⟨stored, hstored.read_eq, hmatch, (hanswer (.ok s) (by rw [hok])).read_eq⟩
    · simp only [hmatch, if_false] at hrest
      obtain ⟨rfl, hr⟩ := Goes.of_done hrest
      refine ⟨rfl, ?_⟩
      rintro s rfl
      rcases hr with hr | hr <;> cases hr

variable {g : Generator} {package : String} {r : Option (Cache × Except Error String)}

/-- What is told of a source that was to be stored is that source, or an error. -/
theorem goes_of_keep (c : Cache) (hname : isTypeName className = true)
    (h : Script.Goes (do
      match ← (c.store className fingerprint source).run with
      | .error err => return (c, .error err)
      | .ok () => return (c, .ok source)) e r f) :
    Stage c.directory className fingerprint source e.files f.files ∧
      ∀ c' s, r = some (c', .ok s) → s = source := by
  -- it may stop while storing, and then nothing is told
  rcases Goes.of_bind h with ⟨rfl, hstore⟩ | ⟨answer, e₁, hstore, hdone⟩
  · exact ⟨stage_of_store hname hstore, nofun⟩
  · cases answer with
    | error err =>
      obtain ⟨rfl, hr⟩ := Goes.of_done hdone
      refine ⟨stage_of_store hname hstore, ?_⟩
      rintro c' s rfl
      rcases hr with hr | hr <;> cases hr
    | ok =>
      obtain ⟨rfl, hr⟩ := Goes.of_done hdone
      refine ⟨stage_of_store hname hstore, ?_⟩
      rintro c' s rfl
      rcases hr with hr | hr
      · cases hr
      · cases hr
        rfl

/-- A generation that fails changes nothing, and its error is told.  One that succeeds is stored in
some stage, and no other source is told. -/
theorem goes_of_renew (hname : isTypeName className = true)
    (h : (c.renew g package className).Goes e r f) :
    (∃ err, g.source package className = .error err ∧ f = e ∧
        ∀ c' s, r ≠ some (c', .ok s)) ∨
      ∃ source, g.source package className = .ok source ∧
        Stage c.directory className (g.fingerprint package className) source e.files f.files ∧
        ∀ c' s, r = some (c', .ok s) → s = source := by
  unfold renew at h
  cases hsource : g.source package className with
  | error err =>
    rw [hsource] at h
    obtain ⟨rfl, hr⟩ := Goes.of_done h
    refine .inl ⟨err, rfl, rfl, ?_⟩
    rintro c' s rfl
    rcases hr with hr | hr <;> cases hr
  | ok source =>
    rw [hsource] at h
    refine .inr ⟨source, rfl, ?_⟩
    dsimp only at h
    split at h
    -- printing does not touch the files
    · rcases Goes.of_bind h with ⟨rfl, hsay⟩ | ⟨⟨⟩, e₁, hsay, hstore⟩
      · exact ⟨.untouched (by rw [hsay.of_say]), nofun⟩
      · rw [← hsay.of_say]
        exact goes_of_keep { c with generations := c.generations + 1 } hname hstore
    · exact goes_of_keep { c with generations := c.generations + 1 } hname h

/-- A call takes the source that it finds, if it may, or makes it anew. -/
theorem goes_of_generate (hname : isTypeName className = true)
    (h : (c.generate g package className).Goes e r f) :
    f = e ∧ (∀ c' s, r = some (c', .ok s) →
        (c.find className (g.fingerprint package className)).Goes e (some (some s)) e) ∨
      (c.renew g package className).Goes e r f := by
  unfold generate at h
  rw [if_pos hname] at h
  dsimp only at h
  split at h
  -- the cache may be used: the search changes nothing, whether it is cut short or not
  · rcases Goes.of_bind h with ⟨rfl, hfind⟩ | ⟨found, e₁, hfind, hrest⟩
    · exact .inl ⟨(goes_of_find hfind).1, nofun⟩
    · obtain ⟨rfl, -⟩ := goes_of_find hfind
      cases found with
      | none => exact .inr hrest
      | some source =>
        obtain ⟨rfl, hr⟩ := Goes.of_done hrest
        refine .inl ⟨rfl, ?_⟩
        rintro c' s rfl
        rcases hr with hr | hr
        · cases hr
        · cases hr
          exact hfind
  · exact .inr h

end Cache
end TaggedWire
