import TaggedWire.Proofs.Generation.Determined
import TaggedWire.Proofs.Generation.Stored

/-!
# Caches over any number of calls

Calls of caches in one directory follow each other, for any targets, catalogs and settings, and each
may fail or stop anywhere on its way.  What they leave behind is always such that a fingerprint, as
far as it is written, vouches for the source beside it.  So nobody can tell a source that was stored
from one that is generated.

* `Session.vouched`: the invariant of the directory, after any calls.
* `Session.call_transparent`: what the next call may come to.
-/

namespace TaggedWire

/-! ### Calls

A call generates only when nothing is found, and it stores what it has generated. -/

/-- A call of a cache for the source of a target. -/
structure Call where
  cache : Cache
  generator : Generator
  package : String
  className : String

namespace Call

variable {q : Call} {e f : Effects}

/-- What the call asks for. -/
def script (q : Call) : Script (Cache × Except Error String) :=
  q.cache.generate q.generator q.package q.className

/-- What generation gives for the call. -/
def source (q : Call) : Except Error String := q.generator.source q.package q.className

/-- The bytes of which the fingerprint of the call is a digest. -/
def message (q : Call) : List UInt8 := q.generator.message q.package q.className

/-- The fingerprint of the call. -/
def fingerprint (q : Call) : Fingerprint := q.generator.fingerprint q.package q.className

/-- Looking for the source of the call finds one. -/
def Hits (q : Call) (e : Effects) (s : String) : Prop :=
  isTypeName q.className = true ∧
    ∃ f, (q.cache.find q.className q.fingerprint).Goes e (some (some s)) f

/-- A call changes nothing, and tells a source only if it finds it, or it stores what generation
gives in some stage. -/
theorem goes_cases {r : Option (Cache × Except Error String)} (h : q.script.Goes e r f) :
    f = e ∧ (∀ c s, r = some (c, .ok s) → q.Hits e s) ∨
      ∃ source, q.source = .ok source ∧
        Cache.Stage q.cache.directory q.className q.fingerprint source e.files f.files ∧
        ∀ c s, r = some (c, .ok s) → s = source := by
  unfold script at h
  by_cases hname : isTypeName q.className = true
  · rcases Cache.goes_of_generate hname h with ⟨rfl, hfound⟩ | hrenew
    · exact .inl ⟨rfl, fun c s hr => ⟨hname, f, hfound c s hr⟩⟩
    · rcases Cache.goes_of_renew hname hrenew with ⟨-, -, rfl, hnone⟩ | hstored
      · exact .inl ⟨rfl, fun c s hr => absurd hr (hnone c s)⟩
      · exact .inr hstored
  · rw [Cache.generate_of_not_isTypeName _ _ _ (Bool.not_eq_true _ ▸ hname)] at h
    obtain ⟨rfl, hr⟩ := h.of_done
    refine .inl ⟨rfl, ?_⟩
    rintro c s rfl
    rcases hr with hr | hr <;> cases hr

end Call

/-! ### What fingerprints vouch for

Every fingerprint in the directory, whole or not, is one of a call before, and the source beside it
is the one of that call.  A call keeps this, whatever becomes of it. -/

/-- Every fingerprint in a directory is, as far as it is written, that of a call which was to give
the source beside it. -/
def Vouched (directory : String) (past : List Call) (t : FileTree) : Prop :=
  ∀ className stored, t.text? (t.fingerprintPlace directory className) = some stored →
    ∃ q ∈ past, ∃ source, q.source = .ok source ∧
      stored.toList <+: (q.fingerprint.digest ++ "\n").toList ∧
      t.text? (t.sourcePlace directory className) = some source

namespace Vouched

variable {directory : String} {past : List Call} {t u : FileTree} {q : Call}

theorem cons (h : Vouched directory past t) (q : Call) : Vouched directory (q :: past) t := by
  intro className stored hstored
  obtain ⟨p, hp, hrest⟩ := h className stored hstored
  exact ⟨p, List.mem_cons_of_mem q hp, hrest⟩

/-- In each stage of storing a source every fingerprint is still vouched for. -/
theorem stage {source : String} (h : Vouched directory past t) (hhere : u.here = t.here)
    (hsource : q.source = .ok source)
    (hstage : Cache.Stage directory q.className q.fingerprint source t u) :
    Vouched directory (q :: past) u := by
  intro className stored hstored
  rw [FileTree.fingerprintPlace_congr hhere] at hstored
  rw [FileTree.sourcePlace_congr hhere]
  -- a fingerprint that was there before is vouched for as long as the source beside it is the same
  have hkept (hbefore : t.text? (t.fingerprintPlace directory className) = some stored)
      (hbeside : u.text? (t.sourcePlace directory className) =
        t.text? (t.sourcePlace directory className)) :
      ∃ p ∈ q :: past, ∃ source, p.source = .ok source ∧
        stored.toList <+: (p.fingerprint.digest ++ "\n").toList ∧
        u.text? (t.sourcePlace directory className) = some source := by
    rw [hbeside]
    exact h.cons q className stored hbefore
  -- of the class that is stored, or of another, whose files no stage touches
  by_cases hclass : className = q.className
  · subst hclass
    rcases hstage.own hstored with ⟨hbefore, hbeside⟩ | ⟨hpart, hnew⟩
    · exact hkept hbefore hbeside
    · exact ⟨q, List.mem_cons_self, source, hsource, hpart, hnew⟩
  · obtain ⟨hfingerprint, hbeside⟩ := hstage.elsewhere hclass
    exact hkept (hfingerprint ▸ hstored) hbeside

/-- A source that is found is the one that generation gives, unless two messages have one digest. -/
theorem hit {e : Effects} {s : String} (h : Vouched q.cache.directory past e.files)
    (hpast : ∀ p ∈ past, p.generator.catalog.Spelled) (hq : q.generator.catalog.Spelled)
    (hdigest : ∀ p ∈ past, Sha256.digest p.message = Sha256.digest q.message →
      p.message = q.message)
    (hhit : q.Hits e s) : q.source = .ok s := by
  obtain ⟨hname, f, hfind⟩ := hhit
  obtain ⟨stored, hstored, hmatch, hbeside⟩ := (Cache.goes_of_find hfind).2 s rfl
  have hstored := FileTree.text?_of_read hstored
  have hbeside := FileTree.text?_of_read hbeside
  rw [Cache.goal_fingerprintPath hname] at hstored
  rw [Cache.goal_sourcePath hname] at hbeside
  obtain ⟨p, hp, source, hsource, hpart, hfile⟩ := h q.className stored hstored
  -- what was read as this fingerprint is a whole one, and of a message that is the same
  have hhex : Sha256.hexDigest p.message = Sha256.hexDigest q.message :=
    Fingerprint.eq_of_stored hpart hmatch
  have hmessage : p.message = q.message := hdigest p hp (Sha256.hexDigest_inj.1 hhex)
  have hsame : q.source = .ok source := Generator.source_of_message (hpast p hp) hq hmessage hsource
  rw [hsame, ← Option.some.inj (hbeside.symm.trans hfile)]

end Vouched

/-! ### Sessions

A session is a list of calls, each of which may fail or stop; by induction the fingerprints vouch
for what they should after all of them. -/

/-- What calls of caches in a directory may have made of some effects; the last call comes first.
Each call may be interrupted in any way, and the next finds what it has left. -/
inductive Session (directory : String) (start : Effects) : List Call → Effects → Prop
  | start : Session directory start [] start
  | call {past : List Call} {q : Call} {e f : Effects} {r : Option (Cache × Except Error String)}
    (hpast : Session directory start past e) (hdirectory : q.cache.directory = directory)
    (hdocumented : q.generator.catalog.Documented) (h : q.script.Goes e r f) :
    Session directory start (q :: past) f

/-- There is nothing in the directory. -/
def FileTree.Vacant (t : FileTree) (directory : String) : Prop :=
  ∀ name, t.get? (t.goal directory ++ [name]) = none

namespace Session

variable {directory : String} {start e f : Effects} {past : List Call} {q : Call}

theorem documented (h : Session directory start past e) :
    ∀ p ∈ past, p.generator.catalog.Documented := by
  induction h with
  | start => simp
  | call _ _ hdocumented _ ih => exact List.forall_mem_cons.2 ⟨hdocumented, ih⟩

/-- After any calls in a directory that was empty, every fingerprint is vouched for. -/
theorem vouched (hvacant : start.files.Vacant directory) (h : Session directory start past e) :
    Vouched directory past e.files := by
  induction h with
  | start =>
    intro className stored hstored
    rw [FileTree.text?_eq_some, FileTree.fingerprintPlace, hvacant] at hstored
    cases hstored
  | @call past q e f r hpast hdirectory _ hgoes ih =>
    rcases Call.goes_cases hgoes with ⟨rfl, -⟩ | ⟨source, hsource, hstage, -⟩
    · exact ih.cons q
    · rw [hdirectory] at hstage
      exact ih.stage hgoes.here hsource hstage

/-- A call that tells a source tells the one that generation gives, a call whose generation fails
changes nothing, and what a call finds is what generation gives. -/
theorem call_transparent (hvacant : start.files.Vacant directory)
    (hsession : Session directory start past e) (hdirectory : q.cache.directory = directory)
    (hdocumented : q.generator.catalog.Documented)
    (hdigest : ∀ p ∈ past, Sha256.digest p.message = Sha256.digest q.message →
      p.message = q.message)
    {r : Option (Cache × Except Error String)} (h : q.script.Goes e r f) :
    (∀ c s, r = some (c, .ok s) → q.source = .ok s) ∧
      (∀ err, q.source = .error err → f = e) ∧ ∀ s, q.Hits e s → q.source = .ok s := by
  subst hdirectory
  -- what is found was stored by a call of the same message, and so of the same source
  have hhit (s : String) (hs : q.Hits e s) : q.source = .ok s :=
    (hsession.vouched hvacant).hit (fun p hp => (hsession.documented p hp).spelled)
      hdocumented.spelled hdigest hs
  refine ⟨?_, ?_, hhit⟩
  · intro c s hr
    rcases Call.goes_cases h with ⟨-, hfound⟩ | ⟨source, hsource, -, htold⟩
    · exact hhit s (hfound c s hr)
    · rw [hsource, htold c s hr]
  · intro err herr
    rcases Call.goes_cases h with ⟨rfl, -⟩ | ⟨source, hsource, -, -⟩
    · rfl
    · rw [herr] at hsource
      cases hsource

/-- A call for the plan of a catalog without types. -/
def bare : Call := ⟨{ directory := "cache" }, ⟨Catalog.empty, Table.empty⟩, "app", "Factory"⟩

/-- A directory in which nothing has been cached yet. -/
def fresh : Effects := { files := FileTree.fresh "work" }

/-- What such a call leaves behind. -/
def stocked : Effects := (bare.script.run fresh).2

/-- The second of two such calls finds what the first has stored, and that is what generation
gives. -/
theorem call_transparent_bare :
    ∃ f c s, Session "cache" fresh [bare] stocked ∧ bare.script.Goes stocked (some (c, .ok s)) f ∧
      c.generations = 0 ∧ bare.Hits stocked s ∧ bare.source = .ok s := by
  have hvacant : fresh.files.Vacant "cache" := by
    intro name
    simp [FileTree.get?, FileTree.goal, FileTree.start, fresh, FileTree.fresh, Path.isAbsolute,
      Path.steps, Path.splitOn, FileTree.step]
  have hdocumented : bare.generator.catalog.Documented :=
    .parse (show Catalog.parse .json "\x7b\x7d" = .ok Catalog.empty by decide +kernel)
  have hsession : Session "cache" fresh [bare] stocked :=
    .call .start rfl hdocumented (Script.goes_run bare.script fresh)
  have hdigest : ∀ p ∈ [bare], Sha256.digest p.message = Sha256.digest bare.message →
      p.message = bare.message := by
    intro p hp _
    rw [List.mem_singleton.1 hp]
  have hgoes := Script.goes_run bare.script stocked
  obtain ⟨-, -, hsource⟩ := call_transparent hvacant hsession rfl hdocumented hdigest hgoes
  -- the second call finds a source, and tells it
  obtain ⟨s, hs⟩ : ∃ s,
      ((bare.cache.find bare.className bare.fingerprint).run stocked).1 = some s :=
    Option.isSome_iff_exists.1 (by decide +kernel)
  have hfind := Script.goes_run (bare.cache.find bare.className bare.fingerprint) stocked
  rw [hs] at hfind
  have hhit : bare.Hits stocked s := ⟨by decide, _, hfind⟩
  have htold : (bare.script.run stocked).1.2.toOption =
      ((bare.cache.find bare.className bare.fingerprint).run stocked).1 := by
    decide +kernel
  have hcount : (bare.script.run stocked).1.1.generations = 0 := by
    decide +kernel
  rw [hs, toOption_eq_some_iff] at htold
  rcases hrun : bare.script.run stocked with ⟨⟨c, answer⟩, f⟩
  rw [hrun] at hgoes htold hcount
  cases htold
  exact ⟨f, c, s, hsession, hgoes, hcount, hhit, hsource s hhit⟩

end Session
end TaggedWire
