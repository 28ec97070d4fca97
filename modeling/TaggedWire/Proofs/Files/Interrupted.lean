import TaggedWire.Files.Script
import TaggedWire.Proofs.Files.Places

/-!
# Scripts that are interrupted

A machine does not always do what a script asks for.  A request may fail for any reason, a text may
be written in part, and everything may stop between two requests.  `Script.Goes` relates a script
to all that may become of it; the run on a tree is one of these.

* `goes_run`: a script may go as it runs on a tree.
* `Goes.of_bind`: of two scripts in a row the first has stopped, or the second goes on from it.
* `Goes.here`: no script moves the directory in which relative paths start.
-/

namespace TaggedWire

namespace Effects

variable {e f : Effects} {path text : String} {answer : Except FileFault Unit}

/-! ### Requests that may fail

A request may fail although it could succeed, or stop the whole script.  Writing may end at any part
of the text. -/

/-- The text of a file is told, or a fault. -/
inductive Reads (e : Effects) (path : String) : Except FileFault String → Prop
  | done : e.Reads path (e.files.read path)
  | failed (fault : FileFault) : e.Reads path (.error fault)

/-- A file is written, or nothing is, or what is written is only the front of the text. -/
inductive Writes (e : Effects) (path text : String) : Except FileFault Unit → Effects → Prop
  | done {answer : Except FileFault Unit} {f : Effects}
    (h : e.change (e.files.write path text) = (f, answer)) : e.Writes path text answer f
  | failed (fault : FileFault) : e.Writes path text (.error fault) e
  | cutShort (fault : FileFault) {part : String} {files : FileTree}
    (hpart : part.toList <+: text.toList) (h : e.files.write path part = .ok files) :
    e.Writes path text (.error fault) { e with files := files }

/-- A file is removed, or a fault is told.  That a file is absent is only said of one that is. -/
inductive Removes (e : Effects) (path : String) : Except FileFault Unit → Effects → Prop
  | done {answer : Except FileFault Unit} {f : Effects}
    (h : e.change (e.files.remove path) = (f, answer)) : e.Removes path answer f
  | failed {fault : FileFault} (hfault : fault ≠ .absent) : e.Removes path (.error fault) e
  | late {fault : FileFault} {files : FileTree} (hfault : fault ≠ .absent)
    (h : e.files.remove path = .ok files) : e.Removes path (.error fault) { e with files := files }

/-- Directories are made, or a fault is told and only some of them are. -/
inductive Makes (e : Effects) (path : String) : Except FileFault Unit → Effects → Prop
  | done {answer : Except FileFault Unit} {f : Effects}
    (h : e.createDirectories path = (f, answer)) : e.Makes path answer f
  | failed (fault : FileFault) {files : FileTree} (h : e.files.SameFiles files) :
    e.Makes path (.error fault) { e with files := files }

theorem change_eq {r : Except FileFault FileTree} (h : e.change r = (f, answer)) :
    r = .ok f.files ∧ answer = .ok () ∨
      ∃ fault, r = .error fault ∧ f = e ∧ answer = .error fault := by
  unfold change at h
  cases r with
  | error fault =>
    cases h
    exact .inr ⟨fault, rfl, rfl, rfl⟩
  | ok files =>
    cases h
    exact .inl ⟨rfl, rfl⟩

theorem Reads.read_eq {s : String} (h : e.Reads path (.ok s)) : e.files.read path = .ok s := by
  generalize hanswer : Except.ok (ε := FileFault) s = answer at h
  cases h with
  | done => rfl
  | failed fault => cases hanswer

/-- Either nothing is written, or a front of the text, and all of it if that is what is told. -/
theorem Writes.files (h : e.Writes path text answer f) :
    f.files = e.files ∧ answer ≠ .ok () ∨
      ∃ part, part.toList <+: text.toList ∧ e.files.write path part = .ok f.files ∧
        (answer = .ok () → part = text) := by
  cases h with
  | done h =>
    rcases change_eq h with ⟨hwrite, rfl⟩ | ⟨fault, -, rfl, rfl⟩
    · exact .inr ⟨text, List.prefix_rfl, hwrite, fun _ => rfl⟩
    · exact .inl ⟨rfl, nofun⟩
  | failed fault => exact .inl ⟨rfl, nofun⟩
  | cutShort fault hpart h => exact .inr ⟨_, hpart, h, nofun⟩

/-- Either nothing is removed, or the file is. -/
theorem Removes.files (h : e.Removes path answer f) :
    f.files = e.files ∧ answer ≠ .ok () ∧
        (answer = .error .absent → e.files.remove path = .error .absent) ∨
      e.files.remove path = .ok f.files ∧ answer ≠ .error .absent := by
  cases h with
  | done h =>
    rcases change_eq h with ⟨hremove, rfl⟩ | ⟨fault, hremove, rfl, rfl⟩
    · exact .inr ⟨hremove, nofun⟩
    · exact .inl ⟨rfl, nofun, fun h => by rw [hremove, Except.error.inj h]⟩
  | failed hfault => exact .inl ⟨rfl, nofun, fun h => absurd (Except.error.inj h) hfault⟩
  | late hfault h => exact .inr ⟨h, fun h => hfault (Except.error.inj h)⟩

theorem Makes.sameFiles (h : e.Makes path answer f) : e.files.SameFiles f.files := by
  cases h with
  | done h =>
    unfold createDirectories at h
    cases h
    exact FileTree.sameFiles_createDirectories e.files path
  | failed fault h => exact h

theorem Writes.here (h : e.Writes path text answer f) : f.files.here = e.files.here := by
  rcases h.files with ⟨h, -⟩ | ⟨part, -, h, -⟩
  · rw [h]
  · rw [FileTree.write_eq_ok h]
    rfl

theorem Removes.here (h : e.Removes path answer f) : f.files.here = e.files.here := by
  rcases h.files with ⟨h, -, -⟩ | ⟨h, -⟩
  · rw [h]
  · rw [FileTree.remove_eq_ok h]
    rfl

end Effects

namespace Script

variable {α β : Type} {e f : Effects} {path text : String}

/-! ### What may become of a script

`Goes` follows a script request by request.  Where a script is put together of two, what becomes of
it is what becomes of the first, or of both. -/

/-- A script may go from some effects to others, with a result unless it is stopped on the way. -/
inductive Goes : Script α → Effects → Option α → Effects → Prop
  | done (a : α) (e : Effects) : Goes (.done a) e (some a) e
  | stopped (s : Script α) (e : Effects) : Goes s e none e
  | read {path : String} {next : Except FileFault String → Script α} {e f : Effects} {r : Option α}
    {answer : Except FileFault String} (h : e.Reads path answer)
    (hnext : (next answer).Goes e r f) : Goes (.read path next) e r f
  | write {path text : String} {next : Except FileFault Unit → Script α} {e e' f : Effects}
    {r : Option α} {answer : Except FileFault Unit} (h : e.Writes path text answer e')
    (hnext : (next answer).Goes e' r f) : Goes (.write path text next) e r f
  | remove {path : String} {next : Except FileFault Unit → Script α} {e e' f : Effects}
    {r : Option α} {answer : Except FileFault Unit} (h : e.Removes path answer e')
    (hnext : (next answer).Goes e' r f) : Goes (.remove path next) e r f
  | createDirectories {path : String} {next : Except FileFault Unit → Script α} {e e' f : Effects}
    {r : Option α} {answer : Except FileFault Unit} (h : e.Makes path answer e')
    (hnext : (next answer).Goes e' r f) : Goes (.createDirectories path next) e r f
  | print {text : String} {next : Script α} {e f : Effects} {r : Option α}
    (hnext : next.Goes (e.print text) r f) : Goes (.print text next) e r f
  | printError {text : String} {next : Script α} {e f : Effects} {r : Option α}
    (hnext : next.Goes (e.printError text) r f) : Goes (.printError text next) e r f

/-- A script may go all the way. -/
theorem goes_run (s : Script α) (e : Effects) : s.Goes e (some (s.run e).1) (s.run e).2 := by
  induction s generalizing e with
  | done a => exact .done a e
  | read path next ih => exact .read .done (ih _ e)
  | write path text next ih => exact .write (.done rfl) (ih _ _)
  | remove path next ih => exact .remove (.done rfl) (ih _ _)
  | createDirectories path next ih => exact .createDirectories (.done rfl) (ih _ _)
  | print text next ih => exact .print (ih _)
  | printError text next ih => exact .printError (ih _)

theorem Goes.here {s : Script α} {r : Option α} (h : s.Goes e r f) :
    f.files.here = e.files.here := by
  induction h with
  | done a e => rfl
  | stopped s e => rfl
  | read _ _ ih => exact ih
  | write h _ ih => exact ih.trans h.here
  | remove h _ ih => exact ih.trans h.here
  | createDirectories h _ ih => exact ih.trans h.sameFiles.here
  | print _ ih => exact ih
  | printError _ ih => exact ih

/-- A script in two parts stops in the first one, or goes on with the second. -/
theorem Goes.of_bind {s : Script α} {k : α → Script β} {r : Option β}
    (h : (s.bind k).Goes e r f) :
    r = none ∧ s.Goes e none f ∨ ∃ a e', s.Goes e (some a) e' ∧ (k a).Goes e' r f := by
  -- after the first request the rest of the script is again followed by the other one
  induction s generalizing e with
  | done a => exact .inr ⟨a, e, .done a e, h⟩
  | read path next ih =>
    cases h with
    | stopped => exact .inl ⟨rfl, .stopped _ _⟩
    | read h hnext =>
      rcases ih _ hnext with ⟨rfl, hs⟩ | ⟨a, e', hs, hk⟩
      · exact .inl ⟨rfl, .read h hs⟩
      · exact .inr ⟨a, e', .read h hs, hk⟩
  | write path text next ih =>
    cases h with
    | stopped => exact .inl ⟨rfl, .stopped _ _⟩
    | write h hnext =>
      rcases ih _ hnext with ⟨rfl, hs⟩ | ⟨a, e', hs, hk⟩
      · exact .inl ⟨rfl, .write h hs⟩
      · exact .inr ⟨a, e', .write h hs, hk⟩
  | remove path next ih =>
    cases h with
    | stopped => exact .inl ⟨rfl, .stopped _ _⟩
    | remove h hnext =>
      rcases ih _ hnext with ⟨rfl, hs⟩ | ⟨a, e', hs, hk⟩
      · exact .inl ⟨rfl, .remove h hs⟩
      · exact .inr ⟨a, e', .remove h hs, hk⟩
  | createDirectories path next ih =>
    cases h with
    | stopped => exact .inl ⟨rfl, .stopped _ _⟩
    | createDirectories h hnext =>
      rcases ih _ hnext with ⟨rfl, hs⟩ | ⟨a, e', hs, hk⟩
      · exact .inl ⟨rfl, .createDirectories h hs⟩
      · exact .inr ⟨a, e', .createDirectories h hs, hk⟩
  | print text next ih =>
    cases h with
    | stopped => exact .inl ⟨rfl, .stopped _ _⟩
    | print hnext =>
      rcases ih hnext with ⟨rfl, hs⟩ | ⟨a, e', hs, hk⟩
      · exact .inl ⟨rfl, .print hs⟩
      · exact .inr ⟨a, e', .print hs, hk⟩
  | printError text next ih =>
    cases h with
    | stopped => exact .inl ⟨rfl, .stopped _ _⟩
    | printError hnext =>
      rcases ih hnext with ⟨rfl, hs⟩ | ⟨a, e', hs, hk⟩
      · exact .inl ⟨rfl, .printError hs⟩
      · exact .inr ⟨a, e', .printError hs, hk⟩

/-! ### Single requests

What one request leaves of the files, read off its definition. -/

theorem Goes.of_done {a : α} {r : Option α} (h : (Script.done a).Goes e r f) :
    f = e ∧ (r = none ∨ r = some a) := by
  cases h with
  | done => exact ⟨rfl, .inr rfl⟩
  | stopped => exact ⟨rfl, .inl rfl⟩

theorem Goes.of_readFile {r : Option (Except FileFault String)} (h : (readFile path).Goes e r f) :
    f = e ∧ ∀ answer, r = some answer → e.Reads path answer := by
  cases h with
  | stopped => exact ⟨rfl, nofun⟩
  | read h hnext =>
    obtain ⟨rfl, rfl | rfl⟩ := hnext.of_done
    · exact ⟨rfl, nofun⟩
    · exact ⟨rfl, fun _ heq => Option.some.inj heq ▸ h⟩

/-- A file that is being written when everything stops is in one of the states in which a fault
would have been told. -/
theorem Goes.of_writeFile {r : Option (Except FileFault Unit)}
    (h : (writeFile path text).Goes e r f) :
    ∃ answer, e.Writes path text answer f ∧ (r = none ∨ r = some answer) := by
  cases h with
  | stopped => exact ⟨.error .absent, .failed _, .inl rfl⟩
  | write h hnext =>
    obtain ⟨rfl, hr⟩ := hnext.of_done
    exact ⟨_, h, hr⟩

theorem Goes.of_removeFile {r : Option (Except FileFault Unit)} (h : (removeFile path).Goes e r f) :
    ∃ answer, e.Removes path answer f ∧ (r = none ∨ r = some answer) := by
  cases h with
  | stopped => exact ⟨.error .isDirectory, .failed nofun, .inl rfl⟩
  | remove h hnext =>
    obtain ⟨rfl, hr⟩ := hnext.of_done
    exact ⟨_, h, hr⟩

theorem Goes.of_makeDirectories {r : Option (Except FileFault Unit)}
    (h : (makeDirectories path).Goes e r f) : e.files.SameFiles f.files := by
  cases h with
  | stopped => exact .refl _
  | createDirectories h hnext =>
    obtain ⟨rfl, -⟩ := hnext.of_done
    exact h.sameFiles

theorem Goes.of_say {r : Option Unit} (h : (say text).Goes e r f) : f.files = e.files := by
  cases h with
  | stopped => rfl
  | print hnext =>
    obtain ⟨rfl, -⟩ := hnext.of_done
    rfl

end Script
end TaggedWire
