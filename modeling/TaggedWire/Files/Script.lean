import TaggedWire.Files.Tree

/-!
# Scripts over files

A script asks for one thing after another: to read, write or remove a file, to make directories, to
print.  What it asks for next may depend on the answers.  It does nothing by itself, so it can be
run on a tree of files as well as on those of a machine.

* `run_bind`: a script that goes on with another runs one after the other.
-/

namespace TaggedWire

/-- Requests that end in a result. -/
inductive Script (α : Type) where
  | done (result : α)
  | read (path : String) (next : Except FileFault String → Script α)
  | write (path text : String) (next : Except FileFault Unit → Script α)
  | remove (path : String) (next : Except FileFault Unit → Script α)
  | createDirectories (path : String) (next : Except FileFault Unit → Script α)
  | print (text : String) (next : Script α)
  | printError (text : String) (next : Script α)

namespace Script

/-- Go on with another script when a result is there. -/
def bind : Script α → (α → Script β) → Script β
  | done a, k => k a
  | read path next, k => read path fun r => (next r).bind k
  | write path text next, k => write path text fun r => (next r).bind k
  | remove path next, k => remove path fun r => (next r).bind k
  | createDirectories path next, k => createDirectories path fun r => (next r).bind k
  | print text next, k => print text (next.bind k)
  | printError text next, k => printError text (next.bind k)

instance : Monad Script where
  pure := done
  bind := bind

theorem bind_done (s : Script α) : s.bind done = s := by
  induction s <;> simp_all [bind]

theorem bind_assoc (s : Script α) (k : α → Script β) (l : β → Script γ) :
    (s.bind k).bind l = s.bind fun a => (k a).bind l := by
  induction s <;> simp_all [bind]

instance : LawfulMonad Script := LawfulMonad.mk' Script bind_done (fun _ _ => rfl) bind_assoc

/-! ### Single requests -/

/-- Read a file. -/
def readFile (path : String) : Script (Except FileFault String) := read path done

/-- Write a file. -/
def writeFile (path text : String) : Script (Except FileFault Unit) := write path text done

/-- Remove a file. -/
def removeFile (path : String) : Script (Except FileFault Unit) := remove path done

/-- Make a directory and those before it. -/
def makeDirectories (path : String) : Script (Except FileFault Unit) := createDirectories path done

/-- Print a text. -/
def say (text : String) : Script Unit := print text (done ())

/-- Print a text for errors. -/
def complain (text : String) : Script Unit := printError text (done ())

/-! ### Running on a tree -/

end Script

/-- What scripts leave behind. -/
structure Effects where
  files : FileTree := {}
  output : String := ""
  errorOutput : String := ""
  deriving DecidableEq

namespace Effects

/-- Take up a changed tree, unless the change failed. -/
def change (e : Effects) (r : Except FileFault FileTree) : Effects × Except FileFault Unit :=
  match r with
  | .ok files => ({ e with files := files }, .ok ())
  | .error fault => (e, .error fault)

/-- Make directories. -/
def createDirectories (e : Effects) (path : String) : Effects × Except FileFault Unit :=
  let (files, r) := e.files.createDirectories path
  ({ e with files := files }, r)

/-- Print a text. -/
def print (e : Effects) (text : String) : Effects := { e with output := e.output ++ text }

/-- Print a text for errors. -/
def printError (e : Effects) (text : String) : Effects :=
  { e with errorOutput := e.errorOutput ++ text }

end Effects

namespace Script

/-- Run a script on a tree. -/
def run : Script α → Effects → α × Effects
  | done a, e => (a, e)
  | read path next, e => (next (e.files.read path)).run e
  | write path text next, e =>
    let (e, r) := e.change (e.files.write path text)
    (next r).run e
  | remove path next, e =>
    let (e, r) := e.change (e.files.remove path)
    (next r).run e
  | createDirectories path next, e =>
    let (e, r) := e.createDirectories path
    (next r).run e
  | print text next, e => next.run (e.print text)
  | printError text next, e => next.run (e.printError text)

theorem run_bind (s : Script α) (k : α → Script β) (e : Effects) :
    (s.bind k).run e = (k (s.run e).1).run (s.run e).2 := by
  induction s generalizing e <;> simp_all [bind, run]

end Script
end TaggedWire
