import TaggedWire.Files.Fault
import TaggedWire.Files.Path
import TaggedWire.Text.Sorted

/-!
# Trees of files

A tree holds texts and directories at places.  A place is the list of the names on the way from the
top; a path leads to one step by step, and every step has to start from a directory.

* `get?_put`, `get?_erase`: a change is seen at its own place and nowhere else.
-/

namespace TaggedWire

/-- What is at a place. -/
inductive FileEntry where
  | file (text : String)
  | directory
  deriving DecidableEq, Repr

/-- Files and directories, and the directory in which relative paths start. -/
structure FileTree where
  entries : List (List String × FileEntry) := []
  here : List String := []
  deriving DecidableEq

namespace FileTree

/-- An empty directory with a name, in which relative paths start. -/
def fresh (name : String) : FileTree := { entries := [([name], .directory)], here := [name] }

/-- What is at a place.  The top is always a directory. -/
def get? (t : FileTree) (place : List String) : Option FileEntry :=
  if place = [] then some .directory else (t.entries.find? (·.1 = place)).map (·.2)

/-- Put an entry at a place, instead of what was there. -/
def put (t : FileTree) (place : List String) (entry : FileEntry) : FileTree :=
  { t with entries := (place, entry) :: t.entries.filter (·.1 ≠ place) }

/-- Remove what is at a place. -/
def erase (t : FileTree) (place : List String) : FileTree :=
  { t with entries := t.entries.filter (·.1 ≠ place) }

/-- The entry found for a place among others is the one found before these were removed. -/
theorem find?_filter_ne {place other : List String} (h : place ≠ other)
    (entries : List (List String × FileEntry)) :
    (entries.filter (·.1 ≠ place)).find? (·.1 = other) = entries.find? (·.1 = other) := by
  rw [List.find?_filter]
  congr 1
  funext e
  by_cases he : e.1 = other
  · simp [he, h.symm]
  · simp [he]

theorem get?_put (t : FileTree) (place other : List String) (entry : FileEntry)
    (hplace : place ≠ []) :
    (t.put place entry).get? other = if place = other then some entry else t.get? other := by
  unfold get? put
  by_cases h : place = other
  · subst h
    simp [hplace]
  · simp only [h, List.find?_cons, decide_false, if_false, find?_filter_ne h]

theorem get?_erase (t : FileTree) (place other : List String) (hplace : place ≠ []) :
    (t.erase place).get? other = if place = other then none else t.get? other := by
  unfold get? erase
  by_cases h : place = other
  · subst h
    simp [hplace]
  · simp only [h, if_false, find?_filter_ne h]

/-! ### From paths to places -/

/-- The most bytes that a name may have. -/
def maxNameSize : Nat := 255

/-- The most bytes that a path may have. -/
def maxPathSize : Nat := 4095

/-- One step from a directory. -/
def step (place : List String) (name : String) : List String :=
  if name = ".." then place.dropLast else if name = "." then place else place ++ [name]

/-- Walk from a place along names. -/
def walk (t : FileTree) (place : List String) : List String → Except FileFault (List String)
  | [] => .ok place
  | name :: rest =>
    match t.get? place with
    | none => .error .absent
    | some (.file _) => .error .notDirectory
    | some .directory =>
      if name.utf8ByteSize > maxNameSize then .error .badName
      else t.walk (step place name) rest

/-- The place where a path starts. -/
def start (t : FileTree) (path : String) : List String :=
  if Path.isAbsolute path then [] else t.here

/-- A path that can name something. -/
def admits (path : String) : Except FileFault Unit :=
  if path = "" then .error .absent
  else if path.utf8ByteSize > maxPathSize ∨ path.toList.contains '\x00' then .error .badName
  else .ok ()

/-- The path ends with a solidus, so it names a directory. -/
def asksForDirectory (path : String) : Bool := path.toList.getLast? == some '/'

/-- The place that a path leads to.  All before it are directories; at the place itself there may be
nothing. -/
def locate (t : FileTree) (path : String) : Except FileFault (List String) := do
  admits path
  let place ← t.walk (t.start path) (Path.steps path)
  match t.get? place with
  | some (.file _) => if asksForDirectory path then .error .notDirectory else return place
  | _ => return place

/-- What a path leads to. -/
def find? (t : FileTree) (path : String) : Option FileEntry :=
  match t.locate path with
  | .ok place => t.get? place
  | .error _ => none

/-! ### Operations -/

/-- The text of a file. -/
def read (t : FileTree) (path : String) : Except FileFault String := do
  match t.get? (← t.locate path) with
  | some (.file text) => return text
  | some .directory => .error .isDirectory
  | none => .error .absent

/-- Write a file, in place of one that is there. -/
def write (t : FileTree) (path text : String) : Except FileFault FileTree := do
  let place ← t.locate path
  match t.get? place with
  | some .directory => .error .isDirectory
  | some (.file _) => return t.put place (.file text)
  | none => if asksForDirectory path then .error .isDirectory else return t.put place (.file text)

/-- Remove a file. -/
def remove (t : FileTree) (path : String) : Except FileFault FileTree := do
  let place ← t.locate path
  match t.get? place with
  | some (.file _) => return t.erase place
  | some .directory => .error .isDirectory
  | none => .error .absent

/-- Walk from a place along names and make the directories that are missing.  What is made before a
fault remains. -/
def makeWay (t : FileTree) (place : List String) : List String → FileTree × Except FileFault Unit
  | [] => (t, .ok ())
  | name :: rest =>
    if name.utf8ByteSize > maxNameSize then (t, .error .badName)
    else
      let next := step place name
      match t.get? next with
      | some .directory => t.makeWay next rest
      | some (.file _) => (t, .error (if rest = [] then .occupied else .notDirectory))
      | none => (t.put next .directory).makeWay next rest

/-- The path leads to a directory. -/
def requireDirectory (t : FileTree) (path : String) : Except FileFault Unit := do
  match t.get? (← t.locate path) with
  | some .directory => .ok ()
  | some (.file _) => .error .notDirectory
  | none => .error .absent

/-- Make a directory and those before it, as far as they are missing.  Nothing is asked for by the
empty path.  A point at the end names nothing that could be made, so what it stands in is not made
either, but has to be there. -/
def createDirectories (t : FileTree) (path : String) : FileTree × Except FileFault Unit :=
  if path = "" then (t, .ok ())
  else
    match admits path with
    | .error fault => (t, .error fault)
    | .ok () =>
      if Path.endsInPoint path then
        match t.makeWay (t.start path) (Path.leading path) with
        | (t, .ok ()) => (t, t.requireDirectory path)
        | (t, .error fault) => (t, .error fault)
      else t.makeWay (t.start path) (Path.steps path)

/-- The names in a directory, in order. -/
def names? (t : FileTree) (path : String) : Option (List String) :=
  match t.locate path with
  | .error _ => none
  | .ok place =>
    if t.get? place = some .directory then
      some (sortTexts (t.entries.filterMap fun (p, _) =>
        if p.dropLast = place then p.getLast? else none))
    else none

end FileTree
end TaggedWire
