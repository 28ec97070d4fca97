/-!
# Paths

A path is a text whose components are separated by solidi.  Empty components and single points say
nothing, except that a path which opens with a solidus is absolute.

* `extension?`: what follows the last point of the last component.
-/

namespace TaggedWire.Path

/-- The parts of a list between the separators. -/
def splitOn (separator : Char) : List Char → List (List Char)
  | [] => [[]]
  | c :: cs =>
    if c = separator then [] :: splitOn separator cs
    else
      match splitOn separator cs with
      | part :: parts => (c :: part) :: parts
      | [] => [[c]]

/-- The steps of a path from directory to directory; a single point stays where it is. -/
def steps (path : String) : List String :=
  ((splitOn '/' path.toList).map String.ofList).filter (· ≠ "")

/-- The components of a path that say something. -/
def components (path : String) : List String := (steps path).filter (· ≠ ".")

/-- The path ends with a point, so what is before that has to be a directory already. -/
def endsInPoint (path : String) : Bool := (steps path).getLast? == some "."

/-- The components before the last. -/
def leading (path : String) : List String := (components path).dropLast

/-- The path starts at the root. -/
def isAbsolute (path : String) : Bool := path.toList.head? == some '/'

/-- The path of the directory that the last component is in. -/
def parent (path : String) : String :=
  (if isAbsolute path then "/" else "") ++ "/".intercalate (leading path)

/-- The extension of the last component: what follows its last point, unless that opens it. -/
def extension? (path : String) : Option String := do
  let last ← (components path).getLast?
  let reversed := last.toList.reverse
  if last = ".." ∨ (reversed.dropWhile (· ≠ '.')).length ≤ 1 then none
  else some (String.ofList (reversed.takeWhile (· ≠ '.')).reverse)

/-- A path inside a directory; an absolute path stands for itself. -/
def join (directory path : String) : String :=
  if isAbsolute path ∨ directory = "" then path
  else if directory.toList.getLast? = some '/' then directory ++ path
  else directory ++ "/" ++ path

end TaggedWire.Path
