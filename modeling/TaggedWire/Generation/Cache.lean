import TaggedWire.Files.Script
import TaggedWire.Generation.Generator
import TaggedWire.Generation.Settings

/-!
# The cache of generated sources

A class owns two files in the directory of the cache: the source of its plan, and the fingerprint
of what that was generated from.  A source is taken from the cache while its fingerprint is the one
that generation would have.  On writing the fingerprint goes first and comes last, so what is cut
short in between never looks current.

* `generate_of_not_isTypeName`: a class without a proper name touches no file.
-/

namespace TaggedWire

/-- A cache of sources and the number of those that it did not have. -/
structure Cache where
  directory : String
  /-- Take a source that is current. -/
  reuse : Bool := true
  /-- Print each source that is generated. -/
  printOut : Bool := false
  generations : Nat := 0
  deriving DecidableEq, Repr

namespace Cache

/-- The cache that settings describe. -/
def ofSettings (s : Settings) : Cache :=
  { directory := s.cacheDirectory, reuse := s.useCache, printOut := s.printOut }

/-- The file of a class's source. -/
def sourcePath (c : Cache) (className : String) : String :=
  Path.join c.directory (className ++ ".json")

/-- The file of a class's fingerprint. -/
def fingerprintPath (c : Cache) (className : String) : String :=
  Path.join c.directory (className ++ ".fingerprint")

/-- The source of a class, if what is stored has the fingerprint. -/
def find (c : Cache) (className : String) (fingerprint : Fingerprint) : Script (Option String) := do
  match ← Script.readFile (c.fingerprintPath className) with
  | .error _ => return none
  | .ok stored =>
    if Fingerprint.ofStored stored = fingerprint then
      return (← Script.readFile (c.sourcePath className)).toOption
    else return none

/-- The error of a file. -/
def fault (path : String) (r : Except FileFault Unit) : Except Error Unit :=
  r.mapError fun f => .cache path f.reason

/-- Remove a file that need not be there. -/
def discard (path : String) : Script (Except Error Unit) := do
  match ← Script.removeFile path with
  | .error .absent => return .ok ()
  | r => return fault path r

/-- Store a source and its fingerprint, the fingerprint last. -/
def store (c : Cache) (className : String) (fingerprint : Fingerprint) (source : String) :
    ExceptT Error Script Unit := do
  let sourcePath := c.sourcePath className
  let fingerprintPath := c.fingerprintPath className
  ExceptT.mk do return fault c.directory (← Script.makeDirectories c.directory)
  -- from here on the source may be half written, so nothing must vouch for it
  ExceptT.mk (discard fingerprintPath)
  ExceptT.mk do return fault sourcePath (← Script.writeFile sourcePath source)
  ExceptT.mk do
    return fault fingerprintPath
      (← Script.writeFile fingerprintPath (fingerprint.digest ++ "\n"))

/-- Generate a source, print it if so told, and store it. -/
def renew (c : Cache) (g : Generator) (package className : String) :
    Script (Cache × Except Error String) := do
  match g.source package className with
  | .error e => return (c, .error e)
  | .ok source =>
    let c := { c with generations := c.generations + 1 }
    if c.printOut then Script.say (source ++ "\n")
    match ← (c.store className (g.fingerprint package className) source).run with
    | .error e => return (c, .error e)
    | .ok () => return (c, .ok source)

/-- The source of the plan for a target, from the cache if that is current. -/
def generate (c : Cache) (g : Generator) (package className : String) :
    Script (Cache × Except Error String) :=
  if isTypeName className then do
    let stored ← if c.reuse then c.find className (g.fingerprint package className) else pure none
    match stored with
    | some source => return (c, .ok source)
    | none => c.renew g package className
  else
    return (c, .error (.cache c.directory s!"invalid target class name '{className}'"))

theorem generate_of_not_isTypeName (c : Cache) (g : Generator) (package : String)
    {className : String} (h : isTypeName className = false) :
    c.generate g package className =
      .done (c, .error (.cache c.directory s!"invalid target class name '{className}'")) := by
  unfold generate
  rw [h]
  rfl

end Cache
end TaggedWire
