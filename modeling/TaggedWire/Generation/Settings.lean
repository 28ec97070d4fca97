import TaggedWire.Error
import TaggedWire.Files.Script
import TaggedWire.Json.Record
import TaggedWire.Text.Blank
import TaggedWire.Toml.Document

/-!
# Settings of the generator

Settings start from defaults.  A TOML document may set them, and variables of the environment may
set them again.
-/

namespace TaggedWire

/-- The variables of the environment, by name. -/
abbrev Environment := String → Option String

/-- What the generator is told besides the catalog. -/
structure Settings where
  cacheDirectory : String := ".marshalgen-cache"
  /-- Take a source from the cache if it is current. -/
  useCache : Bool := true
  /-- Print each source that is generated. -/
  printOut : Bool := false
  deriving DecidableEq, Repr

namespace Settings

/-! ### Documents -/

/-- The settings of a document.  Keys that are not known are ignored. -/
def read? (j : Json) : Option Settings := do
  let members ← j.members?
  let defaults : Settings := {}
  let cacheDirectory ← Json.optional? members "cache_dir" defaults.cacheDirectory Json.string?
  let useCache ← Json.optional? members "use_cache" defaults.useCache Json.bool?
  let printOut ← Json.optional? members "print_out" defaults.printOut Json.bool?
  return ⟨cacheDirectory, useCache, printOut⟩

/-- The settings of a TOML text. -/
def parse (text : String) : Except Error Settings :=
  match (Toml.parse? text).bind read? with
  | some s => .ok s
  | none => .error (.config "not a settings document")

/-- The settings in a file. -/
def load (path : String) : Script (Except Error Settings) := do
  match ← Script.readFile path with
  | .error fault => return .error (.config s!"{path}: {fault.reason}")
  | .ok text => return parse text

/-! ### The environment -/

def cacheDirectoryVariable : String := "MARSHALGEN_CACHE_DIR"

def useCacheVariable : String := "MARSHALGEN_USE_CACHE"

def printOutVariable : String := "MARSHALGEN_PRINT_OUT"

/-- The variables that settings look at. -/
def variableNames : List String := [cacheDirectoryVariable, useCacheVariable, printOutVariable]

/-- The texts that switch something on. -/
def onWords : List String := ["1", "true", "yes", "on"]

/-- The texts that switch something off. -/
def offWords : List String := ["0", "false", "no", "off", ""]

/-- A flag as it is compared: without blanks around it, in small letters. -/
def flagWord (raw : String) : String := (Text.trim raw).toLower

/-- What a text says as a flag. -/
def flag? (raw : String) : Option Bool :=
  if flagWord raw ∈ onWords then some true else if flagWord raw ∈ offWords then some false else none

/-- The flag in a variable, or the present setting if there is no such variable. -/
def flagOf (env : Environment) (name : String) (present : Bool) : Except Error Bool :=
  match env name with
  | none => .ok present
  | some raw =>
    match flag? raw with
    | some b => .ok b
    | none => .error (.config s!"{name}: expected a boolean, found '{flagWord raw}'")

/-- Take up a directory from the environment, unless it is blank. -/
def applyDirectory (env : Environment) (s : Settings) : Settings :=
  match env cacheDirectoryVariable with
  | some directory =>
    if Text.trim directory = "" then s else { s with cacheDirectory := directory }
  | none => s

/-- Take up the environment, one variable after the other.  A bad one ends this, and what came
before it counts. -/
def applyEnvironment (env : Environment) (s : Settings) : Settings × Except Error Unit :=
  let s := s.applyDirectory env
  match flagOf env useCacheVariable s.useCache with
  | .error e => (s, .error e)
  | .ok useCache =>
    let s := { s with useCache := useCache }
    match flagOf env printOutVariable s.printOut with
    | .error e => (s, .error e)
    | .ok printOut => ({ s with printOut := printOut }, .ok ())

end Settings
end TaggedWire
