import TaggedWire.Catalog.Load
import TaggedWire.Command.Basic
import TaggedWire.Factory.Build
import TaggedWire.Factory.Decode
import TaggedWire.Factory.Encode
import TaggedWire.Generation.Cache
import TaggedWire.Plan.Report

/-!
# Running commands

A command is a script that may fail.  Its failure is an error of the library or says what could not
be done; all else that a command line can come to is an `Outcome`, which has a code and a message.
-/

namespace TaggedWire

/-- Why a command fails. -/
inductive Failure where
  | error (e : Error)
  /-- A file was not to be had, whatever the reason. -/
  | doing (what : String)
  deriving DecidableEq, Repr

/-- The text of a failure. -/
def Failure.message : Failure → String
  | error e => e.message
  | doing what => what

namespace Command

/-- A script that may fail. -/
abbrev Attempt := ExceptT Failure Script

/-- Go on with a result of the library. -/
def attempt (r : Except Error α) : Attempt α := ExceptT.mk (pure (r.mapError .error))

/-- Go on with the result of a script, or fail in doing something. -/
def attemptTo (what : String) (s : Script (Except ε α)) : Attempt α :=
  ExceptT.mk do return (← s).mapError fun _ => .doing what

/-- The catalog in a file. -/
def loadCatalog (path : String) : Attempt Catalog :=
  attemptTo s!"loading catalog {path}" (Catalog.load path)

/-- The settings for generating: those of a file, then the variables, then the options. -/
def settingsOf (env : Environment) (o : GenerateOptions) : Attempt Settings := do
  let start ← match o.settings with
    | some path => ExceptT.mk do return (← Settings.load path).mapError .error
    | none => pure {}
  let (s, applied) := start.applyEnvironment env
  attempt applied
  return {
    cacheDirectory := o.cacheDirectory.getD s.cacheDirectory
    useCache := s.useCache && !o.noCache
    printOut := s.printOut || o.print }

/-- The source of a plan for a target, and the cache after it was asked for. -/
def cachedSource (s : Settings) (c : Catalog) (target : Target) : Attempt (Cache × String) :=
  ExceptT.mk do
    let (cache, source) ←
      (Cache.ofSettings s).generate { catalog := c } target.package target.className
    return (source.mapError .error).map (cache, ·)

/-- Generate the source of a plan.  It goes to a file or is printed, but not again if it was printed
while being generated. -/
def runGenerate (env : Environment) (catalog : String) (target : Target)
    (o : GenerateOptions) : Attempt Unit := do
  let settings ← settingsOf env o
  let c ← loadCatalog catalog
  let (cache, source) ← cachedSource settings c target
  match o.output with
  | some path =>
    attemptTo s!"writing {path}" (Script.writeFile path source)
    let how := if cache.generations = 0 then "cached" else "generated"
    Script.complain s!"{path} ({how})\n"
  | none =>
    -- a source that was generated with this setting has been printed by the cache
    if settings.printOut ∧ cache.generations > 0 then return ()
    else Script.say source

/-- The plan for a target over a catalog in a file. -/
def planOf (catalog : String) (target : Target) : Attempt (Generator × Plan) := do
  let g : Generator := { catalog := ← loadCatalog catalog }
  return (g, ← attempt (g.plan target.package target.className))

/-- List what identifiers are bound to. -/
def runBindings (catalog : String) (target : Target) (filter : Option String) (json : Bool) :
    Attempt Unit := do
  let (_, p) ← planOf catalog target
  if json then Script.say ((p.bindingsDocument filter).indented ++ "\n")
  else Script.say (p.bindingsReport filter)

/-- What is said of a sound catalog. -/
def checkReport (path : String) (g : Generator) (p : Plan) (fingerprint : Fingerprint) : String :=
  s!"Catalog:     {path}\n" ++ s!"Types:       {g.catalog.types.length}\n" ++
    s!"Aliases:     {g.catalog.aliases.size}\n" ++ s!"Marshallers: {p.marshallers.length}\n" ++
    s!"Bindings:    {p.bindings.size}\n" ++ s!"Fingerprint: {fingerprint.digest}\n"

/-- Check a catalog. -/
def runCheck (catalog : String) (target : Target) : Attempt Unit := do
  let (g, p) ← planOf catalog target
  Script.say (checkReport catalog g p (g.fingerprint target.package target.className))

/-- The written form of a wire text, as a declared type if there is one. -/
def normalized (f : Factory) (type : Option String) (text : String) : Except Error String :=
  match type with
  | some spelling => do
    let declared ← TypeRef.parse spelling
    f.marshalAs declared (← f.unmarshalAs declared text)
  | none => do f.marshal (← f.unmarshal text)

/-- Decode a file and encode what it holds. -/
def runNormalize (catalog input : String) (target : Target) (type : Option String) :
    Attempt Unit := do
  let g : Generator := { catalog := ← loadCatalog catalog }
  let f ← attempt (g.factory target.package target.className)
  let text ← attemptTo s!"reading {input}" (Script.readFile input)
  Script.say ((← attempt (normalized f type (Text.trim text))) ++ "\n")

/-- Run a command, given the variables of the environment. -/
def run (env : Environment) : Command → Attempt Unit
  | generate catalog target options => runGenerate env catalog target options
  | bindings catalog target filter json => runBindings catalog target filter json
  | check catalog target => runCheck catalog target
  | normalize catalog input target type => runNormalize catalog input target type

end Command

/-- What a command line comes to. -/
inductive Outcome where
  | success
  | failure (f : Failure)
  | help
  | version
  | misuse
  deriving DecidableEq, Repr

namespace Outcome

/-- The code that the program ends with. -/
def code : Outcome → Nat
  | success | help | version => 0
  | failure _ => 1
  | misuse => 2

/-- How the program is called. -/
def usage : String :=
  "Marshaller factory generator for exposed data-model types\n\n" ++
    "Usage: marshalgen [OPTIONS] <COMMAND>\n\n" ++
    "Commands:\n" ++
    "  generate   Generate the factory source, reusing cached output when unchanged\n" ++
    "  bindings   List identifier bindings of the generated factory\n" ++
    "  check      Validate a catalog and print its fingerprint\n" ++
    "  normalize  Decode a wire value and print it re-encoded\n"

/-- Say what has to be said at the end. -/
def report : Outcome → Script Unit
  | success => pure ()
  | failure f => Script.complain s!"Error: {f.message}\n"
  | help => Script.say usage
  | version => Script.say s!"marshalgen {generatorVersion}\n"
  | misuse => Script.complain usage

/-- The outcome of a command line that asks for no command. -/
def ofEnding : Ending → Outcome
  | .help => help
  | .version => version
  | .misuse => misuse

end Outcome

namespace CommandLine

/-- Run a command line, given the variables of the environment. -/
def run (env : Environment) (args : List String) : Script Outcome :=
  match Command.parse args with
  | .error ending => pure (.ofEnding ending)
  | .ok command => do
    match ← (command.run env).run with
    | .ok () => return .success
    | .error f => return .failure f

end CommandLine
end TaggedWire
