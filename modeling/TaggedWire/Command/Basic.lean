import TaggedWire.Command.Option

/-!
# Commands

There are four commands, all of them about a catalog file.  The arguments of the command line name
one and tell its options.
-/

namespace TaggedWire

/-- The class that is generated. -/
structure Target where
  package : String := "marshalgen.generated"
  className : String := "MarshallerFactoryImpl"
  deriving DecidableEq, Repr

/-- How a source is to be generated. -/
structure GenerateOptions where
  /-- A file with settings. -/
  settings : Option String := none
  cacheDirectory : Option String := none
  noCache : Bool := false
  print : Bool := false
  /-- The file for the source. -/
  output : Option String := none
  deriving DecidableEq, Repr

/-- What the command line asks for. -/
inductive Command where
  /-- Generate the source of a plan. -/
  | generate (catalog : String) (target : Target) (options : GenerateOptions)
  /-- List what identifiers are bound to. -/
  | bindings (catalog : String) (target : Target) (filter : Option String) (json : Bool)
  /-- Check a catalog. -/
  | check (catalog : String) (target : Target)
  /-- Decode a file and encode what it holds. -/
  | normalize (catalog input : String) (target : Target) (type : Option String)
  deriving DecidableEq, Repr

/-- The word for a command. -/
inductive Verb where
  | generate
  | bindings
  | check
  | normalize
  deriving DecidableEq, Repr

namespace Verb

/-- The verbs, in order. -/
def all : List Verb := [generate, bindings, check, normalize]

/-- The spelling of a verb. -/
def name : Verb → String
  | generate => "generate"
  | bindings => "bindings"
  | check => "check"
  | normalize => "normalize"

/-- The verb with a spelling. -/
def ofName? (s : String) : Option Verb := all.find? (·.name = s)

/-- The options of all commands. -/
def sharedOptions : List OptionSpec :=
  [⟨"verbose", some 'v', .counted⟩, ⟨"help", some 'h', .help⟩]

/-- The options that name the target. -/
def targetOptions : List OptionSpec :=
  [⟨"package", some 'p', .text⟩, ⟨"class", some 'c', .text⟩]

/-- The options of a verb alone. -/
def ownOptions : Verb → List OptionSpec
  | generate =>
    [⟨"config", none, .path⟩, ⟨"cache-dir", none, .path⟩, ⟨"no-cache", none, .flag⟩,
      ⟨"print", none, .flag⟩, ⟨"output", some 'o', .path⟩]
  | bindings => [⟨"filter", some 'f', .text⟩, ⟨"json", none, .flag⟩]
  | check => []
  | normalize => [⟨"type", some 't', .text⟩]

/-- The options and arguments of a verb. -/
def grammar (v : Verb) : Grammar :=
  { options := sharedOptions ++ targetOptions ++ v.ownOptions
    arguments := if v = normalize then 2 else 1 }

/-- The target that options name. -/
def target (r : Reading) : Target :=
  let defaults : Target := {}
  ⟨(r.value? "package").getD defaults.package, (r.value? "class").getD defaults.className⟩

/-- The command that a verb makes of its options and arguments. -/
def command (v : Verb) (r : Reading) : Except Ending Command :=
  match v, r.arguments with
  | generate, [catalog] =>
    .ok (.generate catalog (target r)
      { settings := r.value? "config"
        cacheDirectory := r.value? "cache-dir"
        noCache := r.has "no-cache"
        print := r.has "print"
        output := r.value? "output" })
  | bindings, [catalog] =>
    .ok (.bindings catalog (target r) (r.value? "filter") (r.has "json"))
  | check, [catalog] => .ok (.check catalog (target r))
  | normalize, [catalog, input] => .ok (.normalize catalog input (target r) (r.value? "type"))
  | _, _ => .error .misuse

end Verb

namespace Command

/-- What may come before the verb. -/
def leading : Grammar :=
  { options := Verb.sharedOptions ++ [⟨"version", some 'V', .version⟩] }

/-- Help may be asked for in general or on one verb. -/
def parseHelp : List String → Except Ending Command
  | [] => .error .help
  | [s] => if (Verb.ofName? s).isSome ∨ s = "help" then .error .help else .error .misuse
  | _ => .error .misuse

/-- The command of a command line. -/
def parse : List String → Except Ending Command
  | [] => .error .misuse
  | s :: rest =>
    match s.toList with
    | '-' :: '-' :: [] => .error .misuse
    | '-' :: _ :: _ => do
      let _ ← Reading.step leading {} s
      parse rest
    | _ =>
      if s = "help" then parseHelp rest
      else
        match Verb.ofName? s with
        | none => .error .misuse
        | some v => do v.command (← Reading.read v.grammar rest)

end Command
end TaggedWire
