/-!
# Options of a command line

Arguments are read from left to right.  An option is given by its name after two hyphens or by its
letter after one; letters may follow each other after one hyphen.  A value follows its option, after
an equals sign or as the next argument, which must not look like an option then.  After two hyphens
alone everything is an argument.
-/

namespace TaggedWire

/-- What an option takes. -/
inductive OptionKind where
  /-- Nothing; it may be given once. -/
  | flag
  /-- Nothing; it may be given any number of times. -/
  | counted
  | text
  /-- A text that is not empty. -/
  | path
  | help
  | version
  deriving DecidableEq, Repr

/-- The option is followed by a value. -/
def OptionKind.takesValue : OptionKind → Bool
  | text | path => true
  | flag | counted | help | version => false

/-- An option of a command. -/
structure OptionSpec where
  name : String
  letter : Option Char
  kind : OptionKind
  deriving DecidableEq, Repr

/-- The options of a command and the number of its arguments, which are paths. -/
structure Grammar where
  options : List OptionSpec
  arguments : Nat := 0
  deriving DecidableEq, Repr

/-- Why the reading of arguments ends early. -/
inductive Ending where
  | help
  | version
  | misuse
  deriving DecidableEq, Repr

/-- The options and arguments so far. -/
structure Reading where
  /-- The options that were given, with their values. -/
  options : List (String × String) := []
  arguments : List String := []
  /-- The option whose value comes next. -/
  awaiting : Option OptionSpec := none
  /-- No further options are read. -/
  literal : Bool := false
  deriving DecidableEq, Repr

namespace Reading

/-- The value of an option that was given. -/
def value? (r : Reading) (name : String) : Option String :=
  (r.options.find? (·.1 = name)).map (·.2)

/-- Whether an option was given. -/
def has (r : Reading) (name : String) : Bool := (r.value? name).isSome

/-- Take up an option with its value, which is empty if it takes none. -/
def give (r : Reading) (o : OptionSpec) (value : String) : Except Ending Reading :=
  match o.kind with
  | .help => .error .help
  | .version => .error .version
  | .counted => .ok r
  | kind =>
    if r.has o.name ∨ (kind = .path ∧ value = "") then .error .misuse
    else .ok { r with options := (o.name, value) :: r.options }

/-- An option by its name, perhaps with a value after an equals sign. -/
def long (g : Grammar) (r : Reading) (body : List Char) : Except Ending Reading :=
  let name := String.ofList (body.takeWhile (· ≠ '='))
  match g.options.find? (·.name = name) with
  | none => .error .misuse
  | some o =>
    match o.kind.takesValue, body.dropWhile (· ≠ '=') with
    | true, [] => .ok { r with awaiting := some o }
    | true, _ :: value => r.give o (String.ofList value)
    | false, [] => r.give o ""
    | false, _ :: _ => .error .misuse

/-- Options by their letters; one that takes a value takes what follows it. -/
def letters (g : Grammar) (r : Reading) : List Char → Except Ending Reading
  | [] => .ok r
  | c :: rest =>
    match g.options.find? (·.letter = some c) with
    | none => .error .misuse
    | some o =>
      if o.kind.takesValue then
        match rest with
        | [] => .ok { r with awaiting := some o }
        | '=' :: value => r.give o (String.ofList value)
        | value => r.give o (String.ofList value)
      else do
        let r ← r.give o ""
        r.letters g rest

/-- An argument, if one more is asked for. -/
def argument (g : Grammar) (r : Reading) (s : String) : Except Ending Reading :=
  if r.arguments.length < g.arguments ∧ s ≠ "" then
    .ok { r with arguments := r.arguments ++ [s] }
  else .error .misuse

/-- One argument of the command line. -/
def step (g : Grammar) (r : Reading) (s : String) : Except Ending Reading :=
  match r.awaiting, r.literal, s.toList with
  -- a lone hyphen does not look like an option and may be a value
  | some _, _, '-' :: _ :: _ => .error .misuse
  | some o, _, _ => { r with awaiting := none }.give o s
  | none, true, _ => r.argument g s
  | none, false, ['-', '-'] => .ok { r with literal := true }
  | none, false, '-' :: '-' :: body => r.long g body
  | none, false, '-' :: c :: cs => r.letters g (c :: cs)
  | none, false, _ => r.argument g s

/-- Nothing is missing at the end. -/
def isComplete (g : Grammar) (r : Reading) : Bool :=
  r.awaiting.isNone && r.arguments.length == g.arguments

/-- Read the arguments of a command. -/
def read (g : Grammar) (args : List String) : Except Ending Reading := do
  let r ← args.foldlM (step g) {}
  if r.isComplete g then return r else .error .misuse

end Reading
end TaggedWire
