/-!
# Errors

Everything that can go wrong has a constructor; `Error.message` gives its wording and
`Error.details` its parts under fixed names.  The first six are the errors of generation.
-/

namespace TaggedWire

/-- A failure of the library. -/
inductive Error where
  /-- Neither a strategy applies to a type nor is a marshaller class declared for it. -/
  | noMarshaller (type : String)
  /-- A reference to a type that has no marshaller. -/
  | unknownNested (owner referenced : String)
  /-- A marshaller class that nobody provides. -/
  | unknownClass (className type : String)
  /-- An identifier that is already bound. -/
  | duplicateBinding (identifier : String)
  | invalidAlias (name target reason : String)
  | invalidCatalog (type reason : String)
  /-- A value or document of the wrong shape. -/
  | mismatch (type expected found : String)
  | unknownVariant (type variant : String)
  /-- A text that cannot be read. -/
  | parse (context reason : String)
  /-- A file that cannot be used. -/
  | cache (path reason : String)
  | config (reason : String)
  deriving DecidableEq, Inhabited, Repr

namespace Error

/-- The text of an error. -/
def message : Error → String
  | noMarshaller type => s!"no available marshaller for class: {type}"
  | unknownNested owner referenced =>
    s!"no marshaller for '{referenced}' referenced from '{owner}'"
  | unknownClass className type =>
    s!"could not instantiate marshaller class '{className}' for '{type}'"
  | duplicateBinding identifier => s!"duplicate marshaller binding for '{identifier}'"
  | invalidAlias name target reason => s!"invalid alias '{name}' -> '{target}': {reason}"
  | invalidCatalog type reason => s!"invalid catalog entry '{type}': {reason}"
  | mismatch type expected found =>
    s!"type mismatch for '{type}': expected {expected}, found {found}"
  | unknownVariant type variant => s!"unknown variant '{variant}' for enum '{type}'"
  | parse context reason => s!"parse error in {context}: {reason}"
  | cache path reason => s!"cache error at {path}: {reason}"
  | config reason => s!"config error: {reason}"

/-- The parts of an error, under the names by which they are logged. -/
def details : Error → List (String × String)
  | noMarshaller type => [("type", type)]
  | unknownNested owner referenced => [("owner", owner), ("referenced", referenced)]
  | unknownClass className type => [("class", className), ("type", type)]
  | duplicateBinding identifier => [("identifier", identifier)]
  | invalidAlias name target reason => [("alias", name), ("target", target), ("reason", reason)]
  | invalidCatalog type reason => [("type", type), ("reason", reason)]
  | mismatch type expected found => [("type", type), ("expected", expected), ("found", found)]
  | unknownVariant type variant => [("type", type), ("variant", variant)]
  | parse context reason => [("context", context), ("message", reason)]
  | cache path reason => [("path", path), ("message", reason)]
  | config reason => [("message", reason)]

/-- The error concerns the generation of a factory, not a value or a file. -/
def isGeneration : Error → Bool
  | noMarshaller _ | unknownNested _ _ | unknownClass _ _ | duplicateBinding _ | invalidAlias _ _ _
  | invalidCatalog _ _ => true
  | mismatch _ _ _ | unknownVariant _ _ | parse _ _ | cache _ _ | config _ => false

/-- A failure of the file system on its own, without a file that it belongs to. -/
def ofFileSystem (reason : String) : Error := cache "<io>" reason

end Error
end TaggedWire
