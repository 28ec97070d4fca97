import TaggedWire.Files.Path

/-!
# Formats of catalog documents
-/

namespace TaggedWire

/-- A format of catalog documents. -/
inductive CatalogFormat where
  | json
  | toml
  deriving DecidableEq, Repr

namespace CatalogFormat

/-- The name of a format. -/
def name : CatalogFormat → String
  | json => "json"
  | toml => "toml"

/-- The format of a name, in letters of either case.  No letter outside ASCII has one of these
letters for its lower case, so the ASCII rule is enough. -/
def ofName? (s : String) : Option CatalogFormat :=
  if s.toLower = "json" then some json else if s.toLower = "toml" then some toml else none

/-- The format that the extension of a path names. -/
def ofPath? (path : String) : Option CatalogFormat := (Path.extension? path).bind ofName?

end CatalogFormat
end TaggedWire
