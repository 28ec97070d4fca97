/-!
# Encodings

The format that a marshaller writes.  There is one.
-/

namespace TaggedWire

/-- A format of encoded values. -/
inductive Encoding where
  | json
  deriving DecidableEq, Repr

namespace Encoding

/-- The name of an encoding. -/
def name : Encoding → String
  | json => "json"

/-- What is said of a name that no encoding has. -/
def unknownMessage : String := "invalid encoding name, expected 'json'"

/-- The encoding of a name, in letters of either case.  No letter outside ASCII has one of these
letters for its lower case, so the ASCII rule is enough. -/
def ofName? (s : String) : Option Encoding := if s.toLower = "json" then some json else none

end Encoding
end TaggedWire
