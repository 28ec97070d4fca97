import TaggedWire.Catalog.Document
import TaggedWire.Digest.Sha256
import TaggedWire.Json.Layout
import TaggedWire.Text.Blank
import TaggedWire.Text.Sorted

/-!
# Fingerprints

A fingerprint is a digest of all that generation depends on: the version of the generator, the
target, the available marshaller classes and the catalog.  The order in which types are declared
and classes are listed does not count, nor does repeating a class.
-/

namespace TaggedWire

/-- The version of the generator, which is part of every fingerprint and plan. -/
def generatorVersion : String := "0.1.0"

/-- A digest in hexadecimal. -/
structure Fingerprint where
  digest : String
  deriving DecidableEq, Repr

namespace Fingerprint

/-- What a fingerprint is a digest of. -/
def document (c : Catalog) (classes : List String) (package className : String) : Json :=
  .object [("generator", .string generatorVersion), ("package", .string package),
    ("class_name", .string className), ("providers", Json.ofTexts (sortTexts classes)),
    ("catalog", c.canonical.document)]

/-- The fingerprint of a catalog for a target, generated with the named marshaller classes. -/
def compute (c : Catalog) (classes : List String) (package className : String) : Fingerprint :=
  ⟨Sha256.hexDigest (document c classes package className).compact.toUTF8.data.toList⟩

/-- A fingerprint as it was stored, with blanks around it. -/
def ofStored (text : String) : Fingerprint := ⟨Text.trim text⟩

end Fingerprint
end TaggedWire
