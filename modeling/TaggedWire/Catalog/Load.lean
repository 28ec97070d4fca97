import TaggedWire.Catalog.Document
import TaggedWire.Catalog.Validation
import TaggedWire.Files.Script

/-!
# Catalogs in files

The extension of the file tells the format; without one that is known, the file holds JSON.
-/

namespace TaggedWire.Catalog

/-- The catalog of a document, over the built-in types and checked. -/
def complete (format : CatalogFormat) (text : String) : Except Error Catalog := do
  let c ← builtin.merged (← parse format text)
  c.validate
  return c

/-- The catalog in a file, over the built-in types and checked. -/
def load (path : String) : Script (Except Error Catalog) := do
  match ← Script.readFile path with
  | .error fault => return .error (.invalidCatalog documentName s!"{path}: {fault.reason}")
  | .ok text => return complete ((CatalogFormat.ofPath? path).getD .json) text

end TaggedWire.Catalog
