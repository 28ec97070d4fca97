import TaggedWire.Error
import TaggedWire.Marshaller.Basic
import TaggedWire.Marshaller.Providers

/-!
# Catalogs

A catalog lists the exposed types and, beside them, aliases of type names.  The built-in types are a
catalog like any other; what a document adds is merged over it.

* `mem_canonical`: sorting keeps the types.
* `resolve?_alias`: an alias is resolved to the type of its target.
-/

namespace TaggedWire

/-- What is known of an exposed type. -/
inductive Shape where
  | object (fields : List Field)
  | enumeration (variants : List String)
  /-- An array type, named by its identifier. -/
  | array
  /-- Nothing: the type needs a marshaller class. -/
  | unstructured
  deriving DecidableEq, Repr

/-- The shape is that of an enum. -/
def Shape.isEnumeration : Shape → Bool
  | enumeration _ => true
  | _ => false

/-- A type that values may have. -/
structure ExposedType where
  name : String
  shape : Shape
  /-- The class of a marshaller that takes the place of a derived one. -/
  className : Option String := none
  deriving DecidableEq, Repr

/-- Exposed types and their aliases. -/
structure Catalog where
  types : List ExposedType
  /-- The name that each alias stands for. -/
  aliases : Table String
  deriving DecidableEq

namespace Catalog

/-- The catalog without types. -/
def empty : Catalog := ⟨[], Table.empty⟩

/-- Add a type at the end. -/
def addType (c : Catalog) (t : ExposedType) : Catalog := { c with types := c.types ++ [t] }

/-- Add an alias, in place of one of the same name. -/
def addAlias (c : Catalog) (name target : String) : Catalog :=
  { c with aliases := c.aliases.insert name target }

/-- The first type with a name. -/
def get? (c : Catalog) (name : String) : Option ExposedType := c.types.find? (·.name = name)

/-- The first type with a name, or with the name that an alias stands for. -/
def resolve? (c : Catalog) (name : String) : Option ExposedType :=
  c.get? ((c.aliases.get? name).getD name)

/-- Whether a type has a name or an alias. -/
def contains (c : Catalog) (name : String) : Bool := (c.resolve? name).isSome

/-- The aliases of a name, in order. -/
def aliasesOf (c : Catalog) (name : String) : List String :=
  (c.aliases.entries.filter fun (_, target) => target = name).map (·.1)

theorem resolve?_alias {c : Catalog} {name target : String}
    (h : c.aliases.get? name = some target) : c.resolve? name = c.get? target := by
  simp [resolve?, h]

/-! ### Merging -/

/-- Take up aliases one by one, as far as they are new. -/
def mergeAliases (known : Table String) :
    List (String × String) → Table String × Except Error Unit
  | [] => (known, .ok ())
  | (name, target) :: rest =>
    match known.get? name with
    | some existing =>
      (known, .error (.invalidAlias name target s!"already an alias of '{existing}'"))
    | none => mergeAliases (known.insert name target) rest

/-- Take up the aliases and then the types of another catalog.  On an alias that both have this
stops, and keeps the aliases before it. -/
def merge (c other : Catalog) : Catalog × Except Error Unit :=
  match mergeAliases c.aliases other.aliases.entries with
  | (aliases, .ok ()) => (⟨c.types ++ other.types, aliases⟩, .ok ())
  | (aliases, .error e) => (⟨c.types, aliases⟩, .error e)

/-- The merged catalog, if nothing stands against it. -/
def merged (c other : Catalog) : Except Error Catalog :=
  match c.merge other with
  | (all, .ok ()) => .ok all
  | (_, .error e) => .error e

/-! ### Canonical order -/

/-- Put a type before the first whose name is not smaller. -/
def insertByName (t : ExposedType) : List ExposedType → List ExposedType
  | [] => [t]
  | u :: us => if t.name ≤ u.name then t :: u :: us else u :: insertByName t us

/-- The types by name, those of one name in their order. -/
def sortByName (types : List ExposedType) : List ExposedType := types.foldr insertByName []

/-- The catalog with its types by name. -/
def canonical (c : Catalog) : Catalog := { c with types := sortByName c.types }

theorem mem_insertByName {t u : ExposedType} {types : List ExposedType} :
    u ∈ insertByName t types ↔ u = t ∨ u ∈ types := by
  induction types with
  | nil => simp [insertByName]
  | cons v vs ih =>
    unfold insertByName
    split
    · simp
    · simp only [List.mem_cons, ih]
      exact or_left_comm

theorem mem_sortByName {u : ExposedType} {types : List ExposedType} :
    u ∈ sortByName types ↔ u ∈ types := by
  induction types with
  | nil => simp [sortByName]
  | cons t ts ih =>
    rw [sortByName, List.foldr_cons, mem_insertByName, List.mem_cons]
    exact or_congr_right ih

theorem mem_canonical {c : Catalog} {t : ExposedType} : t ∈ c.canonical.types ↔ t ∈ c.types :=
  mem_sortByName

/-! ### Built-in types -/

/-- A type that only a class stands for, with aliases. -/
def addClass (c : Catalog) (name className : String) (aliases : List String) : Catalog :=
  (aliases.foldl (fun c a => c.addAlias a name) c).addType ⟨name, .unstructured, some className⟩

/-- The scalars, each with its boxed form for an alias, strings, and the collections. -/
def builtin : Catalog :=
  let scalars := Primitive.all.foldl (fun c p => c.addClass p.name p.className [p.boxedName]) empty
  (((scalars.addClass "string" Providers.stringClass []).addClass "list" Providers.listClass
    ["array_list", "linked_list", "vector", "stack"]).addClass "set" Providers.setClass
    ["hash_set", "linked_hash_set", "tree_set"]).addClass "map" Providers.mapClass
    ["hash_map", "linked_hash_map", "tree_map"]

end Catalog
end TaggedWire
