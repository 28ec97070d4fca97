import TaggedWire.Toml.Scalar
import TaggedWire.Toml.Table

/-!
# TOML documents

A document is a list of statements, one a line: an assignment, or a header that opens a table or a
row of an array of tables.  Statements are read first, and then build the tree of tables one by
one.

* `parse?`: the document of a text.
-/

namespace TaggedWire.Toml

/-! ### Values -/

/-- Assignments to the keys of a table that is written as a value. -/
def inlineTable? (pairs : List (List String × Json)) : Option Json := do
  let node ← pairs.foldlM (fun (node : Node) (path, j) => assign path j .header node.entries)
    (.table .header [])
  return node.document

mutual

/-- A value.  At most `depth` arrays and tables nest; `fuel` bounds the number of steps. -/
def value? (fuel depth : Nat) (cs : List Char) : Option (Json × List Char) :=
  match fuel with
  | 0 => none
  | fuel + 1 =>
    match cs with
    | '[' :: rest => if depth = 0 then none else items? fuel (depth - 1) [] rest
    | '\x7b' :: rest =>
      if depth = 0 then none
      else
        match skipSpaces rest with
        | '\x7d' :: rest => some (.object [], rest)
        | rest => pairs? fuel (depth - 1) [] rest
    | '"' :: _ | '\'' :: _ => (string? cs).map fun (s, rest) => (.string s, rest)
    | cs => scalar? cs

/-- The items of an array up to its end; `done` holds those before, the last one first. -/
def items? (fuel depth : Nat) (done : List Json) (cs : List Char) : Option (Json × List Char) :=
  match fuel with
  | 0 => none
  | fuel + 1 => do
    match ← skipLayout false cs with
    | ']' :: rest => return (.array done.reverse, rest)
    | rest => do
      let (j, rest) ← value? fuel depth rest
      match ← skipLayout false rest with
      | ',' :: rest => items? fuel depth (j :: done) rest
      | ']' :: rest => return (.array (j :: done).reverse, rest)
      | _ => none

/-- The assignments of an inline table up to its end; `done` holds those before, the last one
first. -/
def pairs? (fuel depth : Nat) (done : List (List String × Json)) (cs : List Char) :
    Option (Json × List Char) :=
  match fuel with
  | 0 => none
  | fuel + 1 => do
    match ← key? cs with
    | (path, '=' :: rest) => do
      let (j, rest) ← value? fuel depth (skipSpaces rest)
      match skipSpaces rest with
      | ',' :: rest => pairs? fuel depth ((path, j) :: done) rest
      | '\x7d' :: rest => return (← inlineTable? ((path, j) :: done).reverse, rest)
      | _ => none
    | _ => none

end

/-! ### Statements -/

/-- One line of a document. -/
inductive Statement where
  | assignment (path : List String) (value : Json)
  | table (path : List String)
  | row (path : List String)

/-- A statement, without the end of its line. -/
def statement? (fuel : Nat) (cs : List Char) : Option (Statement × List Char) :=
  match cs with
  | '[' :: '[' :: rest => do
    match ← key? rest with
    | (path, ']' :: ']' :: rest) => return (.row path, rest)
    | _ => none
  | '[' :: rest => do
    match ← key? rest with
    | (path, ']' :: rest) => return (.table path, rest)
    | _ => none
  | cs => do
    match ← key? cs with
    | (path, '=' :: rest) => do
      let (j, rest) ← value? fuel (nestingLimit - 1) (skipSpaces rest)
      return (.assignment path j, rest)
    | _ => none

/-- The statements of a text; `fuel` bounds their number. -/
def statements? (fuel : Nat) (cs : List Char) : Option (List Statement) :=
  match fuel with
  | 0 => none
  | fuel + 1 => do
    match ← skipLayout false cs with
    | [] => some []
    | rest => do
      let (s, rest) ← statement? fuel rest
      return s :: (← statements? fuel (← lineEnd? rest))

/-! ### Documents -/

/-- The tree under construction, and the path of the table that was opened last. -/
structure Building where
  root : Entries := []
  current : List String := []

/-- Carry out a statement. -/
def Building.step (b : Building) : Statement → Option Building
  | .assignment path j => do
    let node ← update false (assign path j) b.current .header b.root
    return { b with root := node.entries }
  | .table path => do
    let node ← openTable path b.root
    return ⟨node.entries, path⟩
  | .row path => do
    let node ← openRow path b.root
    return ⟨node.entries, path⟩

/-- Drop the mark that may open a text. -/
def skipMark : List Char → List Char
  | '\ufeff' :: rest => rest
  | rest => rest

/-- The document of a TOML text.  Each step takes at least one character or ends an array, so twice
the length of the text is fuel enough. -/
def parse? (text : String) : Option Json := do
  let cs := skipMark text.toList
  let built ← (← statements? (2 * cs.length + 2) cs).foldlM Building.step {}
  return .object (documentMembers built.root)

end TaggedWire.Toml
