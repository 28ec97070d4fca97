import TaggedWire.Json.Basic

/-!
# Tables under construction

A TOML document builds one tree of tables, line by line.  How a table came to be decides what may
still be done to it: a header may open a table once, and may open one that until then was only
implied; the value of a dotted key goes into a table that dotted keys made, and its path passes
through no table that a header opened; the last of an array of tables stands for the array in every
path.
-/

namespace TaggedWire.Toml

/-- How a table came to be. -/
inductive Origin where
  /-- By a header of its own; the root counts as such. -/
  | header
  /-- As a part of the path in a header. -/
  | implied
  /-- As a part of the path in a dotted key. -/
  | dotted
  deriving DecidableEq

/-- What stands under a key. -/
inductive Node where
  /-- A value; tables and arrays that are written as values can no longer change. -/
  | value (j : Json)
  | table (origin : Origin) (entries : List (String × Node))
  /-- The tables of an array, the last one first. -/
  | tables (rows : List Node)

/-- The entries of a table. -/
abbrev Entries := List (String × Node)

/-- What stands under a key. -/
def lookup (key : String) (entries : Entries) : Option Node :=
  (entries.find? (·.1 = key)).map (·.2)

/-- Put something under a key, in place of what stands there. -/
def store (key : String) (node : Node) (entries : Entries) : Entries :=
  if (lookup key entries).isSome then
    entries.map fun e => if e.1 = key then (key, node) else e
  else entries ++ [(key, node)]

/-- Change the table at the end of a path, making tables on the way where there are none.  A path of
dotted keys must not enter a table that a header opened. -/
def update (dotted : Bool) (change : Origin → Entries → Option Node) :
    List String → Origin → Entries → Option Node
  | [], origin, entries => change origin entries
  | key :: path, origin, entries => do
    let node ←
      match lookup key entries with
      | none => update dotted change path (if dotted then .dotted else .implied) []
      | some (.table inner es) =>
        if dotted ∧ inner = .header then none else update dotted change path inner es
      | some (.tables (.table inner es :: rows)) =>
        (update dotted change path inner es).map fun row => .tables (row :: rows)
      | some _ => none
    return .table origin (store key node entries)

/-- Put a value under the last part of a key.  The table that the other parts lead to must be one of
dotted keys, and the table without other parts must not. -/
def assign (path : List String) (j : Json) (origin : Origin) (entries : Entries) : Option Node := do
  let last ← path.getLast?
  let change (origin : Origin) (entries : Entries) : Option Node :=
    if origin = .dotted ↔ path.length = 1 then none
    else
      match lookup last entries with
      | some _ => none
      | none => some (.table origin (store last (.value j) entries))
  update true change path.dropLast origin entries

/-- Open a table by a header. -/
def openTable (path : List String) (entries : Entries) : Option Node := do
  let last ← path.getLast?
  let change (origin : Origin) (entries : Entries) : Option Node :=
    match lookup last entries with
    | none => some (.table origin (store last (.table .header []) entries))
    | some (.table .implied es) => some (.table origin (store last (.table .header es) entries))
    | some _ => none
  update false change path.dropLast .header entries

/-- Add a table to an array of tables by a header. -/
def openRow (path : List String) (entries : Entries) : Option Node := do
  let last ← path.getLast?
  let change (origin : Origin) (entries : Entries) : Option Node :=
    match lookup last entries with
    | none => some (.table origin (store last (.tables [.table .header []]) entries))
    | some (.tables rows) =>
      some (.table origin (store last (.tables (.table .header [] :: rows)) entries))
    | some _ => none
  update false change path.dropLast .header entries

/-- The entries of a table. -/
def Node.entries : Node → Entries
  | .table _ entries => entries
  | _ => []

mutual

/-- The document of a finished tree. -/
def Node.document : Node → Json
  | .value j => j
  | .table _ entries => .object (documentMembers entries)
  | .tables rows => .array (documentItems rows).reverse

/-- The documents of rows. -/
def documentItems : List Node → List Json
  | [] => []
  | n :: ns => n.document :: documentItems ns

/-- The documents of entries. -/
def documentMembers : List (String × Node) → List (String × Json)
  | [] => []
  | (k, n) :: es => (k, n.document) :: documentMembers es

end

end TaggedWire.Toml
