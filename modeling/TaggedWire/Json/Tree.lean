import TaggedWire.Json.Basic
import TaggedWire.Json.Token

/-!
# Reading JSON text

The tokens of a text are folded into a `Tree`, whose leaves are still literals.  The reader keeps
the containers that are open, innermost first, and what may come next; each token takes it one
step.  A tree then becomes a document if its nesting stays within a limit and every literal in it
denotes something (`Tree.document?`).  Parts that nobody looks at can be cut out between the two
steps, and are then held to the grammar alone.

* `read_append`: reading two runs of tokens is reading the second from where the first ends.
-/

namespace TaggedWire

/-- A JSON text as written: numbers and strings are literals. -/
inductive Json.Tree where
  | null
  | bool (value : Bool)
  | number (value : Json.Numeral)
  | string (value : Json.Literal)
  | array (items : List Json.Tree)
  | object (members : List (Json.Literal × Json.Tree))

namespace Json.Tree

/-! ### From tokens to a tree -/

/-- A container that is still open, with what it holds so far, the last part first. -/
inductive Container where
  | array (items : List Tree)
  | object (members : List (Literal × Tree))
  /-- An object that waits for the value of a key. -/
  | member (members : List (Literal × Tree)) (key : Literal)

/-- What may come next. -/
inductive Expected where
  | value
  /-- A value, or the end of an array that has just been opened. -/
  | firstItem
  /-- A key, or the end of an object that has just been opened. -/
  | firstKey
  | key
  | colon
  /-- A comma, or the end of the innermost container. -/
  | separator
  /-- Nothing: the text is complete. -/
  | done (tree : Tree)

/-- A reading under way. -/
structure Reading where
  containers : List Container := []
  expected : Expected := .value

namespace Reading

/-- Put a complete tree where a value is due. -/
def place (t : Tree) : List Container → Option Reading
  | [] => some ⟨[], .done t⟩
  | .array items :: rest => some ⟨.array (t :: items) :: rest, .separator⟩
  | .member members key :: rest => some ⟨.object ((key, t) :: members) :: rest, .separator⟩
  | .object _ :: _ => none

/-- Take a token where a value is due. -/
def value (containers : List Container) : Token → Option Reading
  | .null => place .null containers
  | .bool b => place (.bool b) containers
  | .number n => place (.number n) containers
  | .string s => place (.string s) containers
  | .openArray => some ⟨.array [] :: containers, .firstItem⟩
  | .openObject => some ⟨.object [] :: containers, .firstKey⟩
  | .closeArray | .closeObject | .comma | .colon => none

/-- Take a token where a key is due. -/
def key : List Container → Token → Option Reading
  | .object members :: rest, .string s => some ⟨.member members s :: rest, .colon⟩
  | _, _ => none

/-- Close the innermost container. -/
def close : List Container → Token → Option Reading
  | .array items :: rest, .closeArray => place (.array items.reverse) rest
  | .object members :: rest, .closeObject => place (.object members.reverse) rest
  | _, _ => none

/-- Take one token. -/
def step (r : Reading) (t : Token) : Option Reading :=
  match r.expected with
  | .value => value r.containers t
  | .firstItem => if t = .closeArray then close r.containers t else value r.containers t
  | .firstKey => if t = .closeObject then close r.containers t else key r.containers t
  | .key => key r.containers t
  | .colon => if t = .colon then some { r with expected := .value } else none
  | .separator =>
    if t = .comma then
      match r.containers with
      | .array _ :: _ => some { r with expected := .value }
      | _ => some { r with expected := .key }
    else close r.containers t
  | .done _ => none

/-- The tree, if the reading is complete. -/
def finish (r : Reading) : Option Tree :=
  match r.expected with
  | .done t => some t
  | _ => none

end Reading

/-- Take a run of tokens. -/
def read (r : Reading) (ts : List Token) : Option Reading := ts.foldlM Reading.step r

theorem read_append (r : Reading) (ts us : List Token) :
    read r (ts ++ us) = (read r ts).bind (read · us) := by
  simp [read, List.foldlM_append, Option.bind_eq_bind]

/-- The tree of a text; none if the text is not JSON. -/
def parse? (text : String) : Option Tree := do
  let tokens ← tokens? text.toList
  (← read {} tokens).finish

/-! ### From a tree to a document -/

variable [Numeral.Reader]

mutual

/-- The document of a tree, if at most `depth` containers nest and each literal denotes a value. -/
def document? (depth : Nat) : Tree → Option Json
  | .null => some .null
  | .bool b => some (.bool b)
  | .number n => n.number?.map .number
  | .string s => s.text?.map .string
  | .array items =>
    if depth = 0 then none else (documents? (depth - 1) items).map .array
  | .object members =>
    if depth = 0 then none else (members? (depth - 1) members).map .object

/-- The documents of the items of an array. -/
def documents? (depth : Nat) : List Tree → Option (List Json)
  | [] => some []
  | t :: ts => do
    let j ← document? depth t
    let js ← documents? depth ts
    some (j :: js)

/-- The members of an object. -/
def members? (depth : Nat) : List (Literal × Tree) → Option (List (String × Json))
  | [] => some []
  | (k, t) :: ms => do
    let key ← k.text?
    let j ← document? depth t
    let js ← members? depth ms
    some ((key, j) :: js)

end

/-- Cut out the members of the outermost object whose keys denote other texts than these. -/
def restrict (keys : List String) : Tree → Tree
  | .object members => .object (members.filter fun (k, _) => k.text?.all keys.contains)
  | t => t

end Json.Tree

namespace Json

variable [Numeral.Reader]

/-- Containers that may nest in a document. -/
def nestingLimit : Nat := 127

/-- The document of a JSON text. -/
def parse? (text : String) : Option Json := (Tree.parse? text).bind (Tree.document? nestingLimit)

/-- The document of a JSON text whose outermost object is only asked for these keys. -/
def parseRecord? (keys : List String) (text : String) : Option Json :=
  (Tree.parse? text).bind fun t => (t.restrict keys).document? nestingLimit

end Json
end TaggedWire
