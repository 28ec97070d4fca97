import TaggedWire.Json.Basic

/-!
# Records in documents

A record is an object that is asked for certain keys.  A key that is asked for must not be repeated;
others may be, and are ignored.
-/

namespace TaggedWire.Json

/-- The member with a key, if there is one; fails if there are several. -/
def single? (members : List (String × Json)) (key : String) : Option (Option Json) :=
  match members.filter fun (k, _) => k = key with
  | [] => some none
  | [(_, j)] => some (some j)
  | _ => none

/-- The only member with a key. -/
def required? (members : List (String × Json)) (key : String) : Option Json :=
  (single? members key).bind id

/-- What a reader makes of the member with a key, or a default if there is none. -/
def optional? (members : List (String × Json)) (key : String) (otherwise : α)
    (read : Json → Option α) : Option α :=
  match single? members key with
  | none => none
  | some none => some otherwise
  | some (some j) => read j

/-- The texts of an array of strings. -/
def texts? (j : Json) : Option (List String) := j.items?.bind fun items => items.mapM string?

/-- The value of a whole number that is not negative. -/
def nat? (j : Json) : Option Nat :=
  match j with
  | .number (.integer (.ofNat n)) => some n
  | _ => none

end TaggedWire.Json
