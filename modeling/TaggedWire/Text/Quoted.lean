import TaggedWire.Text.Unseen

/-!
# Quoted texts inside messages

A text that a message shows stands between double quotes, with everything that cannot be seen
written as an escape: four controls by a letter, quote and reverse solidus by themselves, and the
other unseen characters by their number in braces.
-/

namespace TaggedWire.Text

/-- A character as it stands between the quotes. -/
def visibleChar (c : Char) : List Char :=
  match c with
  | '"' => ['\\', '"']
  | '\\' => ['\\', '\\']
  | '\n' => ['\\', 'n']
  | '\r' => ['\\', 'r']
  | '\t' => ['\\', 't']
  | '\x00' => ['\\', '0']
  | c =>
    if isUnseen c then '\\' :: 'u' :: '\x7b' :: (Nat.toDigits 16 c.toNat ++ ['\x7d']) else [c]

/-- A text between quotes, with all that cannot be seen escaped. -/
def visible (s : String) : String := "\"" ++ String.ofList (s.toList.flatMap visibleChar) ++ "\""

end TaggedWire.Text
