import TaggedWire.Wire.Basic

/-!
# Writing part by part

The text of an array or object can be written while its parts come in, one after the other.  A
writer counts the parts that it has been given, so it knows when a comma is due.

* `push_after`, `foldl_push`: what has been written after one more part, and after any number.
* `closeArray_foldl`, `closeObject_foldl`, `closeObject_tagged`: the finished texts are those that
  are put together at once.
-/

namespace TaggedWire.Wire

open Json

/-- The text of an array or object up to its last part so far, and the number of parts. -/
structure Writer where
  text : String
  count : Nat

namespace Writer

/-- A text under way, without parts as yet. -/
def start (opening : String) : Writer := ⟨opening, 0⟩

/-- Write one more part, behind a comma unless it is the first. -/
def push (w : Writer) (part : String) : Writer :=
  ⟨(if 0 < w.count then w.text ++ "," else w.text) ++ part, w.count + 1⟩

/-- Write one more member, from its key and the text of its value. -/
def entry (w : Writer) (member : String × String) : Writer := w.push (memberText member.1 member.2)

/-- An array under way. -/
def openArray : Writer := start "["

/-- An object under way, which opens with a type tag if one is given. -/
def openObject : Option String → Writer
  | none => start "\x7b"
  | some type => (start "\x7b").entry (typeKey, quote type)

/-- The text of the array. -/
def closeArray (w : Writer) : String := w.text ++ "]"

/-- The text of the object. -/
def closeObject (w : Writer) : String := w.text ++ "\x7d"

/-! ### What has been written -/

/-- What a writer holds when it has been given these parts. -/
def after (opening : String) (parts : List String) : Writer :=
  ⟨opening ++ joined "," parts, parts.length⟩

theorem start_eq (opening : String) : start opening = after opening [] := by
  simp [start, after, joined]

/-- A comma is due exactly behind other parts. -/
theorem joined_concat (part : String) (parts : List String) :
    joined "," (parts ++ [part]) =
      (if 0 < parts.length then joined "," parts ++ "," else joined "," parts) ++ part := by
  induction parts with
  | nil => simp [joined]
  | cons s rest ih =>
    cases rest with
    | nil => simp [joined]
    | cons t rest =>
      have hjoined : joined "," (s :: t :: rest ++ [part]) =
          s ++ "," ++ joined "," (t :: rest ++ [part]) := rfl
      rw [hjoined, ih]
      simp [joined, String.append_assoc]

theorem push_after (opening : String) (parts : List String) (part : String) :
    (after opening parts).push part = after opening (parts ++ [part]) := by
  unfold push after
  rw [joined_concat, List.length_append, List.length_singleton]
  by_cases hparts : 0 < parts.length <;> simp [hparts, String.append_assoc]

theorem foldl_push (opening : String) (parts rest : List String) :
    rest.foldl push (after opening parts) = after opening (parts ++ rest) := by
  induction rest generalizing parts with
  | nil => rw [List.append_nil, List.foldl_nil]
  | cons part rest ih =>
    rw [List.foldl_cons, push_after, ih, List.append_assoc, List.singleton_append]

theorem foldl_entry (w : Writer) (members : List (String × String)) :
    members.foldl entry w = (members.map fun m => memberText m.1 m.2).foldl push w := by
  rw [List.foldl_map]
  rfl

theorem closeArray_foldl (parts : List String) :
    (parts.foldl push openArray).closeArray = arrayText parts := by
  rw [openArray, start_eq, foldl_push]
  rfl

theorem closeObject_foldl (members : List (String × String)) :
    (members.foldl entry (openObject none)).closeObject = objectText members := by
  rw [openObject, foldl_entry, start_eq, foldl_push]
  rfl

/-- The tag is the first member. -/
theorem closeObject_tagged (type : String) (members : List (String × String)) :
    (members.foldl entry (openObject (some type))).closeObject = taggedText type members :=
  closeObject_foldl ((typeKey, quote type) :: members)

end Writer
end TaggedWire.Wire
