/-!
# Blank characters

White space around type spellings, flags and stored digests is what Unicode calls `White_Space`:
besides the ASCII blanks it holds the no-break space, the ideographic space and a few more, but
neither the zero width space nor the byte order mark.

* `trim_eq_self`: a text with no blank at either end is its own trimmed form.
-/

namespace TaggedWire.Text

/-- A character with the Unicode property `White_Space`. -/
def isBlank (c : Char) : Bool :=
  let n := c.toNat
  (9 ≤ n && n ≤ 13) || n == 0x20 || n == 0x85 || n == 0xa0 || n == 0x1680 ||
    (0x2000 ≤ n && n ≤ 0x200a) || n == 0x2028 || n == 0x2029 || n == 0x202f || n == 0x205f ||
    n == 0x3000

/-! ### Trimming -/

/-- Drop the blanks at the front. -/
def trimStart (cs : List Char) : List Char := cs.dropWhile isBlank

/-- Drop the blanks at the back. -/
def trimEnd (cs : List Char) : List Char := (cs.reverse.dropWhile isBlank).reverse

/-- Drop the blanks at both ends. -/
def trim (s : String) : String := String.ofList (trimEnd (trimStart s.toList))

theorem trimStart_eq_self {cs : List Char} (h : ∀ c ∈ cs.head?, isBlank c = false) :
    trimStart cs = cs := by
  cases cs with
  | nil => rfl
  | cons c cs => simp [trimStart, h c rfl]

theorem trimEnd_eq_self {cs : List Char} (h : ∀ c ∈ cs.getLast?, isBlank c = false) :
    trimEnd cs = cs := by
  have hr : ∀ c ∈ cs.reverse.head?, isBlank c = false := by simpa using h
  have := trimStart_eq_self hr
  unfold trimStart at this
  simp [trimEnd, this]

theorem trim_eq_self {s : String} (hhead : ∀ c ∈ s.toList.head?, isBlank c = false)
    (hlast : ∀ c ∈ s.toList.getLast?, isBlank c = false) : trim s = s := by
  simp [trim, trimStart_eq_self hhead, trimEnd_eq_self hlast]

end TaggedWire.Text
