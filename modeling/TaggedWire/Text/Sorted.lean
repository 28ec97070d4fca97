/-!
# Sorted texts

Texts are ordered by their characters, which is also the order of their UTF-8 bytes.

* `mem_sortTexts`: sorting neither adds nor loses a text.
* `pairwise_sortTexts`: the result increases strictly, so nothing in it is repeated.
-/

namespace TaggedWire

/-- Put a text before the first that is not smaller, unless it is there already. -/
def insertText (s : String) : List String → List String
  | [] => [s]
  | t :: ts => if s < t then s :: t :: ts else if s = t then t :: ts else t :: insertText s ts

/-- The texts of a list in order, each once. -/
def sortTexts (texts : List String) : List String := texts.foldr insertText []

theorem mem_insertText {s t : String} {texts : List String} :
    t ∈ insertText s texts ↔ t = s ∨ t ∈ texts := by
  induction texts with
  | nil => simp [insertText]
  | cons u us ih =>
    unfold insertText
    split
    · simp
    · split
      · next h => subst h; simp
      · simp only [List.mem_cons, ih]
        exact or_left_comm

theorem mem_sortTexts {t : String} {texts : List String} : t ∈ sortTexts texts ↔ t ∈ texts := by
  induction texts with
  | nil => simp [sortTexts]
  | cons s ss ih => rw [sortTexts, List.foldr_cons, mem_insertText, List.mem_cons, ← ih, sortTexts]

theorem pairwise_insertText (s : String) {texts : List String} (h : texts.Pairwise (· < ·)) :
    (insertText s texts).Pairwise (· < ·) := by
  induction texts with
  | nil => simp [insertText]
  | cons u us ih =>
    obtain ⟨hu, hus⟩ := List.pairwise_cons.1 h
    unfold insertText
    split
    · next hlt =>
      refine List.pairwise_cons.2 ⟨fun t ht => ?_, h⟩
      rcases List.mem_cons.1 ht with rfl | ht
      · exact hlt
      · exact String.lt_trans hlt (hu t ht)
    · next hlt =>
      split
      · exact h
      · next hne =>
        refine List.pairwise_cons.2 ⟨fun t ht => ?_, ih hus⟩
        rcases mem_insertText.1 ht with rfl | ht
        · grind
        · exact hu t ht

theorem pairwise_sortTexts (texts : List String) : (sortTexts texts).Pairwise (· < ·) := by
  induction texts with
  | nil => simp [sortTexts]
  | cons s ss ih => exact pairwise_insertText s ih

end TaggedWire
