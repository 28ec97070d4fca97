import TaggedWire.Generation.Generator

/-!
# Variables do not collide

A variable name is made of an identifier, and of a number of dimensions for an array.  All of this
can be read off again, so distinct identifiers get distinct variables, and the variable of a type is
never that of an array shape.

* `escapeName_injective`: an identifier can be recovered from its escaped form.
* `ArraySignature.variableName_injective`: so can the parts of a shape.
* `typeVariable_ne_variableName`: the two kinds of variables differ.
-/

namespace TaggedWire

/-! ### Hexadecimal digits

A character that is no letter or digit is escaped as its number in hexadecimal digits between two
underscores.  The digits determine the number, and an underscore is none of them. -/

theorem toDigits_injective {n m : Nat} (h : Nat.toDigits 16 n = Nat.toDigits 16 m) : n = m := by
  induction n using Nat.strongRecOn generalizing m with
  | ind n ih =>
    rw [Nat.toDigits_eq_if (by decide), Nat.toDigits_eq_if (n := m) (by decide)] at h
    -- a number below the base has one digit, any other has more: two cases cannot be
    by_cases hn : n < 16 <;> by_cases hm : m < 16
    · rw [if_pos hn, if_pos hm] at h
      exact Json.hexDigit_injective hn hm (List.singleton_inj.1 h)
    · rw [if_pos hn, if_neg hm] at h
      have hlength := congrArg List.length h
      have hpos : 0 < (Nat.toDigits 16 (m / 16)).length := Nat.length_toDigits_pos
      simp only [List.length_append, List.length_singleton] at hlength
      omega
    · rw [if_neg hn, if_pos hm] at h
      have hlength := congrArg List.length h
      have hpos : 0 < (Nat.toDigits 16 (n / 16)).length := Nat.length_toDigits_pos
      simp only [List.length_append, List.length_singleton] at hlength
      omega
    · rw [if_neg hn, if_neg hm] at h
      obtain ⟨hinit, hlast⟩ := List.append_inj' h rfl
      have hdiv := ih (n / 16) (by omega) hinit
      have hmod := Json.hexDigit_injective (Nat.mod_lt n (by decide)) (Nat.mod_lt m (by decide))
        (List.singleton_inj.1 hlast)
      omega

theorem underscore_notMem_toDigits (n : Nat) : '_' ∉ Nat.toDigits 16 n := by
  have hdigit : ∀ a < 16, Nat.digitChar a ≠ '_' := by decide
  induction n using Nat.strongRecOn with
  | ind n ih =>
    rw [Nat.toDigits_eq_if (by decide)]
    split
    · next hn => simp [(hdigit n hn).symm]
    · next hn => simp [ih (n / 16) (by omega), (hdigit (n % 16) (by omega)).symm]

/-! ### Escaped identifiers

An escaped character begins with an underscore and an unescaped one does not, and the next
underscore is where an escaped one ends; so the escaped text is read from the front, one character
at a time. -/

/-- What stands before the first occurrence of an element, and what stands behind it. -/
theorem append_cons_inj {a : α} {xs ys xs' ys' : List α} (hxs : a ∉ xs) (hys : a ∉ ys)
    (h : xs ++ a :: xs' = ys ++ a :: ys') : xs = ys ∧ xs' = ys' := by
  induction xs generalizing ys with
  | nil =>
    cases ys with
    | nil => exact ⟨rfl, (List.cons.inj h).2⟩
    | cons y ys => exact absurd ((List.cons.inj h).1 ▸ List.mem_cons_self) hys
  | cons x xs ih =>
    cases ys with
    | nil => exact absurd ((List.cons.inj h).1 ▸ List.mem_cons_self) hxs
    | cons y ys =>
      obtain ⟨rfl, htail⟩ := List.cons.inj h
      obtain ⟨rfl, hrest⟩ := ih (List.not_mem_of_not_mem_cons hxs)
        (List.not_mem_of_not_mem_cons hys) htail
      exact ⟨rfl, hrest⟩

/-- The escaped form of a character tells where it ends. -/
theorem escapeNameChar_append_inj {c d : Char} {cs ds : List Char}
    (h : escapeNameChar c ++ cs = escapeNameChar d ++ ds) : c = d ∧ cs = ds := by
  have hunderscore : ∀ {e : Char}, e.isAlphanum = true → e ≠ '_' := by
    rintro e he rfl
    exact absurd he (by decide)
  unfold escapeNameChar at h
  -- an unescaped character is no underscore, so one cannot stand against an escaped one
  split at h <;> split at h
  · simpa using h
  · next hc _ => exact absurd (List.cons.inj h).1 (hunderscore hc)
  · next hd => exact absurd (List.cons.inj h).1.symm (hunderscore hd)
  · have htail : Nat.toDigits 16 c.toNat ++ '_' :: cs = Nat.toDigits 16 d.toNat ++ '_' :: ds := by
      simpa using h
    obtain ⟨hdigits, hrest⟩ := append_cons_inj (underscore_notMem_toDigits _)
      (underscore_notMem_toDigits _) htail
    exact ⟨Char.toNat_inj.1 (toDigits_injective hdigits), hrest⟩

theorem escapeNameChar_ne_nil (c : Char) : escapeNameChar c ≠ [] := by
  unfold escapeNameChar
  split <;> simp

/-- Character by character, as each escaped form tells where it ends. -/
theorem escapeName_injective {s t : String} (h : escapeName s = escapeName t) : s = t := by
  have hchars : ∀ cs ds : List Char,
      cs.flatMap escapeNameChar = ds.flatMap escapeNameChar → cs = ds := by
    intro cs
    induction cs with
    | nil =>
      intro ds hds
      cases ds with
      | nil => rfl
      | cons d ds => exact absurd hds.symm (by simp [escapeNameChar_ne_nil])
    | cons c cs ih =>
      intro ds hds
      cases ds with
      | nil => exact absurd hds (by simp [escapeNameChar_ne_nil])
      | cons d ds =>
        rw [List.flatMap_cons, List.flatMap_cons] at hds
        obtain ⟨rfl, hrest⟩ := escapeNameChar_append_inj hds
        rw [ih ds hrest]
  exact String.toList_inj.1 (hchars _ _ (String.ofList_inj.1 h))

/-! ### Variables

The variable of a type is its escaped name behind a letter of its own. That of an array also holds
the number of dimensions, which is read from the end. -/

theorem Context.typeVariable_injective {s t : String}
    (h : Context.typeVariable s = Context.typeVariable t) : s = t := by
  have hchars := congrArg String.toList h
  simp only [Context.typeVariable, String.toList_append] at hchars
  exact escapeName_injective (String.toList_inj.1 (List.append_cancel_left hchars))

/-- The dimensions stand behind the last letter, whatever the component is. -/
theorem ArraySignature.variableName_injective {s t : ArraySignature}
    (h : s.variableName = t.variableName) :
    s.component.id = t.component.id ∧ s.dimensions = t.dimensions := by
  -- read from the end: digits come first, then a letter that is no digit
  have hchars := congrArg (fun v => v.toList.reverse) h
  simp only [variableName, String.toList_append, List.reverse_append, toString,
    Nat.toList_repr] at hchars
  have hletter : ∀ n : Nat, 'd' ∉ (Nat.toDigits 10 n).reverse := by
    intro n hd
    exact absurd (Nat.isDigit_of_mem_toDigits (by decide) (by decide) (List.mem_reverse.1 hd))
      (by decide)
  have hsplit : (Nat.toDigits 10 s.dimensions).reverse ++ 'd' :: '_' ::
        ((escapeName s.component.id).toList.reverse ++ "arr_".toList.reverse) =
      (Nat.toDigits 10 t.dimensions).reverse ++ 'd' :: '_' ::
        ((escapeName t.component.id).toList.reverse ++ "arr_".toList.reverse) := by
    simpa using hchars
  obtain ⟨hdigits, hrest⟩ := append_cons_inj (hletter _) (hletter _) hsplit
  have hname := List.append_cancel_right (List.cons.inj hrest).2
  have hnumber := congrArg (Nat.ofDigitChars 10 · 0) (List.reverse_inj.1 hdigits)
  simp only [Nat.ofDigitChars_ten_toDigits] at hnumber
  exact ⟨escapeName_injective (String.toList_inj.1 (List.reverse_inj.1 hname)), hnumber⟩

theorem ArraySignature.id_eq_of_variableName {s t : ArraySignature}
    (h : s.variableName = t.variableName) : s.id = t.id := by
  obtain ⟨hcomponent, hdimensions⟩ := variableName_injective h
  show s.component.id ++ brackets s.dimensions = t.component.id ++ brackets t.dimensions
  rw [hcomponent, hdimensions]

/-- The first letter tells the variable of a type from that of an array. -/
theorem typeVariable_ne_variableName (name : String) (s : ArraySignature) :
    Context.typeVariable name ≠ s.variableName := by
  intro h
  have hchars := congrArg String.toList h
  simp [Context.typeVariable, ArraySignature.variableName] at hchars

end TaggedWire
