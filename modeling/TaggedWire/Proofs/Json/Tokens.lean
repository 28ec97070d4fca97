import TaggedWire.Json.Layout
import TaggedWire.Json.Token
import Mathlib.Data.List.Forall2

/-!
# Tokens of composed texts

A text that stands between brackets or commas is scanned as if it stood alone.  Two facts carry
this.  A scan never looks at the tokens it has completed (`scan_onto`), and a text that is complete
by itself leaves at most a number open, which a comma or a closing bracket ends in the same way as
the end of the text does (`step_closed`).

* `tokens?_arrayText`, `tokens?_objectText`: the tokens of an array or object are those of its
  parts, with the brackets, commas and colons between them.
* `tokens?_quote`: a text in quotes is one string token.
-/

namespace TaggedWire.Json

/-! ### Scanning on top of other tokens

Tokens are only ever added, so a scan goes on in the same way whatever tokens lie below. -/

namespace Scan

/-- A scan with more tokens completed before it. -/
def onto (below : List Token) (s : Scan) : Scan := ⟨s.mode, s.tokens ++ below⟩

/-- A scan whose open number, if there is one, is completed. -/
def closed? (s : Scan) : Option Scan :=
  match s.mode with
  | .outside => some s
  | .number part n => if part.complete then some (s.emit (.number n)) else none
  | .word _ _ | .string _ _ => none

theorem stepOutside_onto (below : List Token) (s : Scan) (c : Char) :
    (s.onto below).stepOutside c = (s.stepOutside c).map (onto below) := by
  unfold stepOutside
  split
  all_goals try rfl
  -- a blank, or the first character of a number
  next =>
    split
    · rfl
    · cases NumberPart.sign.next? {} c <;> rfl

theorem stepString_onto (below : List Token) (s : Scan) (escape : Escape) (pieces : Literal)
    (c : Char) : (s.onto below).stepString escape pieces c =
      (s.stepString escape pieces c).map (onto below) := by
  -- the tokens below are only carried along, whatever stands in the string
  cases escape with
  | outside =>
    simp only [stepString]
    split
    · rfl
    · split
      · rfl
      · split <;> rfl
  | opened =>
    simp only [stepString]
    split
    · rfl
    · cases escaped? c <;> rfl
  | unit missing value =>
    simp only [stepString]
    cases hexValue? c with
    | none => rfl
    | some d =>
      simp only [Option.map_some]
      split <;> rfl

theorem step_onto (below : List Token) (s : Scan) (c : Char) :
    (s.onto below).step c = (s.step c).map (onto below) := by
  obtain ⟨mode, tokens⟩ := s
  -- by what the scanner is in; the end of a number is followed by a step outside of it
  cases mode with
  | outside => exact stepOutside_onto below ⟨.outside, tokens⟩ c
  | word rest t =>
    cases rest with
    | nil => rfl
    | cons d rest =>
      show (if c = d then _ else _) = Option.map _ (if c = d then _ else _)
      split
      · cases rest <;> rfl
      · rfl
  | number part n =>
    simp only [step, onto]
    cases part.next? n c with
    | some next => rfl
    | none =>
      cases part.complete with
      | false => rfl
      | true => exact stepOutside_onto below ⟨.outside, .number n :: tokens⟩ c
  | string escape pieces =>
    exact stepString_onto below ⟨.string escape pieces, tokens⟩ escape pieces c

end Scan

theorem scan_onto (below : List Token) (s : Scan) (cs : List Char) :
    scan (s.onto below) cs = (scan s cs).map (Scan.onto below) := by
  induction cs generalizing s with
  | nil => rfl
  | cons c cs ih =>
    rw [scan_cons, scan_cons, Scan.step_onto]
    cases s.step c with
    | none => rfl
    | some s' => exact ih s'

/-! ### The end of a text

At the end of a complete text the scanner is outside of all tokens, or in a number that may end
here. A comma, a colon or a closing bracket ends it as well. -/

theorem Scan.finish_eq (s : Scan) : s.finish = s.closed?.map fun s => s.tokens.reverse := by
  obtain ⟨mode, tokens⟩ := s
  cases mode with
  | outside | word _ _ | string _ _ => rfl
  | number part n => cases h : part.complete <;> simp [finish, closed?, h]

/-- A comma or a closing bracket, with its token. -/
inductive Closes : Char → Token → Prop
  | comma : Closes ',' .comma
  | closeArray : Closes ']' .closeArray
  | closeObject : Closes '\x7d' .closeObject

theorem Closes.stepOutside {c : Char} {t : Token} (h : Closes c t) (s : Scan) :
    s.stepOutside c = some (s.emit t) := by
  cases h <;> rfl

theorem Closes.next? {c : Char} {t : Token} (h : Closes c t) (part : NumberPart) (n : Numeral) :
    part.next? n c = none := by
  cases h <;> cases part <;> rfl

/-- What closes a text ends an open number first. -/
theorem step_closed {s s' : Scan} {c : Char} {t : Token} (hs : s.closed? = some s')
    (hc : Closes c t) : s.step c = some (s'.emit t) := by
  obtain ⟨mode, tokens⟩ := s
  cases mode with
  | outside =>
    cases hs
    exact hc.stepOutside _
  | word _ _ | string _ _ => cases hs
  | number part n =>
    cases h : part.complete with
    | false => simp [Scan.closed?, h] at hs
    | true =>
      simp only [Scan.closed?, h, if_true, Option.some.injEq] at hs
      subst hs
      simp only [Scan.step, hc.next?, h, if_true]
      exact hc.stepOutside _

theorem tokens?_eq (cs : List Char) :
    tokens? cs = ((scan {} cs).bind Scan.closed?).map fun s => s.tokens.reverse := by
  unfold tokens?
  cases scan {} cs with
  | none => rfl
  | some s => exact s.finish_eq

theorem Scan.mode_of_closed? {s s' : Scan} (h : s.closed? = some s') : s'.mode = .outside := by
  obtain ⟨mode, tokens⟩ := s
  cases mode with
  | outside =>
    cases h
    rfl
  | word _ _ | string _ _ => cases h
  | number part n =>
    cases hc : part.complete with
    | false => simp [closed?, hc] at h
    | true =>
      simp only [closed?, hc, if_true, Option.some.injEq] at h
      subst h
      rfl

theorem Scan.closed?_onto (below : List Token) (s : Scan) :
    (s.onto below).closed? = s.closed?.map (onto below) := by
  obtain ⟨mode, tokens⟩ := s
  cases mode with
  | outside | word _ _ | string _ _ => rfl
  | number part n => cases h : part.complete <;> simp [closed?, onto, emit, h]

/-- A text that is complete by itself is complete after other tokens. -/
theorem scan_of_tokens? {cs : List Char} {ts : List Token} (h : tokens? cs = some ts)
    (below : List Token) :
    ∃ s, scan ⟨.outside, below⟩ cs = some s ∧
      s.closed? = some ⟨.outside, ts.reverse ++ below⟩ := by
  rw [tokens?_eq] at h
  obtain ⟨s', hs', rfl⟩ := Option.map_eq_some_iff.1 h
  obtain ⟨s, hs, hclosed⟩ := Option.bind_eq_some_iff.1 hs'
  have hstart : (⟨.outside, below⟩ : Scan) = ({} : Scan).onto below := rfl
  refine ⟨s.onto below, by rw [hstart, scan_onto, hs]; rfl, ?_⟩
  rw [Scan.closed?_onto, hclosed, List.reverse_reverse]
  have hmode := Scan.mode_of_closed? hclosed
  cases s'
  cases hmode
  rfl

/-- A complete text is followed by what closes it. -/
theorem scan_closed {cs : List Char} {ts : List Token} (h : tokens? cs = some ts) {c : Char}
    {t : Token} (hc : Closes c t) (rest : List Char) (below : List Token) :
    scan ⟨.outside, below⟩ (cs ++ c :: rest) =
      scan ⟨.outside, t :: (ts.reverse ++ below)⟩ rest := by
  obtain ⟨s, hs, hclosed⟩ := scan_of_tokens? h below
  rw [scan_append, hs, Option.bind_some, scan_cons, step_closed hclosed hc]
  rfl

/-! ### Brackets, commas and colons

The tokens of an array are those of its items with commas between them, in brackets. -/

/-- Runs of tokens with commas between them. -/
def separated : List (List Token) → List Token
  | [] => []
  | [ts] => ts
  | ts :: us :: rest => ts ++ .comma :: separated (us :: rest)

/-- The text, read alone, is these tokens. -/
def Scans (text : String) (ts : List Token) : Prop := tokens? text.toList = some ts

/-- Texts with commas between them, up to what closes them all. -/
theorem scan_joined {texts : List String} {tss : List (List Token)}
    (h : List.Forall₂ Scans texts tss) {c : Char} {t : Token} (hc : Closes c t) (rest : List Char)
    (below : List Token) :
    scan ⟨.outside, below⟩ ((joined "," texts).toList ++ c :: rest) =
      scan ⟨.outside, t :: ((separated tss).reverse ++ below)⟩ rest := by
  -- by induction on the texts, whose tokens pile up below
  induction h generalizing below with
  | nil =>
    show scan ⟨.outside, below⟩ (c :: rest) = _
    rw [scan_cons]
    show (Scan.stepOutside ⟨.outside, below⟩ c).bind _ = _
    rw [hc.stepOutside]
    rfl
  | @cons s ts ss tss hs hss ih =>
    cases hss with
    | nil => exact scan_closed hs hc rest below
    | @cons s' ts' ss' tss' hs' hss' =>
      have hjoined : (joined "," (s :: s' :: ss')).toList ++ c :: rest =
          s.toList ++ ',' :: ((joined "," (s' :: ss')).toList ++ c :: rest) := by
        simp [joined]
      rw [hjoined, scan_closed hs .comma, ih]
      simp [separated]

theorem tokens?_arrayText {texts : List String} {tss : List (List Token)}
    (h : List.Forall₂ Scans texts tss) :
    Scans (arrayText texts) (.openArray :: separated tss ++ [.closeArray]) := by
  have htext : (arrayText texts).toList = '[' :: ((joined "," texts).toList ++ [']']) := by
    simp [arrayText]
  show tokens? _ = _
  rw [tokens?, htext, scan_cons]
  show (scan ⟨.outside, [.openArray]⟩ _).bind _ = _
  rw [scan_joined h .closeArray]
  simp [scan_nil, Scan.finish]

/-! ### String literals

The scanner keeps what stands in quotes piece by piece, and each character is one piece, whether it
is written as itself, with a short escape or as a code unit. -/

/-- A character of a text in quotes, as it is read. -/
def Piece.ofChar (c : Char) : Piece :=
  match c with
  | '\x08' | '\x0c' | '\n' | '\r' | '\t' => .char c
  | c => if c.toNat < 0x20 then .unit c.toNat else .char c

/-- The literal that a text in quotes is read as. -/
def Literal.ofText (s : String) : Literal := s.toList.map Piece.ofChar

theorem hexValue?_hexDigit {n : Nat} (h : n < 16) : hexValue? (hexDigit n) = some n := by
  have hall : ∀ m < 16, hexValue? (hexDigit m) = some m := by decide
  exact hall n h

/-- The escape of a control character below U+0020 without a name. -/
theorem scan_unit (c : Char) (h : c.toNat < 0x20) (pieces : Literal) (below : List Token)
    (rest : List Char) :
    scan ⟨.string .outside pieces, below⟩
        (['\\', 'u', '0', '0', hexDigit (c.toNat / 16), hexDigit (c.toNat % 16)] ++ rest) =
      scan ⟨.string .outside (.unit c.toNat :: pieces), below⟩ rest := by
  have hhigh := hexValue?_hexDigit (show c.toNat / 16 < 16 by omega)
  have hlow := hexValue?_hexDigit (show c.toNat % 16 < 16 by omega)
  have hvalue : c.toNat / 16 * 16 + c.toNat % 16 = c.toNat := by omega
  have hzero : hexValue? '0' = some 0 := rfl
  simp only [List.cons_append, List.nil_append, scan_cons]
  simp [Scan.step, Scan.stepString, hzero, hhigh, hlow, hvalue]

theorem scan_escapeChar (c : Char) (pieces : Literal) (below : List Token) (rest : List Char) :
    scan ⟨.string .outside pieces, below⟩ (escapeChar c ++ rest) =
      scan ⟨.string .outside (.ofChar c :: pieces), below⟩ rest := by
  unfold escapeChar
  split
  -- the seven characters with an escape of one letter
  all_goals try rfl
  next hquote hsolidus hb hf hn hr ht =>
    have hpiece : Piece.ofChar c = if c.toNat < 0x20 then .unit c.toNat else .char c := by
      unfold Piece.ofChar
      split <;> simp_all
    rw [hpiece]
    split
    · next h => exact scan_unit c h pieces below rest
    · next h =>
      have hne : c ≠ '"' ∧ c ≠ '\\' := ⟨fun e => hquote e, fun e => hsolidus e⟩
      rw [List.singleton_append, scan_cons]
      simp [Scan.step, Scan.stepString, hne.1, hne.2, h]

theorem scan_escaped (cs : List Char) (pieces : Literal) (below : List Token) (rest : List Char) :
    scan ⟨.string .outside pieces, below⟩ (cs.flatMap escapeChar ++ rest) =
      scan ⟨.string .outside ((cs.map Piece.ofChar).reverse ++ pieces), below⟩ rest := by
  induction cs generalizing pieces with
  | nil => rfl
  | cons c cs ih =>
    rw [List.flatMap_cons, List.append_assoc, scan_escapeChar, ih]
    simp

/-- A text in quotes, before anything else, is one string token. -/
theorem scan_quote (s : String) (below : List Token) (rest : List Char) :
    scan ⟨.outside, below⟩ ((quote s).toList ++ rest) =
      scan ⟨.outside, .string (.ofText s) :: below⟩ rest := by
  have htext : (quote s).toList ++ rest = '"' :: (s.toList.flatMap escapeChar ++ '"' :: rest) := by
    simp [quote]
  rw [htext, scan_cons]
  show scan ⟨.string .outside [], below⟩ _ = _
  rw [scan_escaped, scan_cons]
  simp [Scan.step, Scan.stepString, Scan.emit, Literal.ofText]

/-- A quoted text is read as this text, whatever is in it. -/
theorem tokens?_quote (s : String) : Scans (quote s) [.string (.ofText s)] := by
  have h := scan_quote s [] []
  rw [List.append_nil] at h
  show tokens? _ = _
  rw [tokens?, h]
  rfl

theorem tokens?_memberText (key : String) {value : String} {ts : List Token}
    (h : Scans value ts) :
    Scans (memberText key value) (.string (.ofText key) :: .colon :: ts) := by
  have htext : (memberText key value).toList = (quote key).toList ++ ':' :: value.toList := by
    simp [memberText]
  have hcolon : ∀ below, scan ⟨.outside, below⟩ (':' :: value.toList) =
      scan ⟨.outside, .colon :: below⟩ value.toList := fun _ => rfl
  obtain ⟨s, hs, hclosed⟩ := scan_of_tokens? h [.colon, .string (.ofText key)]
  show tokens? _ = _
  rw [tokens?_eq, htext, scan_quote, hcolon, hs, Option.bind_some, hclosed]
  simp

theorem tokens?_objectText {members : List (String × String)} {tss : List (List Token)}
    (h : List.Forall₂ Scans (members.map (·.2)) tss) :
    Scans (objectText members)
      (.openObject :: separated ((members.zip tss).map fun e =>
        .string (.ofText e.1.1) :: .colon :: e.2) ++ [.closeObject]) := by
  have htext : (objectText members).toList =
      '\x7b' :: ((joined "," (members.map fun m => memberText m.1 m.2)).toList ++ ['\x7d']) := by
    simp [objectText]
  -- a member is scanned like an item, with its key and colon in front
  have hmembers : List.Forall₂ Scans (members.map fun m => memberText m.1 m.2)
      ((members.zip tss).map fun e => .string (.ofText e.1.1) :: .colon :: e.2) := by
    clear htext
    induction members generalizing tss with
    | nil =>
      cases h
      exact .nil
    | cons m members ih =>
      cases h with
      | cons hm hrest => exact .cons (tokens?_memberText m.1 hm) (ih hrest)
  show tokens? _ = _
  rw [tokens?, htext, scan_cons]
  show (scan ⟨.outside, [.openObject]⟩ _).bind _ = _
  rw [scan_joined hmembers .closeObject]
  simp [scan_nil, Scan.finish]

/-! ### What a literal denotes

The pieces of a literal are put together to characters again. -/

theorem chars?_unit {n : Nat} (h : n < 0x20) (rest : Literal) :
    Literal.chars? (.unit n :: rest) = (Literal.chars? rest).map (Char.ofNat n :: ·) := by
  have hl : isLeadingSurrogate n = false := by simp [isLeadingSurrogate]; omega
  have ht : isTrailingSurrogate n = false := by simp [isTrailingSurrogate]; omega
  cases rest with
  | nil => simp [Literal.chars?, hl, ht]
  | cons p rest => cases p <;> simp [Literal.chars?, hl, ht]

theorem chars?_ofChar (c : Char) (rest : Literal) :
    Literal.chars? (.ofChar c :: rest) = (Literal.chars? rest).map (c :: ·) := by
  unfold Piece.ofChar
  split
  all_goals try rfl
  split
  · next h => rw [chars?_unit h, Char.ofNat_toNat]
  · rfl

theorem Literal.text?_ofText (s : String) : (Literal.ofText s).text? = some s := by
  have hchars : ∀ cs : List Char, Literal.chars? (cs.map Piece.ofChar) = some cs := by
    intro cs
    induction cs with
    | nil => rfl
    | cons c cs ih => rw [List.map_cons, chars?_ofChar, ih, Option.map_some]
  rw [Literal.text?, Literal.ofText, hchars, Option.map_some, String.ofList_toList]

end TaggedWire.Json
