import VbTidy.Proofs.Padded
import VbTidy.Proofs.Twins

/-
Spacing and letter case. Where a space is set does not depend on the letter case of keywords:
spacing a text and writing its letters in one case may change places (`inOneCase_respaced`). So a
line that is spaced stays spaced when it is recased (`spaceLine_recaseLine`). The dotted capital I is
left as it is, since a word with it is no keyword.
-/
namespace VbTidy

/-! ## Letters in one case -/

/-- A letter of a keyword in lower case. -/
def oneCase (c : Char) : Char :=
  if c == 'İ' then c else anyCase c

/-- A text with the letters of keywords in lower case. -/
def inOneCase (t : Text) : Text :=
  t.map oneCase

@[simp] theorem inOneCase_nil : inOneCase [] = [] := rfl

@[simp] theorem inOneCase_cons (c : Char) (t : Text) :
    inOneCase (c :: t) = oneCase c :: inOneCase t := rfl

@[simp] theorem inOneCase_append (s t : Text) :
    inOneCase (s ++ t) = inOneCase s ++ inOneCase t :=
  List.map_append

theorem inOneCase_reverse (t : Text) : inOneCase t.reverse = (inOneCase t).reverse :=
  List.map_reverse

theorem head?_inOneCase (t : Text) : (inOneCase t).head? = t.head?.map oneCase :=
  List.head?_map

/-- A letter is left, or it is lowered within ASCII, or it is the Kelvin sign. -/
theorem oneCase_cases (c : Char) :
    oneCase c = c ∨ (c.toNat < 0x80 ∧ oneCase c = c.toLower) ∨ (c = '\u212A' ∧ oneCase c = 'k') := by
  rw [oneCase]
  split
  · exact .inl rfl
  · next hdot =>
    rw [anyCase]
    split
    · next hname =>
      by_cases hc : c.toNat < 0x80
      · exact .inr (.inl ⟨hc, by rw [lowerChar, if_pos hc]⟩)
      · rcases lowerChar_of_not_ascii (Nat.le_of_not_lt hc) with ⟨hlow, _⟩ | ⟨rfl, _⟩ | h
        · have := isNameChar_toNat hname
          omega
        · exact absurd rfl hdot
        · exact .inr (.inr h)
    · exact .inl rfl

/-- A class of characters in which letters stand in either case. -/
structure EitherCase (p : Char → Bool) : Prop where
  ascii : ∀ n < 0x80, p (Char.ofNat n).toLower = p (Char.ofNat n)
  kelvin : p 'k' = p '\u212A'

theorem EitherCase.oneCase {p : Char → Bool} (h : EitherCase p) (c : Char) :
    p (oneCase c) = p c := by
  rcases oneCase_cases c with hc | ⟨hascii, hc⟩ | ⟨rfl, hc⟩
  · rw [hc]
  · rw [hc]
    exact of_ascii (p := fun c => p c.toLower = p c) h.ascii c hascii
  · rw [hc, h.kelvin]

theorem isWord_oneCase (c : Char) : isWord (oneCase c) = isWord c := by
  rw [oneCase]
  split
  · rfl
  · exact isWord_anyCase c

theorem oneCase_of_not_word {c : Char} (h : isWord c = false) : oneCase c = c := by
  rw [oneCase, anyCase_of_not_word h, ite_self]

/-- A class without word characters has letters in neither case. -/
theorem class_oneCase {p : Char → Bool} (hp : ∀ c, p c = true → isWord c = false) (c : Char) :
    p (oneCase c) = p c := by
  rw [oneCase]
  split
  · rfl
  · exact class_anyCase hp c

theorem isSpace_oneCase (c : Char) : isSpace (oneCase c) = isSpace c := by
  rw [oneCase]
  split
  · rfl
  · exact isSpace_anyCase c

theorem isBlank_oneCase (c : Char) : isBlank (oneCase c) = isBlank c := by
  rw [oneCase]
  split
  · rfl
  · exact isBlank_anyCase c

theorem lowerChar_oneCase (c : Char) : lowerChar (oneCase c) = lowerChar c := by
  rw [oneCase]
  split
  · rfl
  · exact lowerChar_anyCase c

theorem isDecimal_oneCase (c : Char) : isDecimal (oneCase c) = isDecimal c :=
  EitherCase.oneCase ⟨by decide, by decide⟩ c

/-- A sign that is no letter is told in any text. -/
theorem beq_oneCase {d : Char} (hd : isWord d = false) (c : Char) :
    (oneCase c == d) = (c == d) :=
  class_oneCase (p := (· == d)) (fun e he => by rw [beq_iff_eq.mp he, hd]) c

section
variable {p : Char → Bool} (hp : ∀ c, p (oneCase c) = p c)
include hp

theorem inOneCase_dropWhile (t : Text) :
    (inOneCase t).dropWhile p = inOneCase (t.dropWhile p) := by
  rw [inOneCase, List.dropWhile_map, Function.comp_def]
  simp only [hp]
  rfl

theorem inOneCase_takeWhile (t : Text) :
    (inOneCase t).takeWhile p = inOneCase (t.takeWhile p) := by
  rw [inOneCase, List.takeWhile_map, Function.comp_def]
  simp only [hp]
  rfl

theorem inOneCase_filter (t : Text) : (inOneCase t).filter p = inOneCase (t.filter p) := by
  rw [inOneCase, List.filter_map, Function.comp_def]
  simp only [hp]
  rfl

end

theorem inOneCase_bare (t : Text) : bare (inOneCase t) = inOneCase (bare t) :=
  inOneCase_filter (fun c => by rw [isBlank_oneCase]) t

/-- Texts in any letter case are the same if they are so but for white space and but for case. -/
theorem eq_of_ink {s t : Text} (hcase : inOneCase s = inOneCase t) (hink : ink s = ink t) : s = t := by
  induction s generalizing t with
  | nil =>
    rw [inOneCase_nil, eq_comm, inOneCase, List.map_eq_nil_iff] at hcase
    exact hcase.symm
  | cons c s ih =>
    obtain ⟨d, t, rfl, hc, hs⟩ := List.map_eq_cons_iff.mp hcase.symm
    have hspace : isSpace c = isSpace d := by
      rw [← isSpace_oneCase c, ← isSpace_oneCase d, hc]
    cases hd : isSpace d with
    | true =>
      rw [hd] at hspace
      have hplain : ∀ e, isSpace e = true → oneCase e = e := fun e he =>
        oneCase_of_not_word (isWord_of_isBreak (by simp [isBreak, he]))
      rw [hplain d hd, hplain c hspace] at hc
      rw [ink, ink, List.filter_cons_of_neg (by simp [hspace]),
        List.filter_cons_of_neg (by simp [hd])] at hink
      rw [hc, ih hs.symm hink]
    | false =>
      rw [hd] at hspace
      rw [ink, ink, List.filter_cons_of_pos (by simp [hspace]),
        List.filter_cons_of_pos (by simp [hd])] at hink
      obtain ⟨rfl, hrest⟩ := List.cons.inj hink
      rw [ih hs.symm hrest]

/-! ## Settings -/

theorem radixDigit_oneCase (c d : Char) :
    radixDigit (oneCase c) (oneCase d) = radixDigit c d := by
  have hhex : ∀ c, (oneCase c == 'h' || oneCase c == 'H') = (c == 'h' || c == 'H') :=
    EitherCase.oneCase (p := fun c => c == 'h' || c == 'H') ⟨by decide, by decide⟩
  have hoctal : ∀ c, (oneCase c == 'o' || oneCase c == 'O') = (c == 'o' || c == 'O') :=
    EitherCase.oneCase (p := fun c => c == 'o' || c == 'O') ⟨by decide, by decide⟩
  have hdigit : ∀ d, startsRadix.isHexDigit (oneCase d) = startsRadix.isHexDigit d :=
    EitherCase.oneCase ⟨by decide, by decide⟩
  have hdigit' : ∀ d, startsRadix.isOctalDigit (oneCase d) = startsRadix.isOctalDigit d :=
    EitherCase.oneCase ⟨by decide, by decide⟩
  rw [radixDigit, radixDigit, hhex, hoctal]
  split
  · exact hdigit d
  · split
    · exact hdigit' d
    · rfl

theorem wordAt_oneCase (o : Option Char) : wordAt (o.map oneCase) = wordAt o := by
  cases o with
  | none => rfl
  | some c => exact isWord_oneCase c

theorem startsRadix_inOneCase (t : Text) : startsRadix (inOneCase t) = startsRadix t := by
  cases t with
  | nil => rfl
  | cons c t =>
    have hdrop : (inOneCase t).dropWhile (radixDigit (oneCase c)) =
        inOneCase (t.dropWhile (radixDigit c)) := by
      rw [inOneCase, List.dropWhile_map, Function.comp_def]
      simp only [radixDigit_oneCase]
      rfl
    rw [inOneCase_cons, startsRadix_cons, startsRadix_cons, hdrop, head?_inOneCase,
      head?_inOneCase, wordAt_oneCase, Option.any_map]
    simp only [radixDigit_oneCase]

theorem skipFinalNewline_inOneCase (back : Text) :
    skipFinalNewline (inOneCase back) = inOneCase (skipFinalNewline back) := by
  have hfeed : ∀ c, c ≠ '\n' → ∀ t : Text, skipFinalNewline (c :: t) = c :: t := by
    intro c hc t
    rw [skipFinalNewline]
    intro _ h
    exact hc (List.cons.inj h).1
  cases back with
  | nil => rfl
  | cons c t =>
    by_cases hc : c = '\n'
    · subst hc
      rfl
    · have hc' : oneCase c ≠ '\n' := by
        have := beq_oneCase (d := '\n') (by decide) c
        simpa [hc] using this
      rw [inOneCase_cons, hfeed _ hc', hfeed c hc, inOneCase_cons]

theorem startsNumber_inOneCase (t : Text) : startsNumber (inOneCase t) = startsNumber t := by
  cases t with
  | nil => rfl
  | cons c t =>
    rw [inOneCase_cons, startsNumber, startsNumber, isWord_oneCase, beq_oneCase (by decide)]

theorem endsWithExponent_inOneCase (back : Text) :
    endsWithExponent (inOneCase back) = endsWithExponent back := by
  have hletter : ∀ c, (oneCase c == 'e' || oneCase c == 'E') = (c == 'e' || c == 'E') :=
    EitherCase.oneCase (p := fun c => c == 'e' || c == 'E') ⟨by decide, by decide⟩
  rw [endsWithExponent, endsWithExponent, skipFinalNewline_inOneCase]
  cases skipFinalNewline back with
  | nil => rfl
  | cons e back =>
    simp only [inOneCase_cons, hletter]
    cases back with
    | nil => rfl
    | cons d back =>
      simp only [inOneCase_cons, isDecimal_oneCase]
      rw [← inOneCase_cons, inOneCase_dropWhile isDecimal_oneCase]
      congr 2
      cases (d :: back).dropWhile isDecimal with
      | nil => rfl
      | cons c t =>
        by_cases hc : c = '.'
        · subst hc
          have hpoint : oneCase '.' = '.' := oneCase_of_not_word (by decide)
          simp only [inOneCase_cons, hpoint]
          rw [inOneCase_dropWhile isDecimal_oneCase, startsNumber_inOneCase]
        · have hc' : oneCase c ≠ '.' := by
            have := beq_oneCase (d := '.') (by decide) c
            simpa [hc] using this
          rw [inOneCase_cons]
          split
          · next h => exact absurd (List.cons.inj h).1 hc'
          · split
            · next h => exact absurd (List.cons.inj h).1 hc
            · exact startsNumber_inOneCase (c :: t)

theorem lowerAfter_plain {t : Text} (hdot : 'İ' ∉ t) (hsigma : 'Σ' ∉ t) (before : Text) :
    lowerAfter before t = t.map lowerChar := by
  induction t generalizing before with
  | nil => rfl
  | cons c t ih =>
    rw [List.mem_cons, not_or] at hdot hsigma
    have hc : (c == 'Σ') = false := beq_eq_false_iff_ne.mpr (Ne.symm hsigma.1)
    have hd : (c == 'İ') = false := beq_eq_false_iff_ne.mpr (Ne.symm hdot.1)
    simp [lowerAfter, hc, hd, ih hdot.2 hsigma.2]

/-- Words in ASCII are told from their letters one by one. -/
theorem lower_eq_iff {w : Text} (hw : Ascii w) (t : Text) :
    lower t = w ↔ t.map lowerChar = w ∧ 'İ' ∉ t := by
  constructor
  · intro h
    have hascii : Ascii (lower t) := by rwa [h]
    obtain ⟨hmap, hdot⟩ := lowerAfter_ascii hascii
    exact ⟨hmap.symm.trans h, hdot⟩
  · rintro ⟨rfl, hdot⟩
    refine lowerAfter_plain hdot (fun hsigma => ?_) []
    have := hw _ (List.mem_map_of_mem hsigma)
    revert this
    decide

theorem oneCase_eq_dotted {c : Char} : oneCase c = 'İ' ↔ c = 'İ' := by
  constructor
  · intro h
    rcases oneCase_cases c with hc | ⟨hascii, hc⟩ | ⟨_, hc⟩
    · rw [← hc, h]
    · have hlow : c.toLower.toNat < 0x80 :=
        of_ascii (p := fun c => c.toLower.toNat < 0x80) (by decide) c hascii
      rw [← hc, h] at hlow
      exact absurd hlow (by decide)
    · rw [hc] at h
      exact absurd h (by decide)
  · rintro rfl
    rfl

theorem lower_inOneCase {w : Text} (hw : Ascii w) (t : Text) :
    lower (inOneCase t) = w ↔ lower t = w := by
  have hmap : (inOneCase t).map lowerChar = t.map lowerChar := by
    rw [inOneCase, List.map_map]
    exact List.map_congr_left fun c _ => lowerChar_oneCase c
  have hdot : 'İ' ∈ inOneCase t ↔ 'İ' ∈ t := by
    rw [inOneCase, List.mem_map]
    constructor
    · rintro ⟨c, hc, h⟩
      rwa [oneCase_eq_dotted.mp h] at hc
    · exact fun h => ⟨'İ', h, rfl⟩
  rw [lower_eq_iff hw, lower_eq_iff hw, hmap, hdot]

theorem takesSign_inOneCase (back : Text) : takesSign (inOneCase back) = takesSign back := by
  cases back with
  | nil => rfl
  | cons c t =>
    have hascii : ∀ w ∈ wordsBeforeSign, Ascii w := by decide
    have hclass : charsBeforeSign.contains (oneCase c) = charsBeforeSign.contains c := by
      have hsign : ∀ d ∈ charsBeforeSign, isWord d = false := by decide
      exact class_oneCase (fun d hd => hsign d (by simpa using hd)) c
    have hlast : lastWord (oneCase c :: inOneCase t) = inOneCase (lastWord (c :: t)) := by
      rw [lastWord, ← inOneCase_cons, skipFinalNewline_inOneCase,
        inOneCase_takeWhile isWord_oneCase, ← inOneCase_reverse]
      rfl
    have hword : wordsBeforeSign.contains (lower (inOneCase (lastWord (c :: t)))) =
        wordsBeforeSign.contains (lower (lastWord (c :: t))) := by
      rw [Bool.eq_iff_iff, List.contains_iff_mem, List.contains_iff_mem]
      constructor
      · exact fun h => ((lower_inOneCase (hascii _ h) _).mp rfl).symm ▸ h
      · exact fun h => ((lower_inOneCase (hascii _ h) _).mpr rfl).symm ▸ h
    rw [inOneCase_cons, takesSign, takesSign, hclass, hlast, hword]

theorem inOneCase_eq_sign {d : Char} (hd : isWord d = false) (op : Text) :
    (inOneCase op == [d]) = (op == [d]) := by
  rcases op with _ | ⟨c, _ | ⟨e, op⟩⟩
  · rfl
  · have h := beq_oneCase hd c
    simpa [inOneCase] using h
  · simp

/-- How an operator is set does not depend on letter case. -/
theorem settingOf_inOneCase (back op after : Text) :
    settingOf (inOneCase back) (inOneCase op) (inOneCase after) = settingOf back op after := by
  rw [settingOf, settingOf, inOneCase_eq_sign (by decide), inOneCase_eq_sign (by decide),
    inOneCase_eq_sign (by decide), endsWithExponent_inOneCase, startsRadix_inOneCase,
    inOneCase_dropWhile isBlank_oneCase, takesSign_inOneCase]

/-! ## Spacing -/

theorem inOneCase_of_blanks {s : Text} (hs : ∀ c ∈ s, isBlank c = true) : inOneCase s = s := by
  rw [inOneCase, List.map_congr_left fun c hc =>
    oneCase_of_not_word (isWord_of_isBreak (by simp [isBreak, isSpace_of_isBlank (hs c hc)]))]
  exact List.map_id s

theorem ahead_inOneCase (how : Setting) (back : Text) :
    how.ahead (inOneCase back) = inOneCase (how.ahead back) := by
  have hbefore : how.before ((inOneCase (back.dropWhile isBlank)).head?) =
      how.before ((back.dropWhile isBlank).head?) := by
    rw [head?_inOneCase]
    cases (back.dropWhile isBlank).head? with
    | none => rfl
    | some c =>
      cases how with
      | exponent => rfl
      | binary => rfl
      | sign =>
        have h := beq_oneCase (d := '(') (by decide) c
        simp only [Option.map_some, Setting.before, h]
  rw [Setting.ahead, Setting.ahead]
  split
  · rfl
  · rw [inOneCase_dropWhile isBlank_oneCase, hbefore, inOneCase_append,
      inOneCase_of_blanks (Setting.blank_before how _)]

theorem setOperator_inOneCase (back op : Text) (how : Setting) :
    setOperator (inOneCase back) (inOneCase op) how = inOneCase (setOperator back op how) := by
  rw [setOperator_eq, setOperator_eq, ahead_inOneCase, inOneCase_append, inOneCase_append,
    inOneCase_of_blanks (Setting.blank_behind how)]

/-- A cut, each part with its letters in one case. -/
def Weave.inOneCase (w : Weave) : Weave :=
  ⟨VbTidy.inOneCase w.head, w.rest.map fun p => (VbTidy.inOneCase p.1, VbTidy.inOneCase p.2)⟩

theorem setOperators_inOneCase (back : Text) (rest : List (Text × Text)) :
    setOperators (inOneCase back) (rest.map fun p => (inOneCase p.1, inOneCase p.2)) =
      inOneCase (setOperators back rest) := by
  induction rest generalizing back with
  | nil => rfl
  | cons p rest ih =>
    obtain ⟨hit, after⟩ := p
    rw [List.map_cons, setOperators_cons, setOperators_cons, inOneCase_bare,
      settingOf_inOneCase, ← inOneCase_reverse, setOperator_inOneCase,
      inOneCase_dropWhile isBlank_oneCase, ← inOneCase_reverse, ← inOneCase_append, ih]

theorem dropOperator?_inOneCase (t : Text) :
    dropOperator? (inOneCase t) = (dropOperator? t).map inOneCase := by
  cases t with
  | nil => rfl
  | cons c t =>
    have hfirst : ∀ d, (seconds (oneCase c)).contains d = (seconds c).contains d := by
      intro d
      rw [seconds, seconds, beq_oneCase (by decide), beq_oneCase (by decide),
        beq_oneCase (by decide), beq_oneCase (by decide)]
    have hsecond : ∀ d, (seconds c).contains (oneCase d) = (seconds c).contains d := by
      have hsign : ∀ d ∈ ['<', '>', '='], isWord d = false := by decide
      exact class_oneCase fun d hd => hsign d (mem_seconds hd)
    have halone : standsAlone (oneCase c) = standsAlone c := by
      have hsign : ∀ d ∈ ['<', '=', '>', '&', '+', '-'], isWord d = false := by decide
      exact class_oneCase (fun d hd => hsign d (by simpa [standsAlone] using hd)) c
    rw [inOneCase_cons, dropOperator?_cons, dropOperator?_cons, inOneCase_dropWhile isBlank_oneCase,
      halone]
    cases t.dropWhile isBlank with
    | nil =>
      simp only [inOneCase_nil]
      split <;> rfl
    | cons d rest =>
      simp only [inOneCase_cons, hfirst, hsecond]
      split
      · rfl
      · split <;> rfl

/-- Operators stand at the same places in any letter case. -/
theorem weave_inOneCase (t : Text) :
    operatorPattern.weave (inOneCase t) = (operatorPattern.weave t).inOneCase := by
  induction t using operator_induction with
  | nil => rfl
  | miss c t h ih =>
    have hnone : dropOperator? (oneCase c :: inOneCase t) = none := by
      rw [← inOneCase_cons, dropOperator?_inOneCase, h]
      rfl
    rw [inOneCase_cons, weave_operator_miss hnone, ih, weave_operator_miss h]
    rfl
  | hit op rest hedged h ih =>
    have hsome : dropOperator? (inOneCase op ++ inOneCase rest) = some (inOneCase rest) := by
      rw [← inOneCase_append, dropOperator?_inOneCase, h]
      rfl
    have hne : inOneCase op ≠ [] := by
      rw [inOneCase, Ne, List.map_eq_nil_iff]
      exact hedged.ne_nil
    rw [inOneCase_append, weave_operator_hit hne hsome, ih, weave_operator_hit hedged.ne_nil h]
    rfl

theorem inOneCase_spaceOperators (code : Text) :
    spaceOperators (inOneCase code) = inOneCase (spaceOperators code) := by
  rw [spaceOperators, spaceOperators, weave_inOneCase]
  simp only [Weave.inOneCase]
  rw [← inOneCase_reverse, setOperators_inOneCase, inOneCase_dropWhile isBlank_oneCase,
    ← inOneCase_reverse]

theorem inOneCase_spaceContinuation (code : Text) :
    spaceContinuation (inOneCase code) = inOneCase (spaceContinuation code) := by
  have hmark : ∀ c, (oneCase c == '_') = (c == '_') :=
    EitherCase.oneCase (p := (· == '_')) ⟨by decide, by decide⟩
  have hother : ∀ {t : Text}, (∀ c u, t.reverse ≠ '_' :: c :: u) → spaceContinuation t = t := by
    intro t ht
    rw [spaceContinuation]
    split
    · next h => exact absurd h (ht _ _)
    · rfl
  by_cases h : ∃ c u, code.reverse = '_' :: c :: u
  · obtain ⟨c, u, h⟩ := h
    have h' : (inOneCase code).reverse = '_' :: oneCase c :: inOneCase u := by
      rw [← inOneCase_reverse, h]
      rfl
    rw [spaceContinuation, spaceContinuation, h, h']
    simp only [isBlank_oneCase]
    split
    · rw [← inOneCase_cons, inOneCase_dropWhile isBlank_oneCase, ← inOneCase_reverse,
        inOneCase_append]
      rfl
    · rfl
  · have h' : ∀ c u, (inOneCase code).reverse ≠ '_' :: c :: u := by
      intro c u hc
      rw [← inOneCase_reverse] at hc
      obtain ⟨d, v, hd, hmap, hv⟩ := List.map_eq_cons_iff.mp hc
      obtain ⟨e, w, rfl, _, _⟩ := List.map_eq_cons_iff.mp hv
      have hd' : d = '_' := by
        have := hmark d
        rw [hmap] at this
        simpa using this.symm
      exact h ⟨e, w, by rw [hd, hd']⟩
    rw [hother h', hother fun c u hc => h ⟨c, u, hc⟩]

/-- Code is spaced the same in any letter case. -/
theorem inOneCase_respaced (code : Text) : respaced (inOneCase code) = inOneCase (respaced code) := by
  rw [respaced, inOneCase_spaceOperators, inOneCase_spaceContinuation]
  rfl

/-- Code that is spaced is so in any letter case. -/
theorem respaced_of_inOneCase {s t : Text} (h : inOneCase s = inOneCase t) (hs : respaced s = s) :
    respaced t = t := by
  apply eq_of_ink
  · rw [← inOneCase_respaced, ← h, inOneCase_respaced, hs, h]
  · exact ink_of_bare (bare_respaced t)

/-! ## Recasing -/

/-- Letters of one lower case are the same letter of a keyword. -/
theorem inOneCase_of_lower {s t : Text} (hs : 'İ' ∉ s) (ht : 'İ' ∉ t)
    (h : s.map lowerChar = t.map lowerChar) (hname : ∀ c ∈ t.map lowerChar, isNameChar c = true) :
    inOneCase s = inOneCase t := by
  have hmap : ∀ u : Text, 'İ' ∉ u → u.map lowerChar = t.map lowerChar →
      inOneCase u = u.map lowerChar := by
    intro u hu hlower
    apply List.map_congr_left
    intro c hc
    have hdot : (c == 'İ') = false := beq_eq_false_iff_ne.mpr fun h => hu (h ▸ hc)
    have hletter : isNameChar (lowerChar c) = true :=
      hname _ (hlower ▸ List.mem_map_of_mem hc)
    rw [oneCase, hdot, anyCase, if_pos hletter]
    rfl
  rw [hmap s hs h, hmap t ht rfl, h]

/-- A word keeps its letters when it is recased, whatever their case. -/
theorem inOneCase_recaseWord {case : LetterCase} {word out : Text}
    (h : recaseWord case word = .ok out) : inOneCase out = inOneCase word := by
  rw [recaseWord] at h
  split at h
  · split at h
    · next k hk =>
      obtain ⟨hmem, hlow⟩ := properSpelling_mem hk
      obtain rfl := Except.ok.inj h
      have hname := keywords_lower hmem
      have hascii : Ascii (k.map Char.toLower) := by
        intro c hc
        have := isNameChar_toNat (hname c hc)
        omega
      obtain ⟨hword, hdot⟩ := (lower_eq_iff hascii word).mp hlow.symm
      obtain ⟨hwrite, hdot'⟩ := (lower_eq_iff hascii _).mp (lower_write hmem case)
      exact inOneCase_of_lower hdot' hdot (hwrite.trans hword.symm) (hword ▸ hname)
    · cases h
  · rw [Except.ok.inj h]

theorem Rewrites.inOneCase {case : LetterCase} {runs outs : List Text} (h : Rewrites case runs outs) :
    VbTidy.inOneCase outs.flatten = VbTidy.inOneCase runs.flatten := by
  induction h with
  | nil => rfl
  | cons hw _ ih =>
    rw [List.flatten_cons, List.flatten_cons, inOneCase_append, inOneCase_append, ih,
      inOneCase_recaseWord hw]

/-- Text that starts and ends with ink does so in any letter case. -/
theorem fromTo_of_inOneCase {c d : Char} {s t : Text} (h : FromTo c d s) (hc : isSpace c = false)
    (hd : isSpace d = false) (hcase : inOneCase t = inOneCase s) :
    ∃ c' d', FromTo c' d' t ∧ isSpace c' = false ∧ isSpace d' = false := by
  have hend : ∀ {o o' : Option Char} {e : Char}, o.map oneCase = o'.map oneCase → o' = some e →
      isSpace e = false → ∃ e', o = some e' ∧ isSpace e' = false := by
    rintro o _ e ho rfl he
    obtain ⟨e', rfl, he'⟩ := Option.map_eq_some_iff.mp ho
    exact ⟨e', rfl, by rw [← isSpace_oneCase, he', isSpace_oneCase, he]⟩
  have hfirst : t.head?.map oneCase = s.head?.map oneCase := by
    rw [← head?_inOneCase, hcase, head?_inOneCase]
  have hlast : t.getLast?.map oneCase = s.getLast?.map oneCase := by
    rw [← List.getLast?_map, ← List.getLast?_map]
    exact congrArg List.getLast? hcase
  obtain ⟨c', hc', hink⟩ := hend hfirst h.1 hc
  obtain ⟨d', hd', hink'⟩ := hend hlast h.2 hd
  exact ⟨c', d', ⟨hc', hd'⟩, hink, hink'⟩

/-- A comment at the end of a line that is recased stood there before. -/
theorem Recased.token_suffix {t t' : Text} {m : Kind} (h : Recased t t') (hm : m.token <:+ t') :
    m.token <:+ t := by
  obtain ⟨x', rfl⟩ := hm
  have hocc : Occurs (.kind m) x' [] (x' ++ m.token) :=
    ⟨by rw [List.append_nil]; rfl, sound_of_ends h.sound⟩
  obtain ⟨x, y, hxy, _, hy⟩ := h.occurs hocc
  cases hy
  exact ⟨x, by rw [hxy.eq, List.append_nil]; rfl⟩

/-- A comment stays behind its code when the line is recased. -/
theorem Rewrites.comment {case : LetterCase} {code : Text} {outs : List Text}
    (h : Rewrites case (wordRuns (code ++ Kind.remark.token)) outs) :
    ∃ code', VbTidy.inOneCase code' = VbTidy.inOneCase code ∧
      outs.flatten = code' ++ Kind.remark.token := by
  have htoken : Rewrites case (wordRuns (code ++ ((Mark.kind .remark).token ++ []))) outs := by
    rw [List.append_nil]
    exact h
  obtain ⟨outs₁, outs₂, h₁, h₂, hflat⟩ := htoken.token
  obtain rfl : outs₂ = [] := List.forall₂_nil_left_iff.mp h₂
  rw [List.flatten_nil, List.append_nil] at hflat
  refine ⟨outs₁.flatten, ?_, hflat⟩
  rw [h₁.inOneCase, flatten_wordRuns]

/-- A space at the end is one in any letter case. -/
theorem inOneCase_eq_space {s t : Text} (h : inOneCase t = inOneCase (s ++ [' '])) :
    ∃ s', t = s' ++ [' '] ∧ inOneCase s' = inOneCase s := by
  rw [inOneCase_append] at h
  obtain ⟨s', u, rfl, hs', hu⟩ := List.map_eq_append_iff.mp h
  obtain ⟨c, _, rfl, hc, hnil⟩ := List.map_eq_cons_iff.mp hu
  obtain rfl := List.map_eq_nil_iff.mp hnil
  have hspace := beq_oneCase (d := ' ') (by decide) c
  rw [hc] at hspace
  obtain rfl : c = ' ' := by simpa [oneCase_of_not_word (c := ' ') (by decide)] using hspace.symm
  exact ⟨s', rfl, hs'⟩

/-- A line without code stays as it is when it is recased: there are no keywords. -/
theorem Rewrites.spaceLine_bare {case : LetterCase} {line : Text} {outs : List Text}
    (h : Rewrites case (wordRuns (spaceLine line)) outs)
    (hline : trim line = Kind.remark.token ∨ trim line = []) :
    spaceLine outs.flatten = outs.flatten := by
  rw [VbTidy.spaceLine_bare hline] at h
  rcases hline with hline | hline
  · rw [hline, ← List.nil_append Kind.remark.token] at h
    obtain ⟨code', hcode, hout⟩ := h.comment
    obtain rfl := List.map_eq_nil_iff.mp hcode
    have htrim : trim Kind.remark.token = Kind.remark.token := by rw [← hline, trim_twice]
    rw [hout, List.nil_append, VbTidy.spaceLine_bare (.inl htrim), htrim]
  · have hcase := h.inOneCase
    rw [flatten_wordRuns, hline] at hcase
    rw [List.map_eq_nil_iff.mp hcase]
    rfl

/-- Code in front of a comment stays apart from it when it is recased. -/
theorem Rewrites.spaceLine_remark {case : LetterCase} {line x : Text} {outs : List Text}
    (h : Rewrites case (wordRuns (spaceLine line)) outs)
    (hline : trim line = x ++ Kind.remark.token) (hx : x ≠ []) :
    spaceLine outs.flatten = outs.flatten := by
  obtain ⟨c, d, hfrom, hc, hd⟩ := fromTo_trim (trim_before_remark hline hx)
  have hspaced := hfrom.respaced (isBlank_of_ink hc) (isBlank_of_ink hd)
  have hcode : spaceLine line = (respaced (trim x) ++ [' ']) ++ Kind.remark.token := by
    rw [VbTidy.spaceLine_remark hline hx]
    simp
  rw [hcode] at h
  obtain ⟨code', hcode', hout⟩ := h.comment
  obtain ⟨code, rfl, hsame⟩ := inOneCase_eq_space hcode'
  obtain ⟨c', d', hfrom', hc', hd'⟩ := fromTo_of_inOneCase hspaced hc hd hsame
  obtain ⟨htrim, htrim'⟩ := trim_spaced_remark hfrom' hc' hd'
  have hout' : outs.flatten = code ++ ' ' :: Kind.remark.token := by
    rw [hout]
    simp
  rw [hout', VbTidy.spaceLine_remark htrim (by simp), htrim',
    respaced_of_inOneCase hsame.symm (respaced_twice _)]

/-- Code by itself gets no comment when it is recased. -/
theorem Recased.spaceLine_code {line out : Text} (h : Recased (spaceLine line) out)
    (hcase : VbTidy.inOneCase out = VbTidy.inOneCase (spaceLine line)) (hne : trim line ≠ [])
    (hmark : ¬ Kind.remark.token <:+ trim line) : spaceLine out = out := by
  obtain ⟨c, d, hfrom, hc, hd⟩ := fromTo_trim hne
  have hspaced := hfrom.respaced (isBlank_of_ink hc) (isBlank_of_ink hd)
  rw [VbTidy.spaceLine_code hne hmark] at hcase h
  obtain ⟨c', d', hfrom', hc', hd'⟩ := fromTo_of_inOneCase hspaced hc hd hcase
  have htrim := hfrom'.trim hc' hd'
  have hne' : trim out ≠ [] := by
    rw [htrim]
    rintro rfl
    cases hfrom'.1
  have hmark' : ¬ Kind.remark.token <:+ trim out := by
    rw [htrim]
    exact fun hsuffix => hmark (endsWith_token_respaced hfrom (isBlank_of_ink hc) (isBlank_of_ink hd)
      (h.token_suffix hsuffix))
  rw [VbTidy.spaceLine_code hne' hmark', htrim, respaced_of_inOneCase hcase.symm (respaced_twice _)]

/-- A line that is spaced stays so when it is recased. -/
theorem spaceLine_recaseLine {case : LetterCase} {line out : Text} (hs : Sound 0 (spaceLine line))
    (h : recaseLine case (spaceLine line) = .ok out) : spaceLine out = out := by
  have hrecased := recased_of_recaseLine hs h
  obtain ⟨outs, houts, rfl⟩ := recaseLine_ok h
  rcases line_cases line with hline | ⟨x, hline, hx⟩ | ⟨hne, hmark⟩
  · exact houts.spaceLine_bare hline
  · exact houts.spaceLine_remark hline hx
  · refine hrecased.spaceLine_code ?_ hne hmark
    rw [houts.inOneCase, flatten_wordRuns]

end VbTidy
