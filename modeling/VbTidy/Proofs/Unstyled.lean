import VbTidy.Proofs.Shifted

/-
Texts without their style. `unstyled` is a text in which keywords may have any letter case, a run of
blanks counts as one space, and blanks before an equals sign do not count. It is what two runs with
different styles have in common at every place that a later step looks at. `packed` leaves all
blanks out.
-/
namespace VbTidy

/-! ## Letter case -/

/-- A character in lower case if that is a letter of a keyword. -/
def anyCase (c : Char) : Char :=
  if isNameChar (lowerChar c) then lowerChar c else c

theorem lowerChar_nameChar {c : Char} (h : isNameChar c = true) : lowerChar c = c := by
  have hn := isNameChar_toNat h
  have key : ∀ c : Char, c.toNat < 0x80 → isNameChar c = true → lowerChar c = c :=
    of_ascii (by decide)
  exact key c (by omega) h

theorem lowerChar_anyCase (c : Char) : lowerChar (anyCase c) = lowerChar c := by
  unfold anyCase
  split
  · next h => rw [lowerChar_nameChar h]
  · rfl

theorem isWord_anyCase (c : Char) : isWord (anyCase c) = isWord c := by
  unfold anyCase
  split
  · next h => rw [isWord_of_lower h, isWord_of_lower (by rwa [lowerChar_nameChar h])]
  · rfl

theorem anyCase_of_not_word {c : Char} (h : isWord c = false) : anyCase c = c := by
  unfold anyCase
  split
  · next hl =>
    rw [isWord_of_lower hl] at h
    cases h
  · rfl

/-- A character that is no word character is that of no other character. -/
theorem anyCase_eq_iff {c d : Char} (hd : isWord d = false) : anyCase c = d ↔ c = d := by
  constructor
  · intro h
    have hc : isWord c = false := by rw [← isWord_anyCase, h, hd]
    rwa [anyCase_of_not_word hc] at h
  · rintro rfl
    exact anyCase_of_not_word hd

/-- A class without word characters does not depend on letter case. -/
theorem class_anyCase {p : Char → Bool} (hp : ∀ c, p c = true → isWord c = false) (c : Char) :
    p (anyCase c) = p c := by
  cases hc : isWord c with
  | false => rw [anyCase_of_not_word hc]
  | true =>
    have hnot : ∀ d, isWord d = true → p d = false := by
      intro d hd
      cases hpd : p d with
      | false => rfl
      | true =>
        rw [hp d hpd] at hd
        cases hd
    rw [hnot c hc, hnot _ ((isWord_anyCase c).trans hc)]

theorem isSpace_anyCase (c : Char) : isSpace (anyCase c) = isSpace c :=
  class_anyCase (fun _ h => isWord_of_isBreak (isBreak_of_isSpace h)) c

theorem isBlank_anyCase (c : Char) : isBlank (anyCase c) = isBlank c :=
  class_anyCase (fun _ h => isWord_of_isBreak (isBreak_of_isSpace (isSpace_of_isBlank h))) c

/-! ## Runs of blanks -/

/-- Whether a text starts with a space or an equals sign, where a blank in front does not count. -/
def absorbsBlank (t : Text) : Bool :=
  t.head? == some ' ' || t.head? == some '='

/-- Puts a character in front of a text in which runs of blanks are one space. -/
def collapseCons (c : Char) (t : Text) : Text :=
  if isBlank c then if absorbsBlank t then t else ' ' :: t
  else c :: t

/-- A text with each run of blanks made one space, and none before an equals sign. -/
def collapse (t : Text) : Text :=
  t.foldr collapseCons []

theorem collapseCons_char {c : Char} (hc : isBlank c = false) (t : Text) :
    collapseCons c t = c :: t := by
  rw [collapseCons, if_neg (by simp [hc])]

theorem collapseCons_blank {c : Char} (hc : isBlank c = true) (t : Text) :
    collapseCons c t = if absorbsBlank t then t else ' ' :: t := by
  rw [collapseCons, if_pos hc]

theorem collapseCons_absorbed {c : Char} (hc : isBlank c = true) {t : Text}
    (ht : absorbsBlank t = true) : collapseCons c t = t := by
  rw [collapseCons_blank hc, if_pos ht]

theorem absorbsBlank_collapseCons {c : Char} (hc : isBlank c = true) (t : Text) :
    absorbsBlank (collapseCons c t) = true := by
  rw [collapseCons_blank hc]
  split
  · next h => exact h
  · rfl

theorem foldr_collapseCons (c : Char) (r y : Text) :
    (collapseCons c y).foldr collapseCons r = collapseCons c (y.foldr collapseCons r) := by
  cases hc : isBlank c with
  | false => rw [collapseCons_char hc, List.foldr_cons]
  | true =>
    cases hy : absorbsBlank y with
    | false =>
      rw [collapseCons_blank hc, if_neg (by simp [hy]), List.foldr_cons, collapseCons_blank hc,
        collapseCons_blank (by decide)]
    | true =>
      -- A blank in front of a space or an equals sign is lost on both sides.
      rw [collapseCons_absorbed hc hy, collapseCons_absorbed hc]
      cases y with
      | nil => cases hy
      | cons d y =>
        rw [List.foldr_cons]
        have hd : d = ' ' ∨ d = '=' := by simpa [absorbsBlank] using hy
        rcases hd with rfl | rfl
        · exact absorbsBlank_collapseCons (by decide) _
        · rw [collapseCons_char (by decide)]
          rfl

theorem foldr_collapse (x r : Text) :
    (collapse x).foldr collapseCons r = x.foldr collapseCons r := by
  induction x with
  | nil => rfl
  | cons c x ih =>
    show (collapseCons c (collapse x)).foldr collapseCons r = _
    rw [foldr_collapseCons, ih, List.foldr_cons]

theorem collapse_append (x y : Text) :
    collapse (x ++ y) = (collapse x).foldr collapseCons (collapse y) := by
  rw [foldr_collapse, collapse, List.foldr_append]
  rfl

/-- A text without its style. -/
def unstyled (t : Text) : Text :=
  collapse (t.map anyCase)

@[simp] theorem unstyled_nil : unstyled [] = [] := rfl

theorem unstyled_append {x x' y y' : Text} (hx : unstyled x = unstyled x')
    (hy : unstyled y = unstyled y') : unstyled (x ++ y) = unstyled (x' ++ y') := by
  unfold unstyled at *
  rw [List.map_append, List.map_append, collapse_append, collapse_append, hx, hy]

theorem unstyled_cons (c : Char) (t : Text) :
    unstyled (c :: t) = collapseCons (anyCase c) (unstyled t) := by
  rw [unstyled, List.map_cons, collapse, List.foldr_cons]
  rfl

theorem unstyled_char {c : Char} (hc : isBlank c = false) (t : Text) :
    unstyled (c :: t) = anyCase c :: unstyled t := by
  rw [unstyled_cons, collapseCons_char (by rw [isBlank_anyCase, hc])]

theorem collapseCons_ne_nil (c : Char) (t : Text) : collapseCons c t ≠ [] := by
  intro h
  cases hc : isBlank c with
  | false =>
    rw [collapseCons_char hc] at h
    cases h
  | true =>
    have habsorbs := absorbsBlank_collapseCons hc t
    rw [h] at habsorbs
    cases habsorbs

theorem unstyled_eq_nil {t : Text} : unstyled t = [] ↔ t = [] := by
  cases t with
  | nil => simp
  | cons c t => simp [unstyled_cons, collapseCons_ne_nil]

/-- What the first character was, if it is neither a space nor an equals sign. -/
theorem unstyled_eq_cons {t u : Text} {d : Char} (hd : d ≠ ' ') (he : d ≠ '=')
    (h : unstyled t = d :: u) :
    ∃ c t', t = c :: t' ∧ isBlank c = false ∧ anyCase c = d ∧ unstyled t' = u := by
  cases t with
  | nil => cases h
  | cons c t =>
    cases hc : isBlank c with
    | false =>
      rw [unstyled_char hc] at h
      obtain ⟨h₁, h₂⟩ := List.cons.inj h
      exact ⟨c, t, rfl, hc, h₁, h₂⟩
    | true =>
      have habsorbs : absorbsBlank (d :: u) = true := by
        rw [← h, unstyled_cons]
        exact absorbsBlank_collapseCons (by rw [isBlank_anyCase, hc]) _
      simp [absorbsBlank, hd, he] at habsorbs

/-- A blank in front of a text. -/
theorem unstyled_blank {c : Char} (hc : isBlank c = true) (t : Text) :
    unstyled (c :: t) = ' ' :: unstyled t ∨ unstyled (c :: t) = unstyled t := by
  rw [unstyled_cons, collapseCons_blank (by rw [isBlank_anyCase, hc])]
  split
  · exact .inr rfl
  · exact .inl rfl

theorem unstyled_blanks {s : Text} (hs : ∀ c ∈ s, isBlank c = true) (hne : s ≠ []) :
    unstyled s = [' '] := by
  induction s with
  | nil => exact absurd rfl hne
  | cons c s ih =>
    have hc : isBlank (anyCase c) = true := by rw [isBlank_anyCase, hs c List.mem_cons_self]
    by_cases hs' : s = []
    · subst hs'
      rw [unstyled_cons, collapseCons_blank hc]
      rfl
    · rw [unstyled_cons, ih (fun d hd => hs d (List.mem_cons_of_mem _ hd)) hs',
        collapseCons_absorbed hc rfl]

theorem unstyled_before_equals {s : Text} (hs : ∀ c ∈ s, isBlank c = true) (t : Text) :
    unstyled (s ++ '=' :: t) = unstyled ('=' :: t) := by
  induction s with
  | nil => rfl
  | cons c s ih =>
    have hc : isBlank (anyCase c) = true := by rw [isBlank_anyCase, hs c List.mem_cons_self]
    have he : unstyled ('=' :: t) = '=' :: unstyled t := by
      rw [unstyled_char (by decide)]
      rfl
    rw [List.cons_append, unstyled_cons, ih fun d hd => hs d (List.mem_cons_of_mem _ hd), he,
      collapseCons_absorbed hc rfl]

/-! ## Cutting at a character -/

theorem absorbsBlank_append {s : Text} (hs : s ≠ []) (r : Text) :
    absorbsBlank (s ++ r) = absorbsBlank s := by
  obtain ⟨c, s, rfl⟩ := List.exists_cons_of_ne_nil hs
  rfl

theorem collapseCons_append {s : Text} (hs : s ≠ []) (c : Char) (r : Text) :
    collapseCons c (s ++ r) = collapseCons c s ++ r := by
  cases hc : isBlank c with
  | false => rw [collapseCons_char hc, collapseCons_char hc, List.cons_append]
  | true =>
    rw [collapseCons_blank hc, collapseCons_blank hc, absorbsBlank_append hs]
    split <;> rfl

theorem foldr_ne_nil (x : Text) {s : Text} (hs : s ≠ []) : x.foldr collapseCons s ≠ [] := by
  cases x with
  | nil => exact hs
  | cons c x => exact collapseCons_ne_nil c _

theorem foldr_append {s : Text} (hs : s ≠ []) (x r : Text) :
    x.foldr collapseCons (s ++ r) = x.foldr collapseCons s ++ r := by
  induction x with
  | nil => rfl
  | cons c x ih =>
    rw [List.foldr_cons, ih, collapseCons_append (foldr_ne_nil x hs), List.foldr_cons]

theorem foldr_stop {d : Char} (hd : absorbsBlank [d] = false) (x r : Text) :
    x.foldr collapseCons (d :: r) = x.foldr collapseCons [] ++ d :: r := by
  induction x with
  | nil => rfl
  | cons c x ih =>
    rw [List.foldr_cons, ih, List.foldr_cons]
    by_cases hx : x.foldr collapseCons [] = []
    · rw [hx, List.nil_append]
      cases hc : isBlank c with
      | false => rw [collapseCons_char hc, collapseCons_char hc]; rfl
      | true =>
        have hd' : absorbsBlank (d :: r) = false := hd
        rw [collapseCons_blank hc, collapseCons_blank hc, hd']
        rfl
    · rw [collapseCons_append hx]

theorem unstyled_append_eq (x y : Text) :
    unstyled (x ++ y) = (x.map anyCase).foldr collapseCons (unstyled y) := by
  rw [unstyled, List.map_append, collapse_append, foldr_collapse]
  rfl

/-- A character that is neither a blank nor an equals sign cuts a text in two. -/
theorem unstyled_split {c : Char} (hc : isBlank c = false) (he : c ≠ '=') (x y : Text) :
    unstyled (x ++ c :: y) = unstyled x ++ anyCase c :: unstyled y := by
  have hd : absorbsBlank [anyCase c] = false := by
    have hblank : anyCase c ≠ ' ' := by
      intro e
      rw [(anyCase_eq_iff (by decide)).mp e] at hc
      cases hc
    have hequals : anyCase c ≠ '=' := fun e => he ((anyCase_eq_iff (by decide)).mp e)
    simp [absorbsBlank, hblank, hequals]
  rw [unstyled_append_eq, unstyled_char hc, foldr_stop hd]
  rfl

theorem unstyled_append_char {c : Char} (hc : isBlank c = false) (x y : Text) :
    unstyled (x ++ c :: y) = unstyled (x ++ [c]) ++ unstyled y := by
  rw [unstyled_append_eq, unstyled_append_eq, unstyled_char hc, unstyled_char hc, ← foldr_append]
  · rfl
  · simp

theorem suffix_unstyled_append (x y : Text) : unstyled y <:+ unstyled (x ++ y) := by
  rw [unstyled_append_eq]
  generalize x.map anyCase = z
  induction z with
  | nil => exact List.suffix_refl _
  | cons c z ih =>
    rw [List.foldr_cons]
    refine ih.trans ?_
    cases hc : isBlank c with
    | false =>
      rw [collapseCons_char hc]
      exact List.suffix_cons _ _
    | true =>
      rw [collapseCons_blank hc]
      split
      · exact List.suffix_refl _
      · exact List.suffix_cons _ _

/-- What the last character was, if it is a sign that style does not touch. -/
theorem unstyled_eq_concat {t u : Text} {d : Char} (hw : isWord d = false)
    (hb : isBlank d = false) (he : d ≠ '=') (h : unstyled t = u ++ [d]) :
    ∃ t', t = t' ++ [d] ∧ unstyled t' = u := by
  rcases List.eq_nil_or_concat t with rfl | ⟨y, c, rfl⟩
  · simp at h
  · rw [List.concat_eq_append] at h ⊢
    have hlast := suffix_unstyled_append y [c]
    rw [h] at hlast
    -- A blank or an equals sign at the end would still be there.
    have hsame : ∀ e, unstyled [c] = [e] → d = e := by
      intro e hc
      rw [hc] at hlast
      obtain ⟨v, hv⟩ := hlast
      simpa using (List.append_inj' hv rfl).2.symm
    cases hc : isBlank c with
    | true =>
      have hd := hsame ' ' (unstyled_blanks (by simpa using hc) (by simp))
      rw [hd] at hb
      cases hb
    | false =>
      by_cases hequals : c = '='
      · subst hequals
        exact absurd (hsame '=' rfl) he
      · rw [unstyled_split hc hequals] at h
        obtain ⟨h₁, h₂⟩ := List.append_inj' h rfl
        have hcd : c = d := (anyCase_eq_iff hw).mp (by simpa using h₂)
        exact ⟨y, by rw [hcd], h₁⟩

theorem mem_unstyled {t : Text} {d : Char} (h : d ∈ unstyled t) :
    d = ' ' ∨ ∃ c ∈ t, d = anyCase c := by
  induction t with
  | nil => cases h
  | cons c t ih =>
    have hrest : d ∈ unstyled t → d = ' ' ∨ ∃ c' ∈ c :: t, d = anyCase c' := by
      intro hd
      rcases ih hd with h | ⟨c', hc', h⟩
      · exact .inl h
      · exact .inr ⟨c', List.mem_cons_of_mem _ hc', h⟩
    cases hc : isBlank c with
    | false =>
      rw [unstyled_char hc] at h
      rcases List.mem_cons.mp h with rfl | h
      · exact .inr ⟨c, List.mem_cons_self, rfl⟩
      · exact hrest h
    | true =>
      rcases unstyled_blank hc t with e | e
      · rw [e] at h
        rcases List.mem_cons.mp h with rfl | h
        · exact .inl rfl
        · exact hrest h
      · exact hrest (e ▸ h)

/-- White space at the end may be dropped before or after style is. -/
theorem unstyled_dropEnd {p : Char → Bool} (hblank : ∀ c, isBlank c = true → p c = true)
    (hp : ∀ c, p (anyCase c) = p c) (t : Text) :
    unstyled (dropEnd p t) = dropEnd p (unstyled t) := by
  have hall : ∀ s : Text, (∀ c ∈ s, p c = true) → ∀ c ∈ unstyled s, p c = true := by
    intro s hs c hc
    rcases mem_unstyled hc with rfl | ⟨d, hd, rfl⟩
    · exact hblank ' ' (by decide)
    · rw [hp]
      exact hs d hd
  obtain ⟨s, heq, hs⟩ := dropEnd_append p t
  generalize hx : dropEnd p t = x at heq
  subst heq
  rcases List.eq_nil_or_concat x with rfl | ⟨y, c, rfl⟩
  · rw [List.nil_append, unstyled_nil]
    have h := dropEnd_append_all (t := []) (hall s hs)
    rw [List.nil_append] at h
    rw [h]
    rfl
  · rw [List.concat_eq_append] at hx ⊢
    have hc : p c = false := by
      cases hpc : p c with
      | false => rfl
      | true =>
        have hlast : (dropEnd p (y ++ [c] ++ s)).getLast? = some c := by rw [hx]; simp
        have hnot := List.head?_dropWhile_not p (y ++ [c] ++ s).reverse
        rw [dropEnd, List.getLast?_reverse] at hlast
        rw [hlast] at hnot
        simp [hpc] at hnot
    have hb : isBlank c = false := by
      cases hbc : isBlank c with
      | false => rfl
      | true =>
        rw [hblank c hbc] at hc
        cases hc
    have hlast : (unstyled (y ++ [c])).getLast? = some (anyCase c) := by
      have hsuffix := suffix_unstyled_append y [c]
      rw [unstyled_char hb] at hsuffix
      obtain ⟨v, hv⟩ := hsuffix
      rw [← hv]
      simp
    rw [List.append_assoc, List.singleton_append, unstyled_append_char hb y s,
      dropEnd_append_all (hall s hs)]
    exact (dropEnd_of_last hlast (by rw [hp, hc])).symm

/-- White space at the start may be dropped before or after style is. -/
theorem unstyled_dropWhile {p : Char → Bool} (hblank : ∀ c, isBlank c = true → p c = true)
    (hp : ∀ c, p (anyCase c) = p c) (t : Text) :
    unstyled (t.dropWhile p) = (unstyled t).dropWhile p := by
  induction t with
  | nil => rfl
  | cons c t ih =>
    cases hb : isBlank c with
    | true =>
      rw [List.dropWhile_cons_of_pos (hblank c hb), ih]
      rcases unstyled_blank hb t with h | h
      · rw [h, List.dropWhile_cons_of_pos (hblank ' ' (by decide))]
      · rw [h]
    | false =>
      rw [unstyled_char hb]
      cases hc : p c with
      | true => rw [List.dropWhile_cons_of_pos hc, ih, List.dropWhile_cons_of_pos (by rw [hp, hc])]
      | false =>
        rw [List.dropWhile_cons_of_neg (by simp [hc]), unstyled_char hb,
          List.dropWhile_cons_of_neg (by simp [hp, hc])]

/-! ## What does not depend on style -/

/-- A text without blanks, with keywords in any letter case. -/
def packed (t : Text) : Text :=
  (t.filter (!isBlank ·)).map anyCase

theorem packed_unstyled (t : Text) : (unstyled t).filter (!isBlank ·) = packed t := by
  induction t with
  | nil => rfl
  | cons c t ih =>
    cases hc : isBlank c with
    | false =>
      have hc' : isBlank (anyCase c) = false := by rw [isBlank_anyCase, hc]
      rw [unstyled_char hc, List.filter_cons_of_pos (by simp [hc']), ih, packed, packed,
        List.filter_cons_of_pos (by simp [hc])]
      rfl
    | true =>
      have hpacked : packed (c :: t) = packed t := by simp [packed, hc]
      rw [hpacked, ← ih]
      rcases unstyled_blank hc t with h | h
      · rw [h, List.filter_cons_of_neg (by decide)]
      · rw [h]

theorem packed_of_unstyled {t t' : Text} (h : unstyled t = unstyled t') : packed t = packed t' := by
  rw [← packed_unstyled, ← packed_unstyled, h]

theorem all_packed {p : Char → Bool} (hb : ∀ c, isBlank c = true → p c = true)
    (hp : ∀ c, p (anyCase c) = p c) (t : Text) : (packed t).all p = t.all p := by
  induction t with
  | nil => rfl
  | cons c t ih =>
    cases hc : isBlank c with
    | true =>
      have hpacked : packed (c :: t) = packed t := by simp [packed, hc]
      rw [hpacked, ih, List.all_cons, hb c hc, Bool.true_and]
    | false =>
      have hpacked : packed (c :: t) = anyCase c :: packed t := by simp [packed, hc]
      rw [hpacked, List.all_cons, List.all_cons, ih, hp]

theorem all_isSpace_packed (t : Text) : (packed t).all isSpace = t.all isSpace :=
  all_packed (fun _ => isSpace_of_isBlank) isSpace_anyCase t

theorem packed_takeWhile (t : Text) :
    packed (t.takeWhile (· != '\n')) = (packed t).takeWhile (· != '\n') := by
  induction t with
  | nil => rfl
  | cons c t ih =>
    by_cases hn : c = '\n'
    · subst hn
      rfl
    · rw [List.takeWhile_cons_of_pos (by simpa using hn)]
      cases hc : isBlank c with
      | true =>
        have hpacked : ∀ u, packed (c :: u) = packed u := fun u => by simp [packed, hc]
        rw [hpacked, hpacked, ih]
      | false =>
        have hpacked : ∀ u, packed (c :: u) = anyCase c :: packed u := fun u => by
          simp [packed, hc]
        have hn' : anyCase c ≠ '\n' := fun e => hn ((anyCase_eq_iff (by decide)).mp e)
        rw [hpacked, hpacked, List.takeWhile_cons_of_pos (by simpa using hn'), ih]

theorem packed_reverse (t : Text) : packed t.reverse = (packed t).reverse := by
  simp [packed]

theorem firstLine_all_packed (t : Text) :
    (firstLine t).all isSpace = (firstLine (packed t)).all isSpace := by
  rw [firstLine, firstLine, ← packed_takeWhile, all_isSpace_packed]

theorem lastLine_all_packed (t : Text) :
    (lastLine t).all isSpace = (lastLine (packed t)).all isSpace := by
  rw [lastLine, lastLine, List.all_reverse, List.all_reverse, ← packed_reverse, ← packed_takeWhile,
    all_isSpace_packed]

theorem head?_dropWhile_packed (t : Text) :
    ((t.dropWhile isBlank).head?).map anyCase = (packed t).head? := by
  induction t with
  | nil => rfl
  | cons c t ih =>
    cases hc : isBlank c with
    | true =>
      rw [List.dropWhile_cons_of_pos hc, ih]
      simp [packed, hc]
    | false => simp [packed, hc]

/-- A text without blanks, its letter case ignored. -/
def unspaced (t : Text) : Text :=
  (t.filter (!isBlank ·)).map lowerChar

theorem unspaced_packed (t : Text) : (packed t).map lowerChar = unspaced t := by
  simp [packed, unspaced, lowerChar_anyCase]

theorem unspaced_of_packed {t t' : Text} (h : packed t = packed t') : unspaced t = unspaced t' := by
  rw [← unspaced_packed, ← unspaced_packed, h]

theorem isWord_of_isLineEnd {c : Char} (h : isLineEnd c = true) : isWord c = false :=
  isWord_of_isBreak (isBreak_of_isSpace (isSpace_of_isLineEnd h))

theorem isBlank_of_isLineEnd {c : Char} (h : isLineEnd c = true) : isBlank c = false := by
  by_contra hblank
  rw [Bool.not_eq_false, isBlank, Bool.or_eq_true, beq_iff_eq, beq_iff_eq] at hblank
  rcases hblank with rfl | rfl <;> exact absurd h (by decide)

/-- Packing a text keeps its line ends. -/
theorem lineEnds_packed (t : Text) : (packed t).filter isLineEnd = t.filter isLineEnd := by
  have hends : isLineEnd ∘ anyCase = isLineEnd :=
    funext (class_anyCase fun _ => isWord_of_isLineEnd)
  have hkept : (t.filter (!isBlank ·)).filter isLineEnd = t.filter isLineEnd := by
    rw [List.filter_filter]
    refine List.filter_congr fun c _ => ?_
    cases hc : isLineEnd c with
    | false => rfl
    | true => rw [isBlank_of_isLineEnd hc]; rfl
  have hcase : (t.filter isLineEnd).map anyCase = (t.filter isLineEnd).map id :=
    List.map_congr_left fun c hc =>
      anyCase_of_not_word (isWord_of_isLineEnd (List.mem_filter.mp hc).2)
  rw [packed, List.filter_map, hends, hkept, hcase, List.map_id]

end VbTidy
