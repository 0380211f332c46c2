import VbTidy.Proofs.Sound
import VbTidy.Text.Lower

/-
What a text is apart from white space and letter case. `squeezed` drops the white space and writes
every letter in lower case, the long s as the s whose capital it shares. Trimming, cutting into
lines and joining lines do not change it, and tokens come through it as they are.
-/
namespace VbTidy

/-- A character without regard to letter case; the long s is a lower case of S. -/
def caseless (c : Char) : Char :=
  if c == 'ſ' then 's' else lowerChar c

/-- A text without white space and without regard to letter case. -/
def squeezed (t : Text) : Text :=
  (t.filter (!isSpace ·)).map caseless

/-! ## Lower case -/

/-- A code point is lowered by a run that holds it, or stays. -/
theorem lowerIn_cases (rs : List CaseRun) (n : Nat) :
    lowerIn rs n = n ∨
      ∃ r ∈ rs, r.first ≤ n ∧ n ≤ r.last ∧ (n - r.first) % r.step = 0 ∧
        lowerIn rs n = r.lower + (n - r.first) := by
  induction rs with
  | nil => exact .inl rfl
  | cons r rs ih =>
    rw [lowerIn]
    split
    · exact .inl rfl
    · split
      · split
        · exact .inr ⟨r, by simp, by omega, by omega, by assumption, rfl⟩
        · exact .inl rfl
      · rcases ih with h | ⟨q, hq, h⟩
        · exact .inl h
        · exact .inr ⟨q, by simp [hq], h⟩

theorem toNat_ofNat {n : Nat} (h : n.isValidChar) : (Char.ofNat n).toNat = n := by
  rw [Char.ofNat, dif_pos h]
  rfl

set_option maxRecDepth 1000 in
/-- Lower case stays among the scalar values. -/
theorem isValidChar_lowerIn (c : Char) : (lowerIn caseRuns c.toNat).isValidChar := by
  rcases lowerIn_cases caseRuns c.toNat with h | ⟨r, hr, h1, h2, _, h⟩
  · rw [h]
    exact c.valid
  · have key : ∀ r ∈ caseRuns, r.lower + (r.last - r.first) < 0xD800 ∨
        (0xE000 ≤ r.lower ∧ r.lower + (r.last - r.first) < 0x110000) := by decide
    rw [h]
    have := key r hr
    simp only [Nat.isValidChar]
    omega

theorem toNat_lowerChar {c : Char} (h : 0x80 ≤ c.toNat) :
    (lowerChar c).toNat = lowerIn caseRuns c.toNat := by
  have hlt : ¬ c.toNat < 0x80 := by omega
  simp only [lowerChar, hlt, if_false]
  exact toNat_ofNat (isValidChar_lowerIn c)

/-- A letter that no other one has as its lower case. -/
theorem eq_of_lowerChar {c d : Char} (hd : ∀ r ∈ caseRuns, d.toNat < r.lower ∨
    r.lower + (r.last - r.first) < d.toNat ∨ (d.toNat - r.lower) % r.step ≠ 0)
    (hc : 0x80 ≤ c.toNat) (h : lowerChar c = d) : c = d := by
  have hn := toNat_lowerChar hc
  rw [h] at hn
  rcases lowerIn_cases caseRuns c.toNat with he | ⟨r, hr, h1, h2, h3, he⟩
  · exact Char.toNat_inj.mp (by omega)
  · have hdiff : c.toNat - r.first = d.toNat - r.lower := by omega
    rw [hdiff] at h3
    rcases hd r hr with hs | hs | hs
    · omega
    · omega
    · exact absurd h3 hs

set_option maxRecDepth 1000 in
/-- Of the letters beyond ASCII only the dotted capital I and the Kelvin sign have a lower case in
ASCII, and only the long s itself is lowered to the long s. -/
theorem lowerChar_of_not_ascii {c : Char} (h : 0x80 ≤ c.toNat) :
    (0x80 ≤ (lowerChar c).toNat ∧ (lowerChar c = 'ſ' → c = 'ſ')) ∨
      (c = 'İ' ∧ lowerChar c = 'i') ∨ (c = '\u212A' ∧ lowerChar c = 'k') := by
  have hn := toNat_lowerChar h
  have hlong : lowerChar c = 'ſ' → c = 'ſ' := eq_of_lowerChar (by decide) h
  rcases lowerIn_cases caseRuns c.toNat with he | ⟨r, hr, h1, h2, _, he⟩
  · exact .inl ⟨by omega, hlong⟩
  · have key : ∀ r ∈ caseRuns, 0x80 ≤ r.lower ∨
        (r.first = 0x130 ∧ r.last = 0x130 ∧ r.lower = 0x69) ∨
        (r.first = 0x212A ∧ r.last = 0x212A ∧ r.lower = 0x6B) := by decide
    rcases key r hr with hlow | ⟨hf, hl, hlow⟩ | ⟨hf, hl, hlow⟩
    · exact .inl ⟨by omega, hlong⟩
    · have hc : c.toNat = 0x130 := by omega
      have hc' : c = 'İ' := by rw [← Char.ofNat_toNat c, hc]
      exact .inr (.inl ⟨hc', by rw [hc']; decide⟩)
    · have hc : c.toNat = 0x212A := by omega
      have hc' : c = '\u212A' := by rw [← Char.ofNat_toNat c, hc]
      exact .inr (.inr ⟨hc', by rw [hc']; decide⟩)

/-- What can be checked code point by code point is so of all characters of ASCII. -/
theorem of_ascii {p : Char → Prop} (h : ∀ n < 0x80, p (Char.ofNat n)) :
    ∀ c : Char, c.toNat < 0x80 → p c := by
  intro c hc
  rw [← Char.ofNat_toNat c]
  exact h c.toNat hc

theorem caseless_of_ascii {c : Char} (h : c.toNat < 0x80) : caseless c = c.toLower := by
  have hs : (c == 'ſ') = false := by
    rw [beq_eq_false_iff_ne]
    rintro rfl
    revert h
    decide
  simp [caseless, hs, lowerChar, h]

/-- Only NUL is NUL without regard to letter case. -/
theorem caseless_eq_nul {c : Char} : caseless c = '\x00' ↔ c = '\x00' := by
  refine ⟨fun h => ?_, fun h => by subst h; decide⟩
  by_cases hc : c.toNat < 0x80
  · have key : ∀ c : Char, c.toNat < 0x80 → c.toLower = '\x00' → c = '\x00' :=
      of_ascii (by decide)
    rw [caseless_of_ascii hc] at h
    exact key c hc h
  · simp only [caseless] at h
    split at h
    · exact absurd h (by decide)
    · rcases lowerChar_of_not_ascii (c := c) (by omega) with ⟨hge, _⟩ | ⟨_, hi⟩ | ⟨_, hk⟩
      · rw [h] at hge
        exact absurd hge (by decide)
      · rw [hi] at h
        exact absurd h (by decide)
      · rw [hk] at h
        exact absurd h (by decide)

theorem isNameChar_toNat {c : Char} (h : isNameChar c = true) : 97 ≤ c.toNat ∧ c.toNat ≤ 122 := by
  simp only [isNameChar, Bool.and_eq_true, decide_eq_true_eq] at h
  exact ⟨h.1, h.2⟩

theorem isSpace_nameChar {c : Char} (h : isNameChar c = true) : isSpace c = false := by
  have hlt := (isNameChar_toNat h).2
  have key : ∀ c : Char, c.toNat < 0x80 → isNameChar c = true → isSpace c = false :=
    of_ascii (by decide)
  exact key c (by omega) h

/-! ## Squeezing -/

@[simp] theorem squeezed_nil : squeezed [] = [] := rfl

@[simp] theorem squeezed_append (s t : Text) : squeezed (s ++ t) = squeezed s ++ squeezed t := by
  simp [squeezed]

theorem squeezed_cons (c : Char) (t : Text) :
    squeezed (c :: t) = if isSpace c then squeezed t else caseless c :: squeezed t := by
  simp only [squeezed, List.filter_cons]
  cases isSpace c <;> simp

theorem squeezed_space {c : Char} (h : isSpace c = true) (t : Text) :
    squeezed (c :: t) = squeezed t := by
  simp [squeezed_cons, h]

theorem squeezed_of_spaces {t : Text} (h : ∀ c ∈ t, isSpace c = true) : squeezed t = [] := by
  simp only [squeezed, List.map_eq_nil_iff, List.filter_eq_nil_iff]
  intro c hc
  simp [h c hc]

theorem squeezed_eq_flatMap (t : Text) : squeezed t = t.flatMap fun c => squeezed [c] := by
  induction t with
  | nil => rfl
  | cons c t ih =>
    rw [List.flatMap_cons, ← ih, ← squeezed_append]
    rfl

/-- A letter whose lower case is one of a name is no white space, and is told from others by its
lower case. -/
theorem lower_nameChar {c : Char} (hname : isNameChar (lowerChar c) = true) :
    isSpace c = false ∧ caseless c = lowerChar c := by
  have hlow := isNameChar_toNat hname
  by_cases hc : c.toNat < 0x80
  · have key : ∀ c : Char, c.toNat < 0x80 → isNameChar c.toLower = true → isSpace c = false :=
      of_ascii (by decide)
    have hl : lowerChar c = c.toLower := by simp [lowerChar, hc]
    exact ⟨key c hc (hl ▸ hname), (caseless_of_ascii hc).trans hl.symm⟩
  · rcases lowerChar_of_not_ascii (c := c) (by omega) with ⟨hge, _⟩ | ⟨rfl, _⟩ | ⟨rfl, _⟩
    · omega
    · decide
    · decide

/-- Squeezing keeps every NUL. -/
theorem count_squeezed (t : Text) : (squeezed t).count '\x00' = t.count '\x00' := by
  induction t with
  | nil => rfl
  | cons c t ih =>
    rw [squeezed_cons]
    cases hs : isSpace c with
    | true =>
      have hc : c ≠ '\x00' := by
        rintro rfl
        revert hs
        decide
      simp [ih, hc]
    | false =>
      by_cases hc : c = '\x00'
      · subst hc
        simpa [caseless_eq_nul.mpr rfl] using ih
      · have : caseless c ≠ '\x00' := fun h => hc (caseless_eq_nul.mp h)
        simp [ih, hc, this]

theorem squeezed_token (m : Mark) : squeezed m.token = m.token := by
  have key : ∀ m ∈ Mark.all, squeezed m.token = m.token := by decide
  exact key m (Mark.mem_all m)

theorem Sound.squeezed {n : Nat} {t : Text} (h : Sound n t) : Sound n (squeezed t) := by
  induction h with
  | nil => exact .nil
  | @char c t hc _ ih =>
    rw [squeezed_cons]
    split
    · exact ih
    · exact .char (fun h => hc (caseless_eq_nul.mp h)) ih
  | token hm _ ih =>
    rw [squeezed_append, squeezed_token]
    exact .token hm ih

theorem squeezed_dropWhile {p : Char → Bool} (hp : ∀ c, p c = true → isSpace c = true) (t : Text) :
    squeezed (t.dropWhile p) = squeezed t := by
  induction t with
  | nil => rfl
  | cons c t ih =>
    rw [List.dropWhile_cons]
    split
    · rw [ih, squeezed_space (hp c ‹_›)]
    · rfl

theorem squeezed_reverse (t : Text) : squeezed t.reverse = (squeezed t).reverse := by
  simp [squeezed]

theorem squeezed_dropEnd {p : Char → Bool} (hp : ∀ c, p c = true → isSpace c = true) (t : Text) :
    squeezed (dropEnd p t) = squeezed t := by
  rw [dropEnd, squeezed_reverse, squeezed_dropWhile hp, squeezed_reverse, List.reverse_reverse]

@[simp] theorem squeezed_trim (t : Text) : squeezed (trim t) = squeezed t := by
  rw [trim, trimBy, squeezed_dropEnd (fun _ h => h), squeezed_dropWhile (fun _ h => h)]

theorem isSpace_of_isLineEnd {c : Char} (h : isLineEnd c = true) : isSpace c = true := by
  simp only [isLineEnd, isSpace, Bool.or_eq_true, Bool.and_eq_true, decide_eq_true_eq,
    beq_iff_eq] at *
  omega

/-- Cutting a text into lines loses line ends only. -/
theorem squeezed_splitLines (t : Text) : (splitLines t).flatMap squeezed = squeezed t := by
  fun_induction splitLines t with
  | case1 => rfl
  | case2 t ih =>
    rw [List.flatMap_cons, ih, squeezed_space (by decide), squeezed_space (by decide)]
    rfl
  | case3 c t _ hc ih =>
    rw [List.flatMap_cons, ih, squeezed_space (isSpace_of_isLineEnd hc)]
    rfl
  | case4 c t _ hc hs ih =>
    rw [hs] at ih
    rw [squeezed_cons c t, ← ih, List.flatMap_cons, squeezed_cons]
    split <;> rfl
  | case5 c t _ hc line lines hs ih =>
    rw [hs] at ih
    rw [squeezed_cons c t, ← ih, List.flatMap_cons, List.flatMap_cons, squeezed_cons]
    split <;> rfl

/-- Joining lines adds line ends only. -/
theorem squeezed_joinLines {newline : Text} (hn : squeezed newline = []) (lines : List Text) :
    squeezed (joinLines newline lines) = lines.flatMap squeezed := by
  induction lines with
  | nil => simp
  | cons line lines ih =>
    cases lines with
    | nil => simp
    | cons next lines => simp [joinLines_cons_cons, ih, hn]

end VbTidy
