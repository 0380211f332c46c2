import VbTidy.Proofs.Recased
import Mathlib.Data.List.Perm.Basic

/-
Recasing word by word. A word of a line is a run of word characters that does not go on at either
side, and recasing writes each by itself: a keyword in the letter case asked for, any other as it
is, and what belongs to no word stays where it is (`Respelled`). The same comes out when the keywords
are tried one after the other at each place of the line, in whatever order, each as a whole word
(`replace_keywordPattern`): none is found inside a longer word. Recasing in one letter case and then
in another is recasing in the other (`overrides_recase`).
-/
namespace VbTidy

/-! ## Words of a line -/

/-- A word between two texts: word characters, and none next to them. -/
structure WordIn (a w b : Text) : Prop where
  nonempty : w ≠ []
  letters : ∀ c ∈ w, isWord c = true
  front : wordAt a.getLast? = false
  back : wordAt b.head? = false

theorem wordRuns_word_append {w b : Text} (hne : w ≠ []) (hw : ∀ c ∈ w, isWord c = true)
    (hb : wordAt b.head? = false) : wordRuns (w ++ b) = w :: wordRuns b := by
  cases b with
  | nil =>
    rw [List.append_nil, wordRuns_word hne hw]
    rfl
  | cons d b =>
    rw [wordRuns_append hb, wordRuns_word hne hw, wordRuns_other hb]
    rfl

/-- A word is a run of its line. -/
theorem WordIn.wordRuns {a w b : Text} (h : WordIn a w b) :
    wordRuns (a ++ (w ++ b)) = wordRuns a ++ w :: wordRuns b := by
  have hrest := wordRuns_word_append h.nonempty h.letters h.back
  rcases List.eq_nil_or_concat a with rfl | ⟨a, c, rfl⟩
  · exact hrest
  · have hc : isWord c = false := by
      have hlast := h.front
      rwa [List.concat_eq_append, List.getLast?_concat] at hlast
    rw [List.concat_eq_append, List.append_assoc, List.singleton_append, wordRuns_append hc,
      wordRuns_append hc, hrest]
    simp [VbTidy.wordRuns]

/-- A text is made of words and of other characters. -/
theorem word_induction {motive : Text → Prop} (nil : motive [])
    (other : ∀ c t, isWord c = false → motive t → motive (c :: t))
    (word : ∀ w t, w ≠ [] → (∀ c ∈ w, isWord c = true) → wordAt t.head? = false → motive t →
      motive (w ++ t)) (t : Text) : motive t := by
  -- By length, since a word is taken as a whole.
  induction hn : t.length using Nat.strongRecOn generalizing t with
  | ind n ih =>
    subst hn
    cases t with
    | nil => exact nil
    | cons c t =>
      cases hc : isWord c with
      | false => exact other c t hc (ih t.length (by simp) t rfl)
      | true =>
        have hletters : ∀ d ∈ c :: t.takeWhile isWord, isWord d = true := by
          intro d hd
          rcases List.mem_cons.mp hd with rfl | hd
          · exact hc
          · exact List.all_eq_true.mp List.all_takeWhile d hd
        have hstop : wordAt (t.dropWhile isWord).head? = false := by
          have hhead := List.head?_dropWhile_not isWord t
          cases hd : (t.dropWhile isWord).head? with
          | none => rfl
          | some d =>
            rw [hd] at hhead
            exact hhead
        have hlen : (t.dropWhile isWord).length < (c :: t).length :=
          Nat.lt_succ_of_le (List.dropWhile_suffix isWord).length_le
        have hrest := word (c :: t.takeWhile isWord) (t.dropWhile isWord) (List.cons_ne_nil _ _)
          hletters hstop (ih _ hlen _ rfl)
        rwa [List.cons_append, List.takeWhile_append_dropWhile] at hrest

/-- Words that are written anew are the words of what comes out. -/
theorem wordRuns_alike {t : Text} {outs : List Text}
    (h : List.Forall₂ (List.Forall₂ Alike) (wordRuns t) outs) : wordRuns outs.flatten = outs := by
  induction t using word_induction generalizing outs with
  | nil =>
    cases h
    rfl
  | other c t hc ih =>
    rw [wordRuns_other hc] at h
    cases h with
    | @cons _ o _ outs ho h =>
      cases ho with
      | @cons _ d _ o hcd ho =>
        cases ho
        rcases hcd with rfl | ⟨hc', _⟩
        · rw [List.flatten_cons, List.singleton_append, wordRuns_other hc, ih h]
        · rw [hc] at hc'
          cases hc'
  | word w t hne hw hstop ih =>
    rw [wordRuns_word_append hne hw hstop] at h
    cases h with
    | @cons _ v _ outs hv h =>
      -- what follows the word starts with no word character, before as after
      have hflat : List.Forall₂ Alike t outs.flatten := by
        rw [← flatten_wordRuns t]
        exact List.rel_flatten h
      have hv' : ∀ c ∈ v, isWord c = true :=
        forall₂_words (hv.flip.imp fun _ _ => Or.imp Eq.symm And.symm) hw
      have hvne : v ≠ [] := by
        rintro rfl
        cases hv
        exact hne rfl
      rw [List.flatten_cons, wordRuns_word_append hvne hv' ((Recased.wordAt_head hflat).trans hstop),
        ih h]

/-! ## Keywords in any letter case -/

theorem isWord_of_sameLetter {l c : Char} (hl : l.isAlpha = true) (h : sameLetter l c = true) :
    isWord c = true := by
  obtain ⟨hname, _⟩ := alpha_cases hl
  rcases sameLetter_cases (ascii_of_alpha hl) hname h with hc | ⟨rfl, _⟩ | ⟨rfl, _⟩
  · apply isWord_of_lower
    rw [hc]
    exact hname
  · decide
  · decide

theorem sameLetter_of_lower {l c : Char} (hl : l.isAlpha = true) (h : lowerChar c = l.toLower) :
    sameLetter l c = true := by
  have hlow : lowerChar l = l.toLower := by rw [lowerChar, if_pos (ascii_of_alpha hl)]
  rw [sameLetter]
  split
  · next hc =>
    simp only [Bool.and_eq_true, decide_eq_true_eq] at hc
    rw [lowerChar, if_pos hc.2] at h
    rw [h, beq_self_eq_true]
  · rw [hlow, h, List.contains_cons, beq_self_eq_true, Bool.true_or]

/-- What spells a word of letters is a word. -/
theorem isWord_of_letters {k w : Text} (hk : ∀ l ∈ k, l.isAlpha = true)
    (h : isSameWord k w = true) : ∀ c ∈ w, isWord c = true := by
  rw [isSameWord_iff] at h
  induction h with
  | nil => simp
  | @cons l c k w hlc _ ih =>
    rw [List.forall_mem_cons] at hk ⊢
    exact ⟨isWord_of_sameLetter hk.1 hlc, ih hk.2⟩

/-- What spells a keyword is a word. -/
theorem isWord_of_isSameWord {k w : Text} (hk : k ∈ keywords) (h : isSameWord k w = true) :
    w ≠ [] ∧ ∀ c ∈ w, isWord c = true := by
  refine ⟨?_, isWord_of_letters (isAlpha_of_keyword hk) h⟩
  rintro rfl
  rw [isSameWord_iff] at h
  cases h
  exact (keyword_letters hk).1 rfl

theorem isWord_of_isKeyword {w : Text} (h : isKeyword w = true) :
    w ≠ [] ∧ ∀ c ∈ w, isWord c = true := by
  rw [isKeyword, List.any_eq_true] at h
  obtain ⟨k, hk, hsame⟩ := h
  exact isWord_of_isSameWord hk hsame

/-- A text with the lower case of a keyword spells it. -/
theorem isSameWord_of_lower {k w : Text} (hk : k ∈ keywords)
    (h : lower w = k.map Char.toLower) : isSameWord k w = true := by
  -- only in ASCII is the lower case of a word that of its letters
  have hascii : ∀ c ∈ lower w, c.toNat < 0x80 := by
    intro c hc
    rw [h] at hc
    have hname := isNameChar_toNat (keywords_lower hk c hc)
    omega
  have hmap : w.map lowerChar = k.map Char.toLower := (lowerAfter_ascii hascii).1.symm.trans h
  have halpha := isAlpha_of_keyword hk
  rw [isSameWord_iff]
  clear h hascii hk
  induction k generalizing w with
  | nil =>
    rw [List.map_nil, List.map_eq_nil_iff] at hmap
    rw [hmap]
    exact .nil
  | cons l k ih =>
    cases w with
    | nil => cases hmap
    | cons c w =>
      rw [List.map_cons, List.map_cons, List.cons.injEq] at hmap
      rw [List.forall_mem_cons] at halpha
      exact .cons (sameLetter_of_lower halpha.1 hmap.1) (ih hmap.2 halpha.2)

/-! ## Keywords tried one after the other -/

/-- The pattern that tries keywords in an order, each as a whole word. -/
def keywordPattern (order : List Text) : Pattern := fun before t =>
  order.findSome? fun k => (Pattern.ofRest (dropWord? k)).wholeWords before t

/-- A text that goes on behind a word does not spell that word. -/
theorem isSameWord_append {k s : Text} (h : isSameWord k s = true) (u : Text) :
    isSameWord k (s ++ u) = u.isEmpty := by
  cases u with
  | nil =>
    rw [List.append_nil, h]
    rfl
  | cons d u =>
    by_contra hlong
    have hlen := (isSameWord_iff.mp (Bool.not_eq_false _ ▸ hlong)).length_eq
    rw [(isSameWord_iff.mp h).length_eq, List.length_append, List.length_cons] at hlen
    omega

/-- A keyword at the start of a text does not reach beyond the word there. -/
theorem dropWord?_within {k : Text} (hk : k ∈ keywords) {w b rest : Text}
    (hb : wordAt b.head? = false) (h : dropWord? k (w ++ b) = some rest) :
    ∃ s u, w = s ++ u ∧ rest = u ++ b ∧ isSameWord k s = true := by
  obtain ⟨s, hs, hsame⟩ := dropWord?_iff.mp h
  have hspells := isSameWord_iff.mpr hsame
  rcases List.append_eq_append_iff.mp hs with ⟨u, rfl, rfl⟩ | ⟨u, hu, hrest⟩
  · cases u with
    | nil =>
      rw [List.append_nil] at hspells
      exact ⟨w, [], (List.append_nil w).symm, rfl, hspells⟩
    | cons d u =>
      have hd : isWord d = true := (isWord_of_isSameWord hk hspells).2 d (by simp)
      have hd' : isWord d = false := hb
      rw [hd] at hd'
      cases hd'
  · exact ⟨s, u, hu, hrest, hspells⟩

/-- A keyword is found at the start of a word if it is that word, and nowhere else. -/
theorem wholeWords_keyword {k : Text} (hk : k ∈ keywords) {w b : Text}
    (hw : ∀ c ∈ w, isWord c = true) (hb : wordAt b.head? = false) (before : Option Char) :
    (Pattern.ofRest (dropWord? k)).wholeWords before (w ++ b) =
      if (!wordAt before && isSameWord k w) = true then some w.length else none := by
  cases hd : dropWord? k (w ++ b) with
  | none =>
    have hnot : isSameWord k w = false := by
      by_contra hsame
      rw [Bool.not_eq_false, isSameWord_iff] at hsame
      rw [dropWord?_iff.mpr ⟨w, rfl, hsame⟩] at hd
      cases hd
    simp [Pattern.wholeWords, Pattern.ofRest, hd, hnot]
  | some rest =>
    obtain ⟨s, u, rfl, rfl, hsame⟩ := dropWord?_within hk hb hd
    obtain ⟨hne, hsword⟩ := isWord_of_isSameWord hk hsame
    have hlast : wordAt (s.getLast?.or before) = true := by
      rw [List.getLast?_eq_some_getLast hne]
      exact hsword _ (List.getLast_mem hne)
    have hfirst : wordAt (s ++ (u ++ b)).head? = true := by
      obtain ⟨c, s, rfl⟩ := List.exists_cons_of_ne_nil hne
      exact hsword c List.mem_cons_self
    have hrest : wordAt (u ++ b).head? = !u.isEmpty := by
      cases u with
      | nil => exact hb
      | cons d u => exact hw d (by simp)
    rw [List.append_assoc] at hd ⊢
    have hmatch : Pattern.ofRest (dropWord? k) before (s ++ (u ++ b)) = some s.length := by
      rw [Pattern.ofRest, hd, Option.map_some, List.length_append, Nat.add_sub_cancel]
    -- behind the keyword the word must not go on
    have hend : atBoundary (((s ++ (u ++ b)).take s.length).getLast?.or before)
        ((s ++ (u ++ b)).drop s.length) = u.isEmpty := by
      rw [List.take_left, List.drop_left, atBoundary, hlast, hrest]
      cases u <;> rfl
    rw [Pattern.wholeWords, hmatch, Option.filter_some, hend, atBoundary, hfirst,
      isSameWord_append hsame]
    cases wordAt before <;> cases u <;> simp

theorem findSome?_uniform {order : List Text} {f : Text → Option Nat} {q : Text → Bool} {n : Nat}
    (h : ∀ k ∈ order, f k = if q k = true then some n else none) :
    order.findSome? f = if order.any q = true then some n else none := by
  induction order with
  | nil => rfl
  | cons k order ih =>
    rw [List.forall_mem_cons] at h
    rw [List.findSome?_cons, h.1, List.any_cons, ih h.2]
    cases q k <;> simp

section Order

variable {order : List Text} (hperm : order.Perm keywords)
include hperm

theorem keywordPattern_word {w b : Text} (hw : ∀ c ∈ w, isWord c = true)
    (hb : wordAt b.head? = false) (before : Option Char) :
    keywordPattern order before (w ++ b) =
      if (!wordAt before && isKeyword w) = true then some w.length else none := by
  have hany : order.any (fun k => !wordAt before && isSameWord k w) =
      (!wordAt before && isKeyword w) := by
    rw [isKeyword, hperm.any_eq]
    cases wordAt before <;> simp
  rw [keywordPattern, findSome?_uniform fun k hk => wholeWords_keyword (hperm.subset hk) hw hb _,
    hany]

theorem keywordPattern_miss {w b : Text} (hw : ∀ c ∈ w, isWord c = true)
    (hb : wordAt b.head? = false) {before : Option Char}
    (h : wordAt before = true ∨ isKeyword w = false) :
    keywordPattern order before (w ++ b) = none := by
  rw [keywordPattern_word hperm hw hb]
  rcases h with h | h
  · rw [h]
    rfl
  · rw [h, Bool.and_false]
    rfl

/-- No keyword is found in front of a character that belongs to no word. -/
theorem keywordPattern_other {t : Text} (ht : wordAt t.head? = false) (before : Option Char) :
    keywordPattern order before t = none := by
  have hempty : isKeyword [] = false := by
    by_contra hk
    exact (isWord_of_isKeyword (Bool.not_eq_false _ ▸ hk)).1 rfl
  exact keywordPattern_miss hperm (w := []) (by simp) ht (.inr hempty)

/-- A word that is no keyword is passed over. -/
theorem weaveFrom_otherWord {w t : Text} (hw : ∀ c ∈ w, isWord c = true)
    (hstop : wordAt t.head? = false) (hk : isKeyword w = false) (before : Option Char) :
    (keywordPattern order).weaveFrom 0 before (w ++ t) =
      ((keywordPattern order).weaveFrom 0 (w.getLast?.or before) t).prepend w := by
  apply Pattern.weaveFrom_pass
  intro x y hxy _
  have hy : ∀ c ∈ y, isWord c = true := fun c hc => hw c (hxy ▸ List.mem_append_right x hc)
  apply keywordPattern_miss hperm hy hstop
  cases x with
  | nil =>
    rw [List.nil_append] at hxy
    exact .inr (hxy ▸ hk)
  | cons d x =>
    left
    rw [List.getLast?_eq_some_getLast (List.cons_ne_nil d x)]
    exact hw _ (hxy ▸ List.mem_append_left y (List.getLast_mem _))

/-- A word that is a keyword is found. -/
theorem weaveFrom_keyword {w t : Text} (hw : ∀ c ∈ w, isWord c = true)
    (hstop : wordAt t.head? = false) (hk : isKeyword w = true) {before : Option Char}
    (hbefore : wordAt before = false) :
    (keywordPattern order).weaveFrom 0 before (w ++ t) =
      ((keywordPattern order).weaveFrom 0 (w.getLast?.or before) t).pushHit w := by
  have hhit := keywordPattern_word hperm hw hstop before
  obtain ⟨c, v, rfl⟩ := List.exists_cons_of_ne_nil (isWord_of_isKeyword hk).1
  rw [hbefore, hk] at hhit
  rw [List.cons_append] at hhit ⊢
  rw [Pattern.weaveFrom, hhit, getLast?_cons_or]
  show ((keywordPattern order).weaveFrom v.length (some c) (v ++ t)).pushHit
    (c :: (v ++ t).take v.length) = _
  rw [Pattern.weaveFrom_behind, List.take_left]

/-- The cut at the keywords finds those words of a text that are keywords. -/
theorem replace_weaveFrom (f : Text → Text) {t : Text} {before : Option Char}
    (h : wordAt before = false ∨ wordAt t.head? = false) :
    ((keywordPattern order).weaveFrom 0 before t).replace f =
      (wordRuns t).flatMap fun w => if isKeyword w = true then f w else w := by
  induction t using word_induction generalizing before with
  | nil =>
    rw [Pattern.weaveFrom, keywordPattern_other hperm rfl]
    rfl
  | other c t hc ih =>
    have hsign : isKeyword [c] = false := by
      by_contra hk
      have hword := (isWord_of_isKeyword (Bool.not_eq_false _ ▸ hk)).2 c List.mem_cons_self
      rw [hc] at hword
      cases hword
    have hnext := @ih (some c) (.inl hc)
    have hhere : wordAt (c :: t).head? = false := hc
    rw [Pattern.weaveFrom, keywordPattern_other hperm hhere, Weave.replace_push, hnext,
      wordRuns_other hc, List.flatMap_cons, hsign]
    rfl
  | word w t hne hw hstop ih =>
    have hnext := @ih (w.getLast?.or before) (.inr hstop)
    rw [wordRuns_word_append hne hw hstop, List.flatMap_cons, ← hnext]
    cases hk : isKeyword w with
    | false =>
      rw [weaveFrom_otherWord hperm hw hstop hk, Weave.prepend, Weave.replace, List.append_assoc]
      rfl
    | true =>
      have hhead : wordAt (w ++ t).head? = true := by
        obtain ⟨c, v, rfl⟩ := List.exists_cons_of_ne_nil hne
        exact hw c List.mem_cons_self
      have hbefore : wordAt before = false := h.resolve_right (by rw [hhead]; decide)
      rw [weaveFrom_keyword hperm hw hstop hk hbefore, Weave.replace_pushHit]
      rfl

/-- Replacing keywords as they are found is replacing words. -/
theorem replace_keywordPattern (f : Text → Text) (t : Text) :
    (keywordPattern order).replace f t =
      (wordRuns t).flatMap fun w => if isKeyword w = true then f w else w :=
  replace_weaveFrom hperm f (.inl rfl)

end Order

/-! ## What comes of a word -/

/-- What a word is written as: a keyword in the letter case asked for, any other word as it is.
Letters are compared one by one or by the lower case of the whole word, to the same effect. -/
def Respells (case : LetterCase) (w v : Text) : Prop :=
  (∃ k ∈ keywords, isSameWord k w = true ∧ lower w = lower k ∧ v = case.write k) ∨
    ((∀ k ∈ keywords, isSameWord k w = false ∧ lower w ≠ lower k) ∧ v = w)

/-- A keyword as it was found, in a letter case. -/
def respell (case : LetterCase) (hit : Text) : Text :=
  ((properSpelling? (lower hit)).map case.write).getD hit

/-- A text of ASCII is put in lower case character by character. -/
theorem lowerAfter_of_ascii {before t : Text} (h : ∀ c ∈ t, c.toNat < 0x80) :
    lowerAfter before t = t.map Char.toLower := by
  induction t generalizing before with
  | nil => rfl
  | cons c t ih =>
    rw [List.forall_mem_cons] at h
    have hsigma : c ≠ 'Σ' := by
      rintro rfl
      exact absurd h.1 (by decide)
    have hdot : c ≠ 'İ' := by
      rintro rfl
      exact absurd h.1 (by decide)
    rw [lowerAfter, ih h.2, List.map_cons]
    simp [hsigma, hdot, lowerChar, h.1]

/-- The letters of the vocabulary have one lower case however they are written. -/
theorem toLower_alpha {c : Char} (h : c.isAlpha = true) :
    (c.toUpper.toNat < 0x80 ∧ c.toUpper.toLower = c.toLower) ∧
      c.toLower.toNat < 0x80 ∧ c.toLower.toLower = c.toLower := by
  have key : ∀ c : Char, c.toNat < 0x80 → c.isAlpha = true →
      (c.toUpper.toNat < 0x80 ∧ c.toUpper.toLower = c.toLower) ∧
        c.toLower.toNat < 0x80 ∧ c.toLower.toLower = c.toLower := of_ascii (by decide)
  exact key c (ascii_of_alpha h) h

theorem lower_write {k : Text} (hk : k ∈ keywords) (case : LetterCase) :
    lower (case.write k) = k.map Char.toLower := by
  have halpha := isAlpha_of_keyword hk
  have key : ∀ f : Char → Char,
      (∀ c, c.isAlpha = true → (f c).toNat < 0x80 ∧ (f c).toLower = c.toLower) →
      lower (k.map f) = k.map Char.toLower := by
    intro f hf
    have hascii : ∀ c ∈ k.map f, c.toNat < 0x80 := by
      rw [List.forall_mem_map]
      exact fun c hc => (hf c (halpha c hc)).1
    rw [lower, lowerAfter_of_ascii hascii, List.map_map]
    exact List.map_congr_left fun c hc => (hf c (halpha c hc)).2
  have hid := key id fun c hc => ⟨ascii_of_alpha hc, rfl⟩
  rw [List.map_id] at hid
  cases case with
  | proper => exact hid
  | upper => exact key _ fun c hc => (toLower_alpha hc).1
  | lower => exact key _ fun c hc => (toLower_alpha hc).2
  | unchanged => exact hid

theorem lower_keyword {k : Text} (hk : k ∈ keywords) : lower k = k.map Char.toLower :=
  lower_write hk .proper

theorem respells_of_recaseWord {case : LetterCase} {w v : Text}
    (h : recaseWord case w = .ok v) : Respells case w v := by
  rw [recaseWord] at h
  split at h
  · split at h
    · next k hk =>
      obtain ⟨hmem, hlow⟩ := properSpelling_mem hk
      exact .inl ⟨k, hmem, isSameWord_of_lower hmem hlow.symm, (lower_keyword hmem ▸ hlow).symm,
        (Except.ok.inj h).symm⟩
    · cases h
  · next hno =>
    rw [isKeyword, Bool.not_eq_true, List.any_eq_false] at hno
    refine .inr ⟨fun k hk => ⟨by simpa using hno k hk, ?_⟩, (Except.ok.inj h).symm⟩
    intro hlow
    exact hno k hk (isSameWord_of_lower hk (hlow.trans (lower_keyword hk)))

theorem respell_of_recaseWord {case : LetterCase} {w v : Text} (h : recaseWord case w = .ok v) :
    (if isKeyword w = true then respell case w else w) = v := by
  rw [recaseWord] at h
  split at h
  · next hk =>
    rw [if_pos hk]
    split at h
    · next k hproper =>
      rw [respell, hproper]
      exact Except.ok.inj h
    · cases h
  · next hk =>
    rw [if_neg hk]
    exact Except.ok.inj h

/-! ## What comes of a line -/

/-- What a line is written as: word by word, and all else left in its place. -/
structure Respelled (case : LetterCase) (l out : Text) : Prop where
  length : out.length = l.length
  words : ∀ a w b, WordIn a w b → l = a ++ (w ++ b) →
    ∃ a' v b', out = a' ++ (v ++ b') ∧ a'.length = a.length ∧ v.length = w.length ∧
      Respells case w v
  others : ∀ (i : Nat) c, l[i]? = some c → isWord c = false → out[i]? = some c
  tokens : ∀ (m : Mark) a b, l = a ++ (m.token ++ b) →
    ∃ a' b', out = a' ++ (m.token ++ b') ∧ a'.length = a.length

/-- The lengths of texts that are written anew. -/
theorem Rewrites.length {case : LetterCase} {t : Text} {outs : List Text}
    (h : Rewrites case (wordRuns t) outs) : outs.flatten.length = t.length := by
  have halike := h.alike
  rw [flatten_wordRuns] at halike
  exact halike.length_eq.symm

theorem Rewrites.respelled {case : LetterCase} {line : Text} {outs : List Text}
    (h : Rewrites case (wordRuns line) outs) : Respelled case line outs.flatten where
  length := h.length
  words a w b hin hline := by
    rw [hline, hin.wordRuns] at h
    obtain ⟨outs₁, outs₂, h₁, h₂, rfl⟩ := forall₂_append h
    cases h₂ with
    | @cons _ v _ outs₂ hword h₂ =>
      refine ⟨outs₁.flatten, v, outs₂.flatten, by simp, Rewrites.length h₁, ?_,
        respells_of_recaseWord hword⟩
      exact (alike_recaseWord hword).length_eq.symm
  others i c hc hword := by
    have halike := h.alike
    rw [flatten_wordRuns] at halike
    obtain ⟨d, hd, hcd⟩ := forall₂_getElem? halike hc
    rcases hcd with rfl | ⟨hw, _⟩
    · exact hd
    · rw [hword] at hw
      cases hw
  tokens m a b hline := by
    rw [hline] at h
    obtain ⟨outs₁, outs₂, h₁, _, hflat⟩ := h.token
    exact ⟨outs₁.flatten, outs₂.flatten, hflat, Rewrites.length h₁⟩

theorem Rewrites.replace {case : LetterCase} {runs outs : List Text}
    (h : Rewrites case runs outs) :
    (runs.flatMap fun w => if isKeyword w = true then respell case w else w) = outs.flatten := by
  induction h with
  | nil => rfl
  | cons hw _ ih => rw [List.flatMap_cons, List.flatten_cons, ih, respell_of_recaseWord hw]

/-! ## One letter case after another -/

/-- The second of two ways of writing gives the same on what the first has written, and where the
first fails so does the second. -/
structure Overrides {α : Type} (f g : α → Except Fault α) : Prop where
  ok : ∀ {a b}, f a = .ok b → ∃ c, g b = .ok c ∧ g a = .ok c
  error : ∀ {a e}, f a = .error e → g a = .error e

namespace Overrides

variable {α : Type} {f g : α → Except Fault α}

theorem mapM (h : Overrides f g) : Overrides (List.mapM f) (List.mapM g) where
  ok {as bs} hf := by
    have hfs := mapM_ok_forall₂ hf
    clear hf
    induction hfs with
    | nil => exact ⟨[], rfl, rfl⟩
    | cons hab _ ih =>
      obtain ⟨c, hb, ha⟩ := h.ok hab
      obtain ⟨cs, hbs, has⟩ := ih
      refine ⟨c :: cs, ?_, ?_⟩
      · simp [List.mapM_cons, hb, hbs, bind, Except.bind, pure, Except.pure]
      · simp [List.mapM_cons, ha, has, bind, Except.bind, pure, Except.pure]
  error {as e} hf := by
    -- in front of the element that fails first the second way succeeds as well
    induction as with
    | nil => cases hf
    | cons a as ih =>
      rw [List.mapM_cons] at hf ⊢
      cases ha : f a with
      | error e' =>
        rw [ha] at hf
        rw [h.error ha]
        exact hf
      | ok b =>
        obtain ⟨c, _, hc⟩ := h.ok ha
        rw [ha] at hf
        rw [hc]
        cases has : as.mapM f with
        | error e' =>
          simp only [bind, Except.bind, has, Except.error.injEq] at hf
          rw [hf] at has
          simp only [bind, Except.bind, ih has]
        | ok bs => simp [bind, Except.bind, has, pure, Except.pure] at hf

theorem bind_eq (h : Overrides f g) (a : α) : (f a >>= g) = g a := by
  cases hf : f a with
  | error e => exact (h.error hf).symm
  | ok b =>
    obtain ⟨c, hb, ha⟩ := h.ok hf
    exact hb.trans ha.symm

end Overrides

theorem isKeyword_write {k : Text} (hk : k ∈ keywords) (case : LetterCase) :
    isKeyword (case.write k) = true := by
  rw [isKeyword, List.any_eq_true]
  exact ⟨k, hk, isSameWord_of_lower hk (lower_write hk case)⟩

theorem overrides_recaseWord (first second : LetterCase) :
    Overrides (recaseWord first) (recaseWord second) where
  ok {w v} h := by
    rw [recaseWord] at h
    split at h
    · next hword =>
      split at h
      · next k hproper =>
        obtain ⟨hk, hlow⟩ := properSpelling_mem hproper
        obtain rfl := Except.ok.inj h
        refine ⟨second.write k, ?_, ?_⟩
        · rw [recaseWord, if_pos (isKeyword_write hk first), lower_write hk, hlow, hproper]
        · rw [recaseWord, if_pos hword, hproper]
      · cases h
    · next hword =>
      obtain rfl := Except.ok.inj h
      have hout : recaseWord second w = .ok w := by rw [recaseWord, if_neg hword]
      exact ⟨w, hout, hout⟩
  error {w e} h := by
    rw [recaseWord] at h ⊢
    split at h
    · next hword =>
      rw [if_pos hword]
      split at h
      · cases h
      · exact h
    · cases h

theorem overrides_recaseLine (first second : LetterCase) :
    Overrides (recaseLine first) (recaseLine second) where
  ok {line out} h := by
    cases hruns : (wordRuns line).mapM (recaseWord first) with
    | error e => simp [recaseLine, hruns, bind, Except.bind] at h
    | ok outs =>
      obtain ⟨outs', hsecond, honce⟩ := (overrides_recaseWord first second).mapM.ok hruns
      -- the second pass finds the words that the first one wrote
      have hwords : wordRuns outs.flatten = outs :=
        wordRuns_alike ((mapM_ok_forall₂ hruns).imp fun _ _ => alike_recaseWord)
      obtain rfl : outs.flatten = out := by
        simpa [recaseLine, hruns, bind, Except.bind, pure, Except.pure] using h
      refine ⟨outs'.flatten, ?_, ?_⟩
      · rw [recaseLine, hwords, hsecond]
        rfl
      · rw [recaseLine, honce]
        rfl
  error {line e} h := by
    cases hruns : (wordRuns line).mapM (recaseWord first) with
    | error e' =>
      obtain rfl : e' = e := by simpa [recaseLine, hruns, bind, Except.bind] using h
      rw [recaseLine, (overrides_recaseWord first second).mapM.error hruns]
      rfl
    | ok outs => simp [recaseLine, hruns, bind, Except.bind, pure, Except.pure] at h

theorem recase_eq {case : LetterCase} (h : case ≠ .unchanged) (lines : List Text) :
    recase case lines = lines.mapM (recaseLine case) := by
  cases case with
  | unchanged => exact absurd rfl h
  | proper => rfl
  | upper => rfl
  | lower => rfl

/-- Recasing writes each word of each line by itself and leaves all else in its place; keywords tried
one after the other, in any order, come to the same. The letter case that was asked for last is the
one that all keywords have, and where recasing fails in one it fails in each. -/
theorem recase_wordwise {case : LetterCase} (hcase : case ≠ .unchanged) (lines : List Text) :
    (∀ out, recase case lines = .ok out →
      List.Forall₂ (fun line written => Respelled case line written ∧
        ∀ order : List Text, order.Perm keywords →
          (keywordPattern order).replace (respell case) line = written) lines out) ∧
    ∀ last : LetterCase, last ≠ .unchanged →
      (recase case lines >>= recase last) = recase last lines := by
  constructor
  · intro out h
    rw [recase_eq hcase] at h
    refine (mapM_ok_forall₂ h).imp ?_
    intro line written hline
    obtain ⟨outs, hr, rfl⟩ := recaseLine_ok hline
    refine ⟨hr.respelled, ?_⟩
    intro order hperm
    rw [replace_keywordPattern hperm, hr.replace]
  · intro last hlast
    rw [recase_eq hcase, recase_eq hlast, funext (recase_eq hlast)]
    exact (overrides_recaseLine case last).mapM.bind_eq lines

/-- Keywords inside a longer word and next to a token, one with the Kelvin sign for a letter. -/
def mixedKeywords : List Text :=
  ["date_ \u212Aeys", "\x00html\x00dateadd"].map String.toList

/-- Only whole words are written in upper case, and afterwards they may be written as they should be
without a trace of it. -/
theorem mixedKeywords_wordwise :
    LetterCase.upper ≠ .unchanged ∧ LetterCase.proper ≠ .unchanged ∧
      List.Forall₂ (Respelled .upper) mixedKeywords
        (["date_ KEYS", "\x00html\x00DATEADD"].map String.toList) ∧
      (recase .upper mixedKeywords >>= recase .proper) = recase .proper mixedKeywords := by
  have hupper : LetterCase.upper ≠ .unchanged := by decide
  have hproper : LetterCase.proper ≠ .unchanged := by decide
  obtain ⟨hlines, hlast⟩ := recase_wordwise hupper mixedKeywords
  refine ⟨hupper, hproper, ?_, hlast .proper hproper⟩
  exact (hlines _ (by decide +kernel)).imp fun _ _ => And.left

end VbTidy
