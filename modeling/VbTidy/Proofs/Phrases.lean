import VbTidy.Proofs.LineWords

/-
Error phrases by their words. A phrase puts its words into the row of words of its line
(`hasPhrase_of_match`), so a line in whose words the phrase does not stand has none. A phrase that is
put in between texts without one is found where it was put, and no other is (`cutResume_fillFrom`): one
that begins in front of it would need an error, resume or next where it starts.
-/
namespace VbTidy

theorem words_resumePhrase :
    words resumePhrase = ["On".toList, "Error".toList, "Resume".toList, "Next".toList] := by
  decide

/-- Words that a phrase may be made of. -/
def PhraseWords (ws : List Text) : Prop :=
  ws ≠ [] ∧ ∀ w ∈ ws, w ≠ [] ∧ InPhrase w

theorem phraseWords_resume : PhraseWords (words resumePhrase) := by
  rw [words_resumePhrase]
  refine ⟨by simp, ?_⟩
  unfold InPhrase
  decide

/-- What spells a word of the phrase is a word. -/
theorem word_of_spelled {s w : Text} (hne : w ≠ []) (hw : InPhrase w)
    (h : s.map (fun c => squeezed [c]) = w.map fun l => [l.toLower]) :
    s ≠ [] ∧ (∀ c ∈ s, isWord c = true) ∧ squeezed s = squeezed w := by
  have key : ∀ l ∈ resumePhrase, isSpace l = false →
      isNameChar l.toLower = true ∧ squeezed [l] = [l.toLower] := by decide
  refine ⟨?_, fun c hc => ?_, ?_⟩
  · rintro rfl
    exact hne (List.map_eq_nil_iff.mp h.symm)
  · have hmem : squeezed [c] ∈ w.map fun l => [l.toLower] := by
      rw [← h]
      exact List.mem_map_of_mem hc
    obtain ⟨l, hl, hlow⟩ := List.mem_map.mp hmem
    obtain ⟨hname, _⟩ := key l (hw l hl).1 (hw l hl).2
    cases hspace : isSpace c with
    | true =>
      rw [squeezed_space hspace] at hlow
      cases hlow
    | false =>
      rw [squeezed_cons, hspace] at hlow
      have hcase : caseless c = l.toLower := (List.cons.inj hlow).1.symm
      rw [caseless] at hcase
      split at hcase
      · next hlong =>
        rw [beq_iff_eq.mp hlong]
        decide
      · exact isWord_of_lower (by rw [hcase, hname])
  · have hword : w.map (fun l => [l.toLower]) = w.map fun l => squeezed [l] :=
      List.map_congr_left fun l hl => (key l (hw l hl).1 (hw l hl).2).2.symm
    rw [squeezed_eq_flatMap, squeezed_eq_flatMap w, List.flatMap_def, List.flatMap_def, h, hword]

theorem wordAt_ends {s : Text} (hne : s ≠ []) (hs : ∀ c ∈ s, isWord c = true) :
    wordAt s.head? = true ∧ wordAt s.getLast? = true := by
  obtain ⟨c, t, rfl⟩ := List.exists_cons_of_ne_nil hne
  refine ⟨hs c List.mem_cons_self, ?_⟩
  rw [List.getLast?_eq_some_getLast hne]
  exact hs _ (List.getLast_mem hne)

/-- A phrase is found as its words in a row. -/
theorem dropBlankPhrase?_words {ws : List Text} {t rest : Text} (hws : PhraseWords ws)
    (h : dropBlankPhrase? ws t = some rest) :
    ∃ s, t = s ++ rest ∧ lineWords s = ws.map squeezed ∧ wordAt s.head? = true ∧
      wordAt s.getLast? = true := by
  obtain ⟨hne, hin⟩ := hws
  fun_induction dropBlankPhrase? ws t with
  | case1 t => exact absurd rfl hne
  | case2 w t =>
    obtain ⟨hwne, hw⟩ := hin w List.mem_cons_self
    obtain ⟨s, rfl, hmap⟩ := dropWord?_phrase hw h
    obtain ⟨hsne, hword, hsq⟩ := word_of_spelled hwne hw hmap
    obtain ⟨hfirst, hlast⟩ := wordAt_ends hsne hword
    refine ⟨s, rfl, ?_, hfirst, hlast⟩
    rw [lineWords_word hsne hword, hsq]
    rfl
  | case3 w ws t hws c after hafter hc ih =>
    obtain ⟨hwne, hw⟩ := hin w List.mem_cons_self
    obtain ⟨s, rfl, hmap⟩ := dropWord?_phrase hw hafter
    obtain ⟨hsne, hword, hsq⟩ := word_of_spelled hwne hw hmap
    obtain ⟨u, hu, hwords, _, hlast⟩ := ih h (fun hnil => hws (by rw [hnil]))
      fun v hv => hin v (List.mem_cons_of_mem _ hv)
    have hblank : ∀ d ∈ after.takeWhile isBlank, isWord d = false := fun d hd =>
      isWord_of_isBreak (isBreak_of_isSpace (isSpace_of_isBlank (List.mem_takeWhile_imp hd)))
    have hc' : isWord c = false :=
      isWord_of_isBreak (isBreak_of_isSpace (isSpace_of_isBlank hc))
    refine ⟨s ++ c :: (after.takeWhile isBlank ++ u), ?_, ?_, ?_, ?_⟩
    · rw [List.append_assoc, List.cons_append, List.append_assoc, ← hu, List.takeWhile_append_dropWhile]
    · have hback : wordAt (after.takeWhile isBlank).getLast? = false := by
        cases hd : (after.takeWhile isBlank).getLast? with
        | none => rfl
        | some d => exact hblank d (List.mem_of_getLast? hd)
      rw [lineWords_other hc', lineWords_append (.inl hback), lineWords_of_others hblank, hwords,
        lineWords_word hsne hword, hsq]
      rfl
    · rw [List.head?_append_of_ne_nil _ hsne]
      exact (wordAt_ends hsne hword).1
    · have hune : u ≠ [] := by
        rintro rfl
        cases hlast
      rw [← List.cons_append, ← List.append_assoc, List.getLast?_append_of_ne_nil _ hune]
      exact hlast
  | case4 => cases h
  | case5 => cases h

/-- A word that is found at the start of two texts in a row stands in the first, if that does not end
with a word, and is not empty or the second starts with another letter. -/
theorem dropWord?_before {w v y rest : Text} (hne : w ≠ []) (hw : InPhrase w)
    (hother : v = [] → ∀ l ∈ w.head?, ∀ o ∈ y.head?, sameLetter l o = false)
    (hv : wordAt v.getLast? = false) (h : dropWord? w (v ++ y) = some rest) :
    ∃ v', rest = v' ++ y ∧ dropWord? w v = some v' := by
  obtain ⟨s, hs, hletters⟩ := dropWord?_iff.mp h
  obtain ⟨s', hs', hmap⟩ := dropWord?_phrase hw h
  obtain rfl : s = s' := List.append_cancel_right (hs.symm.trans hs')
  obtain ⟨hsne, hword, _⟩ := word_of_spelled hne hw hmap
  rcases List.append_eq_append_iff.mp hs with ⟨z, rfl, hz⟩ | ⟨v', rfl, hrest⟩
  · cases v with
    | nil =>
      -- the word would start with the first letter of the second text
      obtain ⟨l, w, rfl⟩ := List.exists_cons_of_ne_nil hne
      cases hletters with
      | @cons _ o _ z ho _ =>
        have := hother rfl l rfl o (by rw [hz]; rfl)
        rw [ho] at this
        cases this
    | cons c v =>
      have hlast := (wordAt_ends (List.cons_ne_nil c v) fun d hd =>
        hword d (List.mem_append_left z hd)).2
      rw [hv] at hlast
      cases hlast
  · exact ⟨v', hrest, dropWord?_iff.mpr ⟨s, rfl, hletters⟩⟩

/-- Blanks in front of a text end where that begins. -/
theorem dropBlanks_before {y : Text} (hy : ∃ o ∈ y.head?, isBlank o = false) (v : Text) :
    (v ++ y).dropWhile isBlank = v.dropWhile isBlank ++ y := by
  rw [List.dropWhile_append]
  split
  · next hnil =>
    obtain ⟨o, ho, hplain⟩ := hy
    obtain ⟨y, rfl⟩ := List.head?_eq_some_iff.mp ho
    rw [List.isEmpty_iff.mp hnil, List.nil_append, dropBlanks_plain hplain]
  · rfl

/-- No word stands at the end of a text that ends one without a word there. -/
theorem wordAt_suffix {s t : Text} (hs : s <:+ t) (h : wordAt t.getLast? = false) :
    wordAt s.getLast? = false := by
  obtain ⟨u, rfl⟩ := hs
  by_cases hnil : s = []
  · rw [hnil]
    rfl
  · rwa [List.getLast?_append_of_ne_nil u hnil] at h

/-- A phrase that begins in front of such a text ends there too. -/
theorem dropBlankPhrase?_before {ws : List Text} {v y rest : Text} (hws : PhraseWords ws)
    (hfirst : v = [] → ∀ w ∈ ws.head?, ∀ l ∈ w.head?, ∀ o ∈ y.head?, sameLetter l o = false)
    (hother : ∀ w ∈ ws.tail, ∀ l ∈ w.head?, ∀ o ∈ y.head?, sameLetter l o = false)
    (hy : ∃ o ∈ y.head?, isBlank o = false) (hv : wordAt v.getLast? = false)
    (h : dropBlankPhrase? ws (v ++ y) = some rest) :
    ∃ v', rest = v' ++ y ∧ dropBlankPhrase? ws v = some v' := by
  obtain ⟨hne, hin⟩ := hws
  generalize ht : v ++ y = t at h
  fun_induction dropBlankPhrase? ws t generalizing v with
  | case1 t => exact absurd rfl hne
  | case2 w t =>
    obtain ⟨hwne, hw⟩ := hin w List.mem_cons_self
    rw [← ht] at h
    exact dropWord?_before hwne hw (fun hnil => hfirst hnil w rfl) hv h
  | case3 w ws t hws c after hafter hc ih =>
    obtain ⟨hwne, hw⟩ := hin w List.mem_cons_self
    rw [← ht] at hafter
    obtain ⟨v', hrest, hword⟩ :=
      dropWord?_before hwne hw (fun hnil => hfirst hnil w rfl) hv hafter
    cases v' with
    | nil =>
      obtain ⟨o, ho, hplain⟩ := hy
      rw [List.nil_append] at hrest
      rw [← hrest] at ho
      cases ho
      rw [hc] at hplain
      cases hplain
    | cons d v' =>
      obtain ⟨rfl, rfl⟩ := List.cons.inj hrest
      have hlast : wordAt (v'.dropWhile isBlank).getLast? = false := by
        obtain ⟨s, rfl, _⟩ := dropWord?_iff.mp hword
        exact wordAt_suffix ((List.dropWhile_suffix isBlank).trans
          ((List.suffix_cons _ v').trans (List.suffix_append _ _))) hv
      obtain ⟨v'', rfl, hmore⟩ := ih (fun _ w hw => hother w (List.mem_of_mem_head? hw))
        (fun w hw => hother w (List.mem_of_mem_tail hw)) hlast
        (fun hnil => hws (by rw [hnil])) (fun w hw => hin w (List.mem_cons_of_mem _ hw))
        (dropBlanks_before hy v').symm h
      refine ⟨v'', rfl, ?_⟩
      rw [dropBlankPhrase?, hword]
      · simp only [hc, if_true]
        exact hmore
      · exact hws
  | case4 => cases h
  | case5 => cases h

/-- The words of the error phrase stand in a row. -/
def HasPhrase (t : Text) : Prop :=
  (words resumePhrase).map squeezed <:+: lineWords t

instance (t : Text) : Decidable (HasPhrase t) :=
  inferInstanceAs (Decidable (_ <:+: _))

/-- A phrase between two texts that no word joins to it puts its words into the row of words. -/
theorem hasPhrase_of_match {u v rest : Text} (hu : wordAt u.getLast? = false)
    (h : dropBlankPhrase? (words resumePhrase) v = some rest) (hrest : wordAt rest.head? = false) :
    HasPhrase (u ++ v) := by
  obtain ⟨s, rfl, hs, _⟩ := dropBlankPhrase?_words phraseWords_resume h
  rw [HasPhrase, lineWords_append (.inl hu), lineWords_append (.inr hrest), hs]
  exact ⟨lineWords u, lineWords rest, by simp⟩

/-- What a match of the phrase says. -/
theorem resumePattern_some {before : Option Char} {t : Text} {n : Nat}
    (h : resumePattern before t = some n) :
    ∃ s rest, t = s ++ rest ∧ n = s.length ∧
      dropBlankPhrase? (words resumePhrase) t = some rest ∧ wordAt s.head? = true ∧
      wordAt before = false ∧ wordAt rest.head? = false := by
  rw [resumePattern, Pattern.wholeWords] at h
  split at h
  case isFalse => cases h
  next hbefore =>
    rw [Option.filter_eq_some_iff] at h
    obtain ⟨rest, hrest, rfl⟩ := Option.map_eq_some_iff.mp h.1
    obtain ⟨s, rfl, _, hfirst, hlast⟩ := dropBlankPhrase?_words phraseWords_resume hrest
    have hne : s ≠ [] := by
      rintro rfl
      cases hfirst
    have hlen : (s ++ rest).length - rest.length = s.length := by simp
    refine ⟨s, rest, rfl, hlen, hrest, hfirst, ?_, ?_⟩
    · rw [atBoundary, List.head?_append_of_ne_nil _ hne, hfirst] at hbefore
      simpa using hbefore
    · have hend := h.2
      rw [hlen, List.take_left, List.drop_left, atBoundary] at hend
      cases hl : s.getLast? with
      | none =>
        rw [hl] at hlast
        cases hlast
      | some c =>
        rw [hl] at hlast hend
        rw [Option.some_or, hlast] at hend
        simpa using hend

/-- The phrase in its one spelling is found where no word is joined to it. -/
theorem resumePattern_phrase {before : Option Char} {z : Text} (hbefore : wordAt before = false)
    (hz : wordAt z.head? = false) :
    resumePattern before (resumePhrase ++ z) = some resumePhrase.length := by
  have hdrop : dropBlankPhrase? (words resumePhrase) (resumePhrase ++ z) = some z := by
    rw [words_resumePhrase]
    rfl
  have hfirst : (resumePhrase ++ z).head? = some 'O' := rfl
  have hlast : resumePhrase.getLast? = some 't' := by decide
  have hlen : (resumePhrase ++ z).length - z.length = resumePhrase.length := by simp
  have hstart : atBoundary before (resumePhrase ++ z) = true := by
    rw [atBoundary, hfirst, hbefore]
    rfl
  rw [resumePattern, Pattern.wholeWords, if_pos hstart, Pattern.ofRest, hdrop, Option.map_some,
    hlen, Option.filter_some, List.take_left, List.drop_left, hlast]
  rw [if_pos]
  rw [atBoundary, Option.some_or, hz]
  decide

/-- A phrase in its place is found. -/
theorem weaveFrom_phrase {before : Option Char} {z : Text} (hbefore : wordAt before = false)
    (hz : wordAt z.head? = false) :
    resumePattern.weaveFrom 0 before (resumePhrase ++ z) =
      (resumePattern.weaveFrom 0 (some 't') z).pushHit resumePhrase := by
  have hhit := resumePattern_phrase hbefore hz
  obtain ⟨c, t, hct⟩ := List.exists_cons_of_ne_nil (show resumePhrase ≠ [] by decide)
  have hlast : resumePhrase.getLast? = some 't' := by decide
  rw [hct] at hhit hlast ⊢
  rw [List.cons_append] at hhit ⊢
  rw [Pattern.weaveFrom, hhit]
  show (resumePattern.weaveFrom t.length (some c) (t ++ z)).pushHit
    (c :: (t ++ z).take t.length) = _
  rw [Pattern.weaveFrom_behind, List.take_left, ← getLast?_cons_or c t none, hlast, Option.some_or]

/-! ## Phrases in place -/

/-- In front of a phrase in its one spelling no other one begins. -/
theorem resumePattern_before {before : Option Char} {u v z : Text} (hne : v ≠ [])
    (hv : wordAt v.getLast? = false) (hfree : ¬ HasPhrase (u ++ v))
    (hbefore : wordAt before = false → wordAt u.getLast? = false) :
    resumePattern before (v ++ (resumePhrase ++ z)) = none := by
  cases h : resumePattern before (v ++ (resumePhrase ++ z)) with
  | none => rfl
  | some n =>
    obtain ⟨_, rest, _, _, hrest, _, hb, hend⟩ := resumePattern_some h
    have hhead : (resumePhrase ++ z).head? = some 'O' := rfl
    have hother : ∀ w ∈ (words resumePhrase).tail, (w.head?.any fun l => sameLetter l 'O') = false := by
      rw [words_resumePhrase]
      decide
    obtain ⟨v', rfl, hv'⟩ := dropBlankPhrase?_before phraseWords_resume
      (fun hnil => absurd hnil hne)
      (fun w hw l hl o ho => by
        obtain rfl : 'O' = o := Option.some.inj (hhead.symm.trans ho)
        have hfirst := hother w hw
        rwa [Option.mem_def.mp hl] at hfirst)
      ⟨'O', hhead, by decide⟩ hv hrest
    exact absurd (hasPhrase_of_match (hbefore hb) hv' (wordAt_head_append hend)) hfree

/-- A text without the words of the phrase in a row has no phrase. -/
theorem resumePattern_free {before : Option Char} {u v : Text} (hfree : ¬ HasPhrase (u ++ v))
    (hbefore : wordAt before = false → wordAt u.getLast? = false) :
    resumePattern before v = none := by
  cases h : resumePattern before v with
  | none => rfl
  | some n =>
    obtain ⟨_, rest, _, _, hrest, _, hb, hend⟩ := resumePattern_some h
    exact absurd (hasPhrase_of_match (hbefore hb) hrest hend) hfree

theorem wordAt_or {o before : Option Char} (h : wordAt (o.or before) = false) :
    wordAt o = false := by
  cases o with
  | none => rfl
  | some c => exact h

/-- Between two phrases that are found there is a text. -/
theorem gap_ne_nil {t : Text} {pre more : List (Text × Text)} {p q : Text × Text}
    (h : (cutResume t).rest = pre ++ p :: q :: more) : p.2 ≠ [] := by
  intro hnil
  have hskip : (resumePattern.weaveFrom 0 none t).rest = pre ++ (p.1, p.2) :: q :: more := h
  have hskip' : (resumePattern.weaveFrom 0 none t).rest = (pre ++ [p]) ++ (q.1, q.2) :: more := by
    rw [List.append_assoc]
    exact h
  obtain ⟨u, n, hmatch, _, hbehind⟩ := rest_weaveFrom hskip
  obtain ⟨u', n', hmatch', hhit, _⟩ := rest_weaveFrom hskip'
  obtain ⟨s, rest, rfl, rfl, _, _, _, hend⟩ := resumePattern_some hmatch
  obtain ⟨s', rest', rfl, rfl, _, hfirst, _, _⟩ := resumePattern_some hmatch'
  -- the second phrase would follow the first one, so that a word goes on behind that
  rw [List.take_left] at hhit
  rw [List.drop_left, hnil] at hbehind
  have hrest : rest = s' ++ (Weave.mk q.2 more).source := by
    rw [← hbehind, ← hhit]
    simp [Weave.source]
  rw [hrest, List.head?_append_of_ne_nil _ (by rintro rfl; cases hfirst), hfirst] at hend
  cases hend

/-- Tokens next to each other have nothing between them in the cut. -/
theorem gap_of_twins {g : Text} {rest : List (Text × Text)} {x y : Text}
    (hgaps : ∀ z ∈ (Weave.mk g rest).gaps, Sound 1 z)
    (h : Occurs (.kind .resume) x ((Mark.kind .resume).token ++ y)
      (Lifting.mask .resume ⟨g, rest⟩)) :
    ∃ pre p q more, rest = pre ++ p :: q :: more ∧ p.2 = [] := by
  have hfree : ∀ z ∈ (Weave.mk g rest).gaps, Mark.kind .resume ∉ marks z := fun z hz =>
    not_mem_marks (hgaps z hz)
  have hsound : ∀ z ∈ (Weave.mk g rest).gaps, Sound 0 z := fun z hz =>
    (hgaps z hz).mono (Nat.zero_le _)
  induction rest generalizing g x with
  | nil =>
    rw [show Lifting.mask .resume ⟨g, []⟩ = g by simp [Lifting.mask, Weave.replace]] at h
    exact absurd h.mem_marks (hfree g List.mem_cons_self)
  | cons p rest ih =>
    have htoken : Sound 0 (Mark.kind .resume).token := .mark (by decide)
    rw [mask_cons] at h
    rcases h.of_append (hsound g List.mem_cons_self) with ⟨_, hin, _⟩ | ⟨x', hx', rfl⟩
    · exact absurd hin.mem_marks (hfree g List.mem_cons_self)
    · rcases hx'.of_append htoken with ⟨y', hin, hy⟩ | ⟨x'', hx'', rfl⟩
      · -- the first of the two is the one that stands here
        have hlen := congrArg List.length hin.eq
        rw [List.length_append, List.length_append] at hlen
        obtain rfl : y' = [] := List.length_eq_zero_iff.mp (by omega)
        have hnext : Occurs (.kind .resume) [] y (Lifting.mask .resume ⟨p.2, rest⟩) :=
          ⟨hy.symm, .nil⟩
        have hp : p.2 ∈ (Weave.mk g (p :: rest)).gaps := List.mem_cons_of_mem _ List.mem_cons_self
        cases rest with
        | nil =>
          rw [show Lifting.mask .resume ⟨p.2, []⟩ = p.2 by
            simp [Lifting.mask, Weave.replace]] at hnext
          exact absurd hnext.mem_marks (hfree _ hp)
        | cons q rest =>
          rw [mask_cons] at hnext
          rcases hnext.of_append (hsound _ hp) with ⟨_, hin, _⟩ | ⟨_, _, hnil⟩
          · exact absurd hin.mem_marks (hfree _ hp)
          · exact ⟨[], p, q, rest, rfl, (List.append_eq_nil_iff.mp hnil.symm).1⟩
      · obtain ⟨pre, p', q, more, rfl, hp'⟩ := ih
          (fun z hz => hgaps z (List.mem_cons_of_mem g hz)) hx''
          (fun z hz => hfree z (List.mem_cons_of_mem g hz))
          fun z hz => hsound z (List.mem_cons_of_mem g hz)
        exact ⟨p :: pre, p', q, more, rfl, hp'⟩

/-- No two phrases are taken out next to each other. -/
theorem not_twins_cutResume {t : Text} (ht : Sound 1 t) :
    ¬ twinPhrases <:+: Lifting.mask .resume (cutResume t) := by
  intro h
  have hcut := soundCut_resume ht
  obtain ⟨x, y, hxy⟩ := occurs_twins ((hcut.mask (k := .resume)).mono (Nat.zero_le _)) h
  obtain ⟨pre, p, q, more, hrest, hp⟩ := gap_of_twins hcut.gaps hxy
  exact gap_ne_nil hrest hp

/-- Places for phrases: no word touches one, and no two of them touch. -/
def FreePlaces : Text → List (Text × Text) → Prop
  | _, [] => True
  | g, p :: rest => wordAt g.getLast? = false ∧ wordAt p.2.head? = false ∧ (p.2 = [] → rest = []) ∧
      FreePlaces p.2 rest

section
variable {g : Text} {rest : List (Text × Text)}

/-- The tokens for phrases stand in places for phrases. -/
theorem freePlaces_of_calm (hcalm : Calm (Lifting.mask .resume ⟨g, rest⟩))
    (hsound : ∀ x ∈ (Weave.mk g rest).gaps, Sound 0 x)
    (hapart : ¬ twinPhrases <:+: Lifting.mask .resume ⟨g, rest⟩) : FreePlaces g rest := by
  induction rest generalizing g with
  | nil => trivial
  | cons p rest ih =>
    have hg : Sound 0 g := hsound g List.mem_cons_self
    have hmask := mask_cons .resume g p rest
    have htoken : Sound 0 (g ++ (Mark.kind .resume).token) := hg.append (.mark (by decide))
    obtain ⟨hlast, hnext⟩ := hcalm g _ ⟨hmask, hg⟩
    have hbehind : Lifting.mask .resume ⟨g, p :: rest⟩ =
        (g ++ (Mark.kind .resume).token) ++ Lifting.mask .resume ⟨p.2, rest⟩ := by
      rw [hmask, List.append_assoc]
    refine ⟨hlast, wordAt_head_append hnext, fun hp => ?_, ih (Calm.right htoken (hbehind ▸ hcalm))
      (fun x hx => hsound x (List.mem_cons_of_mem g hx)) fun h => hapart ?_⟩
    · by_contra hne
      obtain ⟨q, rest', rfl⟩ := List.exists_cons_of_ne_nil hne
      apply hapart
      rw [hmask, hp, mask_cons]
      exact ⟨g, Lifting.mask .resume ⟨q.2, rest'⟩, by simp [twinPhrases]; rfl⟩
    · rw [hbehind]
      exact h.trans (List.suffix_append _ _).isInfix

/-- Behind a phrase no word starts. -/
theorem wordAt_behind {ls : List Text} (hnext : wordAt g.head? = false) (hend : g = [] → rest = []) :
    wordAt (Weave.fillWith ls ⟨g, rest⟩).head? = false := by
  cases g with
  | nil =>
    rw [hend rfl, fillWith_stop _ _ _ (.inr rfl)]
    rfl
  | cons c g => exact hnext

/-- A text without phrases of its own is passed over up to the phrase behind it. -/
theorem weaveFrom_gap {before : Option Char} {y : Text}
    (h : ∀ u v, g = u ++ v → v ≠ [] → ∀ b, (wordAt b = false → wordAt u.getLast? = false) →
      resumePattern b (v ++ y) = none) :
    resumePattern.weaveFrom 0 before (g ++ y) =
      (resumePattern.weaveFrom 0 (g.getLast?.or before) y).prepend g :=
  Pattern.weaveFrom_pass fun u v huv hv => h u v huv hv _ fun hb => wordAt_or hb

/-- A line with the phrases in place is cut at them. -/
theorem cutResume_fillFrom {before : Option Char} (hplaces : FreePlaces g rest)
    (hfree : ∀ x ∈ (Weave.mk g rest).gaps, ¬ HasPhrase x)
    (hbefore : g = [] → rest ≠ [] → wordAt before = false) :
    resumePattern.weaveFrom 0 before
        (Weave.fillWith (List.replicate rest.length resumePhrase) ⟨g, rest⟩) =
      ⟨g, rest.map fun p => (resumePhrase, p.2)⟩ := by
  induction rest generalizing g before with
  | nil =>
    have hpass : resumePattern.weaveFrom 0 before (g ++ []) =
        (resumePattern.weaveFrom 0 (g.getLast?.or before) []).prepend g := by
      refine weaveFrom_gap fun u v huv hv b hb => ?_
      rw [List.append_nil]
      exact resumePattern_free (huv ▸ hfree g List.mem_cons_self) hb
    have hend : resumePattern (g.getLast?.or before) [] = none :=
      resumePattern_free (u := g) (by rw [List.append_nil]; exact hfree g List.mem_cons_self)
        wordAt_or
    rw [fillWith_stop _ _ _ (.inr rfl), ← List.append_nil g, hpass, Pattern.weaveFrom, hend]
    simp [Weave.prepend]
  | cons p rest ih =>
    obtain ⟨hlast, hnext, hend, hmore⟩ := hplaces
    have hdeep := @ih p.2 (some 't') hmore (fun x hx => hfree x (List.mem_cons_of_mem g hx))
      (fun hp hne => absurd (hend hp) hne)
    have hplace : wordAt (g.getLast?.or before) = false := by
      by_cases hnil : g = []
      · rw [hnil]
        exact hbefore hnil (List.cons_ne_nil p rest)
      · rw [List.getLast?_eq_some_getLast hnil] at hlast ⊢
        exact hlast
    have hpass : ∀ z, resumePattern.weaveFrom 0 before (g ++ (resumePhrase ++ z)) =
        (resumePattern.weaveFrom 0 (g.getLast?.or before) (resumePhrase ++ z)).prepend g := by
      intro z
      refine weaveFrom_gap fun u v huv hv b hb => ?_
      refine resumePattern_before hv ?_ (huv ▸ hfree g List.mem_cons_self) hb
      rwa [huv, List.getLast?_append_of_ne_nil _ hv] at hlast
    rw [List.length_cons, List.replicate_succ, fillWith_cons, hpass,
      weaveFrom_phrase hplace (wordAt_behind hnext hend), hdeep]
    simp [Weave.prepend, Weave.pushHit]

/-- The words of a line with the phrases in place are those between the phrases and those of the
phrase. -/
theorem mem_lineWords_fill (hplaces : FreePlaces g rest) {w : Text}
    (hw : w ∈ lineWords (Weave.fillWith (List.replicate rest.length resumePhrase) ⟨g, rest⟩)) :
    (∃ x ∈ (Weave.mk g rest).gaps, w ∈ lineWords x) ∨ w ∈ lineWords resumePhrase := by
  induction rest generalizing g with
  | nil =>
    rw [fillWith_stop _ _ _ (.inr rfl)] at hw
    exact .inl ⟨g, List.mem_cons_self, hw⟩
  | cons p rest ih =>
    obtain ⟨hlast, hnext, hend, hmore⟩ := hplaces
    rw [List.length_cons, List.replicate_succ, fillWith_cons, lineWords_append (.inl hlast),
      lineWords_append (.inr (wordAt_behind hnext hend)), List.mem_append, List.mem_append] at hw
    rcases hw with hw | hw | hw
    · exact .inl ⟨g, List.mem_cons_self, hw⟩
    · exact .inr hw
    · rcases ih hmore hw with ⟨x, hx, hw⟩ | hw
      · exact .inl ⟨x, List.mem_cons_of_mem g hx, hw⟩
      · exact .inr hw

/-- The words between tokens are words of the line. -/
theorem lineWords_gap (k : Kind) {x : Text} (hx : x ∈ (Weave.mk g rest).gaps) :
    lineWords x <:+: lineWords (Lifting.mask k ⟨g, rest⟩) := by
  induction rest generalizing g with
  | nil =>
    obtain rfl := List.mem_singleton.mp hx
    simp [Lifting.mask, Weave.replace]
  | cons p rest ih =>
    have htoken : ∀ t, lineWords ((Mark.kind k).token ++ t) =
        lineWords ((Mark.kind k).token) ++ lineWords t := fun t =>
      lineWords_append (.inl (by cases k <;> decide))
    rw [mask_cons, lineWords_append (.inr (by cases k <;> rfl)), htoken]
    rcases List.mem_cons.mp hx with rfl | hx
    · exact (List.prefix_append _ _).isInfix
    · exact (ih hx).trans ((List.suffix_append _ _).isInfix.trans (List.suffix_append _ _).isInfix)

end

end VbTidy
