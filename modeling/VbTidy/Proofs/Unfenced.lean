import VbTidy.Proofs.Hosts
import VbTidy.Proofs.Masked
import VbTidy.Proofs.Twins

/-
The last steps on two texts of one shape: host markup is put back and the code next to it padded,
then the fences are taken away. What is padded and where fences are does not depend on style, so the
two texts that come out are the same but for blanks and the letter case of keywords
(`sameOutcome_putBack`).
-/
namespace VbTidy

/-- All characters of a text are blanks. -/
def Blanks (t : Text) : Prop :=
  ∀ c ∈ t, isBlank c = true

/-! ## Padding -/

theorem SameGaps.forall₂ {b : Bool} {gs gs' : List Text} (h : SameGaps b gs gs') :
    List.Forall₂ (fun g g' => shape false g = shape false g') gs gs' := by
  have hforget : ∀ {b : Bool} {g g' : Text}, shape b g = shape b g' →
      shape false g = shape false g' := by
    intro b g g' h
    cases b with
    | false => exact h
    | true => exact shape_forget h
  induction h with
  | last h => exact .cons (hforget h) .nil
  | cons h _ ih => exact .cons (hforget (shape_init h)) ih

theorem shape_padBeforeClose {t t' : Text} (h : shape false t = shape false t') :
    shape false (padBeforeClose t) = shape false (padBeforeClose t') := by
  have hline : (lastLine t).all isSpace = (lastLine t').all isSpace := by
    rw [lastLine_all_packed, lastLine_all_packed t', packed_of_shape h]
  rw [padBeforeClose, padBeforeClose, hline]
  split
  · exact h
  · exact shape_append (shape_dropEnd (fun _ h => h) isBlank_anyCase (by decide) h) rfl (by simp)

theorem padAfterOpen_eq (t : Text) :
    padAfterOpen t =
      if (firstLine t).all isSpace || (t.dropWhile isBlank).head? == some '=' ||
        (t.dropWhile isBlank).head? == some '@' then t.dropWhile isBlank
      else ' ' :: t.dropWhile isBlank := by
  rw [padAfterOpen]
  generalize t.dropWhile isBlank = u
  cases (firstLine t).all isSpace with
  | true => rfl
  | false =>
    cases u with
    | nil => rfl
    | cons c u =>
      by_cases he : c = '='
      · subst he
        rfl
      · by_cases ha : c = '@'
        · subst ha
          rfl
        · simp [he, ha]

theorem shape_padAfterOpen {t t' : Text} (h : shape false t = shape false t') :
    shape false (padAfterOpen t) = shape false (padAfterOpen t') := by
  have hbare : shape false (t.dropWhile isBlank) = shape false (t'.dropWhile isBlank) :=
    shape_dropWhile (fun _ h => h) isBlank_anyCase (by decide) h
  have hline : (firstLine t).all isSpace = (firstLine t').all isSpace := by
    rw [firstLine_all_packed, firstLine_all_packed t', packed_of_shape h]
  have hhead : ∀ d, isWord d = false →
      ((t.dropWhile isBlank).head? == some d) = ((t'.dropWhile isBlank).head? == some d) := by
    intro d hd
    have hcase : ∀ o : Option Char, (o.map anyCase == some d) = (o == some d) := by
      intro o
      cases o with
      | none => rfl
      | some c =>
        rw [Option.map_some, Option.some_beq_some, Option.some_beq_some, beq_anyCase hd]
    rw [← hcase, ← hcase (t'.dropWhile isBlank).head?, head?_dropWhile_packed,
      head?_dropWhile_packed, packed_of_shape h]
  rw [padAfterOpen_eq, padAfterOpen_eq, hline, hhead '=' (by decide), hhead '@' (by decide)]
  split
  · exact hbare
  · exact @shape_blanks_append [' '] [' '] _ _ (by decide) (by decide) (by simp) (by simp) hbare

/-- What joining and padding keep holds of code joined with runs of markup if it holds of these. -/
theorem joinPadded_induction {P : Text → Prop} (append : ∀ {s t}, P s → P t → P (s ++ t))
    (before : ∀ {t}, P t → P (padBeforeClose t)) (after : ∀ {t}, P t → P (padAfterOpen t))
    {code : Text} {ps : List (Text × Text)} (hcode : P code) (hps : ∀ p ∈ ps, P p.1 ∧ P p.2) :
    P (joinPadded code ps) := by
  induction ps generalizing code with
  | nil => exact hcode
  | cons p ps ih =>
    obtain ⟨hhost, hafter⟩ := hps p List.mem_cons_self
    have hbefore : P (if ['%', '>'].isPrefixOf p.1 then padBeforeClose code else code) := by
      split
      · exact before hcode
      · exact hcode
    have hbehind : P (if endsWith ['<', '%'] p.1 then padAfterOpen p.2 else p.2) := by
      split
      · exact after hafter
      · exact hafter
    rw [joinPadded]
    exact append (append hbefore hhost) (ih hbehind fun q hq => hps q (List.mem_cons_of_mem _ hq))

/-- Padding the code between the same runs of markup leaves texts of one shape. -/
theorem shape_joinPadded {hosts : List Text}
    (hhosts : ∀ h ∈ hosts, Hard (firstPart h) ∧ Hard (lastPart h)) {code code' : Text}
    {afters afters' : List Text} (hcode : shape false code = shape false code')
    (h : List.Forall₂ (fun g g' => shape false g = shape false g') afters afters') :
    shape false (joinPadded code (hosts.zip afters)) =
      shape false (joinPadded code' (hosts.zip afters')) := by
  induction h generalizing code code' hosts with
  | nil =>
    rw [List.zip_nil_right, joinPadded, joinPadded]
    exact hcode
  | @cons g g' afters afters' hg _ ih =>
    cases hosts with
    | nil =>
      rw [List.zip_nil_left, List.zip_nil_left, joinPadded, joinPadded]
      exact hcode
    | cons host hosts =>
      have hhost := hhosts host List.mem_cons_self
      have hpad : shape false (if ['%', '>'].isPrefixOf host then padBeforeClose code else code) =
          shape false (if ['%', '>'].isPrefixOf host then padBeforeClose code' else code') := by
        split
        · exact shape_padBeforeClose hcode
        · exact hcode
      have hafter : shape false (if endsWith ['<', '%'] host then padAfterOpen g else g) =
          shape false (if endsWith ['<', '%'] host then padAfterOpen g' else g') := by
        split
        · exact shape_padAfterOpen hg
        · exact hg
      have hrest := ih (fun h hh => hhosts h (List.mem_cons_of_mem _ hh)) hafter
      rw [List.zip_cons_cons, List.zip_cons_cons, joinPadded, joinPadded, List.append_assoc,
        List.append_assoc]
      apply shape_append_hard hpad _ (hhost.1.firstPart_append _) (hhost.1.firstPart_append _)
      apply shape_append rfl hrest
      intro _
      rw [(hhost.2.append_right _).ofName?, (hhost.2.append_right _).ofName?]

/-! ## Opening fences -/

theorem replace_ofRest_miss {f : Text → Option Text} {c : Char} {t : Text} (new : Text)
    (h : f (c :: t) = none) :
    (Pattern.ofRest f).replace (fun _ => new) (c :: t) =
      c :: (Pattern.ofRest f).replace (fun _ => new) t := by
  rw [Pattern.replace, Pattern.weave_ofRest_miss h]
  exact Weave.replace_push ..

theorem replace_ofRest_hit {f : Text → Option Text} {hit rest : Text} (new : Text) (hne : hit ≠ [])
    (h : f (hit ++ rest) = some rest) :
    (Pattern.ofRest f).replace (fun _ => new) (hit ++ rest) =
      new ++ (Pattern.ofRest f).replace (fun _ => new) rest := by
  rw [Pattern.replace, Pattern.weave_ofRest_hit hne h]
  exact Weave.replace_pushHit ..

/-- A text with its opening fences taken away. -/
def withoutOpening (newline t : Text) : Text :=
  (Pattern.ofRest dropOpenFence?).replace (fun _ => newline) t

/-- What is left of the code behind an opening fence. -/
def afterOpening (t : Text) : Text :=
  dropNewline (t.dropWhile isBlank)

theorem suffix_dropNewline (t : Text) : dropNewline t <:+ t := by
  unfold dropNewline
  split
  · exact ⟨['\r', '\n'], rfl⟩
  · exact ⟨['\n'], rfl⟩
  · exact List.suffix_refl _

theorem dropNewline_of_other {t : Text} (hboth : ¬ ∃ u, t = '\r' :: '\n' :: u)
    (hfeed : ¬ ∃ u, t = '\n' :: u) : dropNewline t = t := by
  unfold dropNewline
  split
  · exact absurd ⟨_, rfl⟩ hboth
  · exact absurd ⟨_, rfl⟩ hfeed
  · rfl

theorem suffix_afterOpening (t : Text) : afterOpening t <:+ t :=
  (suffix_dropNewline _).trans (List.dropWhile_suffix _)

theorem length_afterOpening_lt (w : Text) :
    (afterOpening w).length < (openFence ++ w).length := by
  have hle := (suffix_afterOpening w).length_le
  have hpos : 0 < openFence.length := by decide
  rw [List.length_append]
  omega

theorem openFence_append (t : Text) :
    openFence ++ t = '\x00' :: (Mark.fence.name ++ '\x00' :: '<' :: '%' :: t) := by
  show Mark.fence.token ++ ['<', '%'] ++ t = _
  rw [List.append_assoc, Mark.token_append]
  rfl

theorem withoutOpening_free {newline p : Text} (hp : '\x00' ∉ p) (t : Text) :
    withoutOpening newline (p ++ t) = p ++ withoutOpening newline t := by
  induction p with
  | nil => rfl
  | cons c p ih =>
    rw [List.mem_cons, not_or] at hp
    have hmiss : dropOpenFence? (c :: (p ++ t)) = none := by
      have hne : ¬ openFence.isPrefixOf (c :: (p ++ t)) = true := by
        rw [List.isPrefixOf_iff_prefix]
        rintro ⟨u, hu⟩
        rw [openFence_append] at hu
        exact hp.1 (List.cons.inj hu).1
      rw [dropOpenFence?, if_neg hne]
    rw [List.cons_append, withoutOpening, replace_ofRest_miss newline hmiss]
    exact congrArg _ (ih hp.2)

theorem withoutOpening_all {newline t : Text} (h : '\x00' ∉ t) : withoutOpening newline t = t := by
  have hfree : withoutOpening newline (t ++ []) = t ++ withoutOpening newline [] :=
    withoutOpening_free h []
  rwa [List.append_nil, show withoutOpening newline [] = [] from rfl, List.append_nil] at hfree

theorem withoutOpening_hit (newline w : Text) :
    withoutOpening newline (openFence ++ w) =
      newline ++ withoutOpening newline (afterOpening w) := by
  obtain ⟨s, hs⟩ := suffix_afterOpening w
  have hdrop : dropOpenFence? ((openFence ++ s) ++ afterOpening w) = some (afterOpening w) := by
    rw [List.append_assoc, hs, dropOpenFence?, if_pos (by
      rw [List.isPrefixOf_iff_prefix]
      exact List.prefix_append _ _), List.drop_left]
    rfl
  have := replace_ofRest_hit newline (by simp [openFence, boundaryToken, tokenOf]) hdrop
  rwa [List.append_assoc, hs] at this

theorem withoutOpening_miss {newline u : Text} (h : ∀ w, '\x00' :: u ≠ openFence ++ w) :
    withoutOpening newline ('\x00' :: u) = '\x00' :: withoutOpening newline u := by
  apply replace_ofRest_miss
  have hne : ¬ openFence.isPrefixOf ('\x00' :: u) = true := by
    rw [List.isPrefixOf_iff_prefix]
    rintro ⟨w, hw⟩
    exact h w hw.symm
  rw [dropOpenFence?, if_neg hne]

/-- A sign that style does not touch stands at the start of all texts of the shape. -/
theorem shape_sign {c : Char} (hw : isWord c = false) (hb : isBlank c = false) (he : c ≠ '=')
    (hn : c ≠ '\x00') {t t' : Text} (h : shape false (c :: t) = shape false t') :
    ∃ u', t' = c :: u' ∧ shape false t = shape false u' := by
  have hspace : c ≠ ' ' := by
    rintro rfl
    cases hb
  have hstart : ∀ {p p' : Text}, unstyled (c :: p) = unstyled p' →
      ∃ q, p' = c :: q ∧ unstyled p = unstyled q := by
    intro p p' h
    rw [unstyled_char hb, anyCase_of_not_word hw] at h
    obtain ⟨d, q, rfl, _, hd, hq⟩ := unstyled_eq_cons hspace he h.symm
    rw [anyCase_eq_iff hw] at hd
    exact ⟨q, by rw [hd], hq.symm⟩
  rcases nul_cases t with ht | ⟨p, u, hp, rfl⟩
  · rcases shape_eq_cases h with ⟨_, ht', hu⟩ | ⟨q, v, _, _, _, heq, _⟩
    · obtain ⟨u', rfl, hu'⟩ := hstart hu
      refine ⟨u', rfl, ?_⟩
      rw [shape_free ht, shape_free fun hm => ht' (List.mem_cons_of_mem _ hm), look_outer,
        look_outer, hu']
    · have hmem : '\x00' ∈ c :: t := by rw [heq]; simp
      rcases List.mem_cons.mp hmem with hc | hmem
      · exact absurd hc.symm hn
      · exact absurd hmem ht
  · have hp' : '\x00' ∉ c :: p := by simp [hp, hn.symm]
    rw [← List.cons_append] at h
    rcases shape_eq_cases h with ⟨hfree, _⟩ | ⟨q, v, q', v', hq, heq, hq', rfl, hlook, hv⟩
    · exact absurd (by simp) hfree
    · obtain ⟨rfl, rfl⟩ := part_unique hp' hq heq
      obtain ⟨r, rfl, hr⟩ := hstart (unstyled_of_look hlook)
      refine ⟨r ++ '\x00' :: v', rfl, ?_⟩
      rw [shape_nul hp, shape_nul fun hm => hq' (List.mem_cons_of_mem _ hm), look_outer, look_outer,
        hr, hv]

theorem shape_dropNewline {t t' : Text} (h : shape false t = shape false t') :
    shape false (dropNewline t) = shape false (dropNewline t') := by
  have hfeed : ∀ {u t' : Text}, shape false ('\n' :: u) = shape false t' →
      ∃ u', t' = '\n' :: u' ∧ shape false u = shape false u' :=
    shape_sign (by decide) (by decide) (by decide) (by decide)
  have hreturn : ∀ {u t' : Text}, shape false ('\r' :: u) = shape false t' →
      ∃ u', t' = '\r' :: u' ∧ shape false u = shape false u' :=
    shape_sign (by decide) (by decide) (by decide) (by decide)
  have hboth : ∀ {u t' : Text}, shape false ('\r' :: '\n' :: u) = shape false t' →
      ∃ u', t' = '\r' :: '\n' :: u' ∧ shape false u = shape false u' := by
    intro u t' h
    obtain ⟨v, rfl, hv⟩ := hreturn h
    obtain ⟨u', rfl, hu⟩ := hfeed hv
    exact ⟨u', rfl, hu⟩
  by_cases h₁ : ∃ u, t = '\r' :: '\n' :: u
  · obtain ⟨u, rfl⟩ := h₁
    obtain ⟨u', rfl, hu⟩ := hboth h
    exact hu
  · by_cases h₂ : ∃ u, t = '\n' :: u
    · obtain ⟨u, rfl⟩ := h₂
      obtain ⟨u', rfl, hu⟩ := hfeed h
      exact hu
    · have h₁' : ¬ ∃ u, t' = '\r' :: '\n' :: u := by
        rintro ⟨u, rfl⟩
        obtain ⟨u', hu', _⟩ := hboth h.symm
        exact h₁ ⟨u', hu'⟩
      have h₂' : ¬ ∃ u, t' = '\n' :: u := by
        rintro ⟨u, rfl⟩
        obtain ⟨u', hu', _⟩ := hfeed h.symm
        exact h₂ ⟨u', hu'⟩
      rw [dropNewline_of_other h₁ h₂, dropNewline_of_other h₁' h₂']
      exact h

theorem shape_afterOpening {t t' : Text} (h : shape false t = shape false t') :
    shape false (afterOpening t) = shape false (afterOpening t') :=
  shape_dropNewline (shape_dropWhile (fun _ h => h) isBlank_anyCase (by decide) h)

/-- An opening fence is at the same places in texts of one shape. -/
theorem shape_openFence {u u' w : Text} (hu : shape true u = shape true u')
    (h : '\x00' :: u = openFence ++ w) :
    ∃ w', '\x00' :: u' = openFence ++ w' ∧ shape false w = shape false w' := by
  rw [openFence_append] at h
  obtain ⟨_, rfl⟩ := List.cons.inj h
  obtain ⟨v', rfl, hname⟩ := shape_name hu
  obtain ⟨v', rfl, hless⟩ :=
    shape_sign (by decide) (by decide) (by decide) (by decide) (shape_forget hname)
  obtain ⟨w', rfl, hw⟩ := shape_sign (by decide) (by decide) (by decide) (by decide) hless
  exact ⟨w', (openFence_append w').symm, hw⟩

theorem shape_of_look {b b' : Bool} {p p' : Text} (hp : '\x00' ∉ p) (hp' : '\x00' ∉ p')
    (h : look b' p = look b' p') : shape b p = shape b p' := by
  rw [shape_free hp, shape_free hp', look_outer, look_outer, unstyled_of_look h]

/-- Taking the opening fences away leaves texts of one shape. -/
theorem shape_withoutOpening {newline : Text} (hfree : '\x00' ∉ newline) (hhard : Hard newline)
    {b : Bool} {t t' : Text} (h : shape b t = shape b t') :
    shape b (withoutOpening newline t) = shape b (withoutOpening newline t') := by
  generalize hn : t.length = n
  induction n using Nat.strongRecOn generalizing b t t' with
  | _ n ih =>
    rcases shape_eq_cases h with ⟨ht, ht', _⟩ | ⟨p, u, p', u', hp, rfl, hp', rfl, hlook, hu⟩
    · rw [withoutOpening_all ht, withoutOpening_all ht']
      exact h
    · rw [List.length_append, List.length_cons] at hn
      rw [withoutOpening_free hp, withoutOpening_free hp']
      by_cases hfence : ∃ w, '\x00' :: u = openFence ++ w
      · obtain ⟨w, hw⟩ := hfence
        obtain ⟨w', hw', hws⟩ := shape_openFence hu hw
        have hlen : (afterOpening w).length < n := by
          have hless := length_afterOpening_lt w
          rw [← hw, List.length_cons] at hless
          omega
        have hrest := ih _ hlen (shape_afterOpening hws) rfl
        have hfirst : ∀ z, Hard (firstPart (newline ++ z)) := by
          intro z
          rw [firstPart_append hfree]
          exact hhard.append_right _
        rw [hw, hw', withoutOpening_hit, withoutOpening_hit]
        apply shape_append_hard (shape_of_look hp hp' hlook) _ (hfirst _) (hfirst _)
        apply shape_append rfl hrest
        intro _
        rw [lastPart_free hfree, (hhard.append_right _).ofName?, (hhard.append_right _).ofName?]
      · have hmiss : ∀ w, '\x00' :: u ≠ openFence ++ w := fun w hw => hfence ⟨w, hw⟩
        have hmiss' : ∀ w, '\x00' :: u' ≠ openFence ++ w := by
          intro w hw
          obtain ⟨w', hw', _⟩ := shape_openFence hu.symm hw
          exact hmiss w' hw'
        rw [withoutOpening_miss hmiss, withoutOpening_miss hmiss', shape_nul hp, shape_nul hp',
          hlook, ih u.length (by omega) hu rfl]

/-! ## Closing fences -/

/-- A text with its closing fences taken away. -/
def withoutClosing (newline t : Text) : Text :=
  (Pattern.ofRest dropCloseFence?).replace (fun _ => newline) t

/-- Whether a text is a delimiter with nothing but a line break and blanks before it. -/
def isClosing (s : Text) : Bool :=
  (dropNewline s).dropWhile isBlank == ['%', '>']

/-- What is left of the code before a closing fence, which ends with the delimiter. -/
def beforeClosing : Text → Text
  | [] => []
  | c :: t => if isClosing (c :: t) then [] else c :: beforeClosing t

theorem dropNewline_cut {c : Char} (hreturn : c ≠ '\r') (hfeed : c ≠ '\n') (s u : Text) :
    dropNewline (s ++ c :: u) = dropNewline s ++ c :: u := by
  by_cases hboth : ∃ v, s = '\r' :: '\n' :: v
  · obtain ⟨v, rfl⟩ := hboth
    rfl
  · by_cases hone : ∃ v, s = '\n' :: v
    · obtain ⟨v, rfl⟩ := hone
      rfl
    · rw [dropNewline_of_other hboth hone, dropNewline_of_other]
      · rintro ⟨w, hw⟩
        rcases s with - | ⟨d, - | ⟨e, s⟩⟩
        · exact hreturn (List.cons.inj hw).1
        · exact hfeed (List.cons.inj (List.cons.inj hw).2).1
        · obtain ⟨hd, he⟩ := List.cons.inj hw
          exact hboth ⟨s, by rw [hd, (List.cons.inj he).1]⟩
      · rintro ⟨w, hw⟩
        rcases s with - | ⟨d, s⟩
        · exact hfeed (List.cons.inj hw).1
        · have hstart : d = '\n' := (List.cons.inj hw).1
          exact hone ⟨s, by rw [hstart]⟩

theorem closeFence_append (t : Text) :
    closeFence ++ t = ['%', '>'] ++ '\x00' :: (Mark.fence.name ++ '\x00' :: t) := by
  show ['%', '>'] ++ Mark.fence.token ++ t = _
  rw [List.append_assoc, Mark.token_append]

/-- Where a closing fence is found, seen from the part before the first NUL. -/
theorem dropCloseFence?_nul {s : Text} (hs : '\x00' ∉ s) (u : Text) :
    (∀ v, isClosing s = true → u = Mark.fence.name ++ '\x00' :: v →
      dropCloseFence? (s ++ '\x00' :: u) = some v) ∧
    ((isClosing s = false ∨ ∀ v, u ≠ Mark.fence.name ++ '\x00' :: v) →
      dropCloseFence? (s ++ '\x00' :: u) = none) := by
  have hrest : (dropNewline (s ++ '\x00' :: u)).dropWhile isBlank =
      (dropNewline s).dropWhile isBlank ++ '\x00' :: u := by
    rw [dropNewline_cut (by decide) (by decide), dropWhile_cut (by decide)]
  have hfree : '\x00' ∉ (dropNewline s).dropWhile isBlank :=
    nul_not_mem_dropWhile fun h => hs ((suffix_dropNewline s).subset h)
  refine ⟨fun v hclosing hu => ?_, fun hnot => ?_⟩
  · rw [isClosing, beq_iff_eq] at hclosing
    rw [dropCloseFence?, hrest, hclosing, hu, ← closeFence_append]
    simp
  · have hne : ¬ closeFence.isPrefixOf ((dropNewline s).dropWhile isBlank ++ '\x00' :: u) = true := by
      rw [List.isPrefixOf_iff_prefix]
      rintro ⟨v, hv⟩
      rw [closeFence_append] at hv
      obtain ⟨hdelimiter, hname⟩ := part_unique (by decide) hfree hv
      rcases hnot with hnot | hnot
      · rw [isClosing, ← hdelimiter] at hnot
        cases hnot
      · exact hnot v hname.symm
    rw [dropCloseFence?, hrest]
    exact if_neg hne

theorem dropCloseFence?_of_nul_free {t : Text} (h : '\x00' ∉ t) : dropCloseFence? t = none := by
  have hne : ¬ closeFence.isPrefixOf ((dropNewline t).dropWhile isBlank) = true := by
    rw [List.isPrefixOf_iff_prefix]
    rintro ⟨v, hv⟩
    have hmem : '\x00' ∈ (dropNewline t).dropWhile isBlank := by
      rw [← hv, closeFence_append]
      simp
    exact h ((suffix_dropNewline t).subset ((List.dropWhile_suffix _).subset hmem))
  exact if_neg hne

section
variable {newline : Text}

theorem withoutClosing_free {t : Text} (h : '\x00' ∉ t) : withoutClosing newline t = t := by
  induction t with
  | nil => rfl
  | cons c t ih =>
    rw [withoutClosing, replace_ofRest_miss newline (dropCloseFence?_of_nul_free h)]
    exact congrArg _ (ih fun hm => h (List.mem_cons_of_mem _ hm))

/-- Code before anything but a closing fence stays as it is. -/
theorem withoutClosing_miss {p u : Text} (hp : '\x00' ∉ p)
    (h : (¬ ['%', '>'] <:+ p) ∨ ∀ v, u ≠ Mark.fence.name ++ '\x00' :: v) :
    withoutClosing newline (p ++ '\x00' :: u) = p ++ '\x00' :: withoutClosing newline u := by
  have hnot : ∀ {s : Text}, s <:+ p →
      isClosing s = false ∨ ∀ v, u ≠ Mark.fence.name ++ '\x00' :: v := by
    intro s hs
    refine h.imp_left fun hp => ?_
    cases hclosing : isClosing s with
    | false => rfl
    | true =>
      rw [isClosing, beq_iff_eq] at hclosing
      refine absurd ?_ hp
      rw [← hclosing]
      exact (List.dropWhile_suffix _).trans ((suffix_dropNewline s).trans hs)
  clear h
  induction p with
  | nil =>
    have hmiss := (dropCloseFence?_nul hp u).2 (hnot (List.suffix_refl _))
    exact replace_ofRest_miss newline hmiss
  | cons c p ih =>
    have hmiss := (dropCloseFence?_nul hp u).2 (hnot (List.suffix_refl _))
    rw [List.cons_append] at hmiss ⊢
    rw [withoutClosing, replace_ofRest_miss newline hmiss]
    exact congrArg _ (ih (fun hm => hp (List.mem_cons_of_mem _ hm))
      fun hs => hnot (hs.trans (List.suffix_cons c p)))

/-- A closing fence is replaced with the line break and the blanks before it. -/
theorem withoutClosing_hit {p : Text} (hp : '\x00' ∉ p) (hend : ['%', '>'] <:+ p) (v : Text) :
    withoutClosing newline (p ++ '\x00' :: (Mark.fence.name ++ '\x00' :: v)) =
      beforeClosing p ++ (newline ++ withoutClosing newline v) := by
  induction p with
  | nil => simp at hend
  | cons c p ih =>
    rw [beforeClosing]
    split
    · next hclosing =>
      have hdrop := (dropCloseFence?_nul hp _).1 v hclosing rfl
      have hassoc : (c :: p) ++ '\x00' :: (Mark.fence.name ++ '\x00' :: v) =
          ((c :: p) ++ '\x00' :: (Mark.fence.name ++ ['\x00'])) ++ v := by simp
      rw [hassoc] at hdrop ⊢
      exact replace_ofRest_hit newline (by simp) hdrop
    · next hclosing =>
      have hmiss := (dropCloseFence?_nul hp (Mark.fence.name ++ '\x00' :: v)).2
        (.inl (by simpa using hclosing))
      have hend' : ['%', '>'] <:+ p := by
        rcases List.suffix_cons_iff.mp hend with heq | hend
        · rw [← heq] at hclosing
          exact absurd rfl hclosing
        · exact hend
      rw [List.cons_append] at hmiss ⊢
      rw [withoutClosing, replace_ofRest_miss newline hmiss]
      exact congrArg _ (ih (fun hm => hp (List.mem_cons_of_mem _ hm)) hend')

theorem withoutClosing_closeFence {p : Text} (hp : '\x00' ∉ p) (v : Text) :
    withoutClosing newline (p ++ (closeFence ++ v)) =
      beforeClosing (p ++ ['%', '>']) ++ (newline ++ withoutClosing newline v) := by
  rw [closeFence_append, ← List.append_assoc]
  exact withoutClosing_hit (by simp [hp]) (List.suffix_append _ _) v

end

/-! ## Closing fences without style -/

theorem anyCase_anyCase (c : Char) : anyCase (anyCase c) = anyCase c := by
  cases hc : isNameChar (lowerChar c) with
  | true => rw [anyCase, lowerChar_anyCase, if_pos hc, anyCase, if_pos hc]
  | false =>
    have hsame : anyCase c = c := by rw [anyCase, if_neg (by simp [hc])]
    rw [hsame, hsame]

theorem dropNewline_unstyled (t : Text) : dropNewline (unstyled t) = unstyled (dropNewline t) := by
  by_cases hboth : ∃ u, t = '\r' :: '\n' :: u
  · obtain ⟨u, rfl⟩ := hboth
    rfl
  · by_cases hfeed : ∃ u, t = '\n' :: u
    · obtain ⟨u, rfl⟩ := hfeed
      rfl
    · have hstart : ∀ {d : Char} {s v : Text}, isWord d = false → d ≠ ' ' → d ≠ '=' →
          unstyled s = d :: v → ∃ s', s = d :: s' ∧ unstyled s' = v := by
        intro d s v hw hs he h
        obtain ⟨c, s', rfl, _, hc, hv⟩ := unstyled_eq_cons hs he h
        exact ⟨s', by rw [(anyCase_eq_iff hw).mp hc], hv⟩
      rw [dropNewline_of_other hboth hfeed, dropNewline_of_other]
      · rintro ⟨u, hu⟩
        obtain ⟨s, rfl, hs⟩ := hstart (by decide) (by decide) (by decide) hu
        obtain ⟨s', rfl, _⟩ := hstart (by decide) (by decide) (by decide) hs
        exact hboth ⟨s', rfl⟩
      · rintro ⟨u, hu⟩
        obtain ⟨s, rfl, _⟩ := hstart (by decide) (by decide) (by decide) hu
        exact hfeed ⟨s, rfl⟩

/-- A delimiter at the end of a text without style stood at the end of the text. -/
theorem unstyled_delimiter {t u : Text} (h : unstyled t = u ++ ['%', '>']) :
    ∃ q, t = q ++ ['%', '>'] ∧ unstyled q = u := by
  have hsplit : u ++ ['%', '>'] = (u ++ ['%']) ++ ['>'] := by simp
  rw [hsplit] at h
  obtain ⟨s, rfl, hs⟩ := unstyled_eq_concat (by decide) (by decide) (by decide) h
  obtain ⟨q, rfl, hq⟩ := unstyled_eq_concat (by decide) (by decide) (by decide) hs
  exact ⟨q, by simp, hq⟩

theorem isClosing_unstyled (t : Text) : isClosing (unstyled t) = isClosing t := by
  rw [isClosing, isClosing, dropNewline_unstyled, ← unstyled_dropWhile (fun _ h => h) isBlank_anyCase,
    Bool.eq_iff_iff, beq_iff_eq, beq_iff_eq]
  constructor
  · intro h
    obtain ⟨q, hq, hnil⟩ := unstyled_delimiter (u := []) h
    rw [hq, unstyled_eq_nil.mp hnil, List.nil_append]
  · intro h
    rw [h]
    rfl

theorem packed_beforeClosing (t : Text) :
    packed (beforeClosing t) = packed (beforeClosing (unstyled t)) := by
  have hcons : ∀ (c : Char) (u : Text), isBlank c = false →
      packed (c :: u) = anyCase c :: packed u := fun c u hc => by simp [packed, hc]
  have hblank : ∀ (c : Char) (u : Text), isBlank c = true → packed (c :: u) = packed u :=
    fun c u hc => by simp [packed, hc]
  induction t with
  | nil => rfl
  | cons c t ih =>
    have hclosing := isClosing_unstyled (c :: t)
    have hunstyled : unstyled (c :: t) ≠ [] := fun h => absurd (unstyled_eq_nil.mp h) (by simp)
    cases hc : isClosing (c :: t) with
    | true =>
      obtain ⟨d, u, hu⟩ := List.exists_cons_of_ne_nil hunstyled
      rw [hc] at hclosing
      rw [hu] at hclosing ⊢
      rw [beforeClosing, if_pos hc, beforeClosing, if_pos hclosing]
    | false =>
      rw [hc] at hclosing
      rw [beforeClosing, if_neg (by simp [hc])]
      cases hb : isBlank c with
      | false =>
        rw [unstyled_char hb] at hclosing ⊢
        rw [beforeClosing, if_neg (by simp [hclosing]), hcons _ _ hb,
          hcons _ _ (by rw [isBlank_anyCase, hb]), anyCase_anyCase, ih]
      | true =>
        rw [hblank _ _ hb, ih]
        rcases unstyled_blank hb t with h | h
        · rw [h] at hclosing ⊢
          rw [beforeClosing, if_neg (by simp [hclosing]), hblank _ _ (by decide)]
        · rw [h]

/-- Texts of one shape are the same without their closing fences, blanks and letter case apart. -/
theorem packed_withoutClosing {newline : Text} {b : Bool} {t t' : Text}
    (h : shape b t = shape b t') :
    packed (withoutClosing newline t) = packed (withoutClosing newline t') := by
  generalize hn : t.length = n
  induction n using Nat.strongRecOn generalizing b t t' with
  | _ n ih =>
    rcases shape_eq_cases h with ⟨ht, ht', hu⟩ | ⟨p, u, p', u', hp, rfl, hp', rfl, hlook, hu⟩
    · rw [withoutClosing_free ht, withoutClosing_free ht']
      exact packed_of_unstyled hu
    · rw [List.length_append, List.length_cons] at hn
      have hparts := unstyled_of_look hlook
      have hdelimiter : ∀ {p p' : Text}, unstyled p = unstyled p' → ['%', '>'] <:+ p →
          ['%', '>'] <:+ p' := by
        rintro p p' h ⟨q, rfl⟩
        have hq : unstyled (q ++ ['%', '>']) = unstyled q ++ ['%', '>'] :=
          unstyled_split (by decide) (by decide) q ['>']
        rw [hq] at h
        obtain ⟨q', rfl, _⟩ := unstyled_delimiter h.symm
        exact List.suffix_append _ _
      have hkeep : packed (p ++ '\x00' :: withoutClosing newline u) =
          packed (p' ++ '\x00' :: withoutClosing newline u') := by
        have hcons : ∀ w, packed ('\x00' :: w) = '\x00' :: packed w := fun _ => rfl
        rw [packed_append, packed_append, hcons, hcons, packed_of_unstyled hparts,
          ih u.length (by omega) hu rfl]
      by_cases hend : ['%', '>'] <:+ p
      case neg =>
        have hend' : ¬ ['%', '>'] <:+ p' := fun h => hend (hdelimiter hparts.symm h)
        rwa [withoutClosing_miss hp (.inl hend), withoutClosing_miss hp' (.inl hend')]
      case pos =>
        by_cases hname : ∃ v, u = Mark.fence.name ++ '\x00' :: v
        · obtain ⟨v, rfl⟩ := hname
          obtain ⟨v', rfl, hv⟩ := shape_name hu
          have hlen : v.length < n := by
            rw [List.length_append, List.length_cons] at hn
            omega
          rw [withoutClosing_hit hp hend, withoutClosing_hit hp' (hdelimiter hparts hend),
            packed_append, packed_append, packed_append, packed_append, packed_beforeClosing,
            packed_beforeClosing p', hparts, ih v.length hlen hv rfl]
        · have hmiss : ∀ v, u ≠ Mark.fence.name ++ '\x00' :: v := fun v hv => hname ⟨v, hv⟩
          have hmiss' : ∀ v, u' ≠ Mark.fence.name ++ '\x00' :: v := by
            rintro v rfl
            obtain ⟨v', hv', _⟩ := shape_name hu.symm
            exact hmiss v' hv'
          rwa [withoutClosing_miss hp (.inr hmiss), withoutClosing_miss hp' (.inr hmiss')]

/-! ## All literals -/

theorem sameOutcome_putBackKind {raw : Text} {k : Kind} {t t' : Text} (h : Level k.turn t t') :
    SameOutcome (Level (k.turn + 1)) (((Lifting.result raw).shelves.shelf k).putBack t)
      (((Lifting.result raw).shelves.shelf k).putBack t') := by
  have hturn : k.turn ≤ Kind.markup.turn := by cases k <;> decide
  rw [Shelves.putBack_eq, Shelves.putBack_eq, tokens_of_shape k (h.shape hturn)]
  split
  · exact .ok (h.fill fun l hl => hl)
  · exact .error _

/-- Putting the literals back fails in both runs for the same reason, or leaves texts that are the
same, blanks and letter case apart. -/
theorem sameOutcome_putBack {raw newline : Text} (hnul : '\x00' ∉ raw) (hfree : '\x00' ∉ newline)
    (hhard : Hard newline) {t t' : Text} (h : Level 0 t t') :
    SameOutcome (fun u u' => packed u = packed u')
      (putBackLiterals (Lifting.result raw).shelves newline t).outcome
      (putBackLiterals (Lifting.result raw).shelves newline t').outcome := by
  simp only [putBackLiterals, Traced.note, Traced.finished, Traced.outcome_bind,
    Traced.outcome_tell, Traced.outcome_monadLift, Traced.outcome_pure, ok_bind]
  refine (sameOutcome_putBackKind (k := .resume) h).bind fun _ _ h => ?_
  refine (sameOutcome_putBackKind (k := .remark) h).bind fun _ _ h => ?_
  refine (sameOutcome_putBackKind (k := .string) h).bind fun _ _ h => ?_
  refine (sameOutcome_putBackKind (k := .delimiter) h).bind fun u u' h => ?_
  have hshape := h.shape (by decide)
  rw [Shelves.putBackPadded_eq, Shelves.putBackPadded_eq, tokens_of_shape .markup hshape]
  split
  · have hgaps := (sameGaps_cut .markup hshape).forall₂
    rw [Weave.gaps, Weave.gaps, List.forall₂_cons] at hgaps
    have hjoined := shape_joinPadded (fun l hl => hard_markup hnul hl) hgaps.1 hgaps.2
    exact .ok (packed_withoutClosing (shape_withoutOpening hfree hhard hjoined))
  · exact .error _

end VbTidy
