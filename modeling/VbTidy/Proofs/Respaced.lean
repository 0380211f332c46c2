import VbTidy.Proofs.Spaced
import VbTidy.Proofs.Shifted

/-
White space in order. A line loses the white space at its ends, its operators get their space, and
one space stands before the mark that continues it and before its comment. All of this is done once
and for all: the line that comes out has nothing left to do (`spaceLine_twice`), since its ends are
those of the text that was spaced (`FromTo.respaced`), the space before the mark does not change how
an operator is set (`Spaced.mark`), and the comment at its end is one that stood there before
(`endsWith_token_respaced`).
-/
namespace VbTidy

/-- The characters of a text that are no white space. -/
def ink (t : Text) : Text :=
  t.filter (!isSpace ·)

@[simp] theorem ink_append (s t : Text) : ink (s ++ t) = ink s ++ ink t :=
  List.filter_append ..

theorem ink_of_spaces {t : Text} (h : ∀ c ∈ t, isSpace c = true) : ink t = [] := by
  apply List.filter_eq_nil_iff.mpr
  intro c hc
  simp [h c hc]

/-- Blanks are no ink. -/
theorem ink_bare (t : Text) : ink (bare t) = ink t := by
  rw [ink, bare, List.filter_filter]
  apply List.filter_congr
  intro c _
  cases hs : isSpace c with
  | true => rfl
  | false =>
    cases hb : isBlank c with
    | false => rfl
    | true => rw [isSpace_of_isBlank hb] at hs; cases hs

theorem ink_of_bare {s t : Text} (h : bare s = bare t) : ink s = ink t := by
  rw [← ink_bare, h, ink_bare]

theorem ink_trim (t : Text) : ink (trim t) = ink t := by
  obtain ⟨s₁, s₂, ht, hs₁, hs₂⟩ := trim_split t
  conv_rhs => rw [ht, ink_append, ink_append, ink_of_spaces hs₁, ink_of_spaces hs₂]
  simp

/-! ## The ends of a text -/

/-- A text that starts and ends with the given characters. -/
def FromTo (c d : Char) (t : Text) : Prop :=
  t.head? = some c ∧ t.getLast? = some d

section FromTo

variable {c d : Char} {t : Text}

theorem FromTo.trim (h : FromTo c d t) (hc : isSpace c = false) (hd : isSpace d = false) :
    trim t = t := by
  obtain ⟨u, rfl⟩ := List.head?_eq_some_iff.mp h.1
  rw [VbTidy.trim, trimBy, List.dropWhile_cons, if_neg (by simp [hc]), dropEnd_of_last h.2 hd]

theorem fromTo_trim (h : trim t ≠ []) :
    ∃ c d, FromTo c d (trim t) ∧ isSpace c = false ∧ isSpace d = false := by
  have hfirst : ∀ {u : Text} {c : Char} {v : Text}, u.dropWhile isSpace = c :: v →
      isSpace c = false := by
    intro u c v hu
    have hhead := List.head?_dropWhile_not isSpace u
    rw [hu] at hhead
    simpa using hhead
  cases hdrop : t.dropWhile isSpace with
  | nil =>
    rw [VbTidy.trim, trimBy, hdrop] at h
    exact absurd rfl h
  | cons c u =>
    have hc := hfirst hdrop
    have htrim : VbTidy.trim t = c :: dropEnd isSpace u := by
      rw [VbTidy.trim, trimBy, hdrop, ← List.nil_append (c :: u), dropEnd_cut hc, List.nil_append]
    have hreverse : (VbTidy.trim t).reverse = (t.dropWhile isSpace).reverse.dropWhile isSpace := by
      rw [VbTidy.trim, trimBy, dropEnd, List.reverse_reverse]
    obtain ⟨d, v, hd⟩ := List.exists_cons_of_ne_nil (List.reverse_ne_nil_iff.mpr h)
    refine ⟨c, d, ⟨by rw [htrim]; rfl, ?_⟩, hc, hfirst (hreverse.symm.trans hd)⟩
    rw [← List.head?_reverse, hd]
    rfl

theorem last_bare (h : t.getLast? = some d) (hd : isBlank d = false) :
    (bare t).getLast? = some d := by
  obtain ⟨u, rfl⟩ := List.getLast?_eq_some_iff.mp h
  rw [bare_append, bare_plain hd, bare_nil, List.getLast?_append]
  rfl

/-- What the text so far starts with it starts with when more is set; it is given last character
first. -/
theorem starts_setOperators (hc : isBlank c = false) (u : Text) {rest : List (Text × Text)}
    (hrest : ∀ p ∈ rest, Edged p.1) :
    ∃ v, (setOperators (u ++ [c]) rest).dropWhile isBlank = v ++ [c] := by
  obtain ⟨v, hv⟩ := suffix_setOperators (u ++ [c]) hrest
  rw [← hv, dropWhile_cut hc, ← List.append_assoc, dropWhile_cut hc]
  exact ⟨_, rfl⟩

/-- Nothing is set before an operator that starts a text. -/
theorem setOperator_nil (op : Text) (how : Setting) :
    setOperator [] op how = how.behind ++ op := by
  have hahead : how.ahead [] = [] := by cases how <;> rfl
  rw [setOperator_eq, hahead, List.append_nil]

/-- Nothing is set before the first character of a text. -/
theorem head_spaceOperators (h : t.head? = some c) (hc : isBlank c = false) :
    (spaceOperators t).head? = some c := by
  have hfirst : ∃ v, (setOperators (operatorPattern.weave t).head.reverse
      (operatorPattern.weave t).rest).dropWhile isBlank = v ++ [c] := by
    have hsource : (operatorPattern.weave t).source = t := Pattern.source_weave operatorPattern t
    have hedged := edged_hits t
    rw [← hsource] at h
    generalize operatorPattern.weave t = w at h hedged
    obtain ⟨head, rest⟩ := w
    cases head with
    | cons e head =>
      obtain rfl : e = c := by simpa [Weave.source] using h
      rw [List.reverse_cons]
      exact starts_setOperators hc head.reverse hedged
    | nil =>
      cases rest with
      | nil => cases h
      | cons p rest =>
        obtain ⟨hit, after⟩ := p
        have hhit : (bare hit).head? = some c := by
          obtain ⟨⟨e, he, hoperator⟩, _⟩ := hedged _ List.mem_cons_self
          obtain ⟨op, rfl⟩ := List.head?_eq_some_iff.mp he
          rw [bare_plain (isBlank_of_isOperator hoperator)]
          simpa [Weave.source] using h
        obtain ⟨op, hop⟩ := List.head?_eq_some_iff.mp hhit
        rw [List.reverse_nil, setOperators]
        show ∃ v, (setOperators (_ ++ setOperator [] (bare hit).reverse
          (settingOf [] (bare hit) after)) rest).dropWhile isBlank = v ++ [c]
        rw [setOperator_nil, hop, List.reverse_cons, ← List.append_assoc, ← List.append_assoc]
        exact starts_setOperators hc _ fun q hq => hedged q (List.mem_cons_of_mem _ hq)
  obtain ⟨v, hv⟩ := hfirst
  show ((setOperators (operatorPattern.weave t).head.reverse
    (operatorPattern.weave t).rest).dropWhile isBlank).reverse.head? = some c
  rw [hv, List.head?_reverse, List.getLast?_append]
  rfl

theorem FromTo.spaceOperators (h : FromTo c d t) (hc : isBlank c = false) (hd : isBlank d = false) :
    FromTo c d (spaceOperators t) := by
  have hhead := head_spaceOperators h.1 hc
  refine ⟨hhead, ?_⟩
  obtain ⟨e, he⟩ : ∃ e, (VbTidy.spaceOperators t).getLast? = some e := by
    cases hout : (VbTidy.spaceOperators t).getLast? with
    | none => rw [List.getLast?_eq_none_iff.mp hout] at hhead; cases hhead
    | some e => exact ⟨e, rfl⟩
  have hplain : isBlank e = false := by
    have hdrop : (VbTidy.spaceOperators t).getLast? = ((setOperators
        (operatorPattern.weave t).head.reverse (operatorPattern.weave t).rest).dropWhile
          isBlank).head? := by
      rw [VbTidy.spaceOperators, List.getLast?_reverse]
    rw [hdrop] at he
    obtain ⟨u, hu⟩ := List.head?_eq_some_iff.mp he
    exact head_dropBlanks hu
  rw [he, ← last_bare he hplain, bare_spaceOperators, last_bare h.2 hd]

end FromTo

/-! ## The space before the mark of continuation -/

/-- What is done to the blanks before the mark of continuation. -/
theorem spaceContinuation_cases (t : Text) :
    spaceContinuation t = t ∨ ∃ x blanks, t = x ++ (blanks ++ ['_']) ∧ blanks ≠ [] ∧
      (∀ c ∈ blanks, isBlank c = true) ∧ x.reverse.dropWhile isBlank = x.reverse ∧
      spaceContinuation t = x ++ [' ', '_'] := by
  rw [spaceContinuation]
  split
  · rename_i c u hrev
    split
    · rename_i hc
      right
      have hsplit := List.takeWhile_append_dropWhile (p := isBlank) (l := c :: u)
      refine ⟨((c :: u).dropWhile isBlank).reverse, ((c :: u).takeWhile isBlank).reverse, ?_, ?_,
        ?_, ?_, rfl⟩
      · rw [← List.append_assoc, ← List.reverse_append, hsplit, ← List.reverse_cons, ← hrev,
          List.reverse_reverse]
      · rw [List.takeWhile_cons, if_pos hc]
        simp
      · intro d hd
        exact List.all_eq_true.mp List.all_takeWhile d (List.mem_reverse.mp hd)
      · rw [List.reverse_reverse, dropBlanks_twice]
    · exact .inl rfl
  · exact .inl rfl

theorem bare_spaceContinuation (t : Text) : bare (spaceContinuation t) = bare t := by
  rcases spaceContinuation_cases t with h | ⟨x, blanks, rfl, _, hblank, _, h⟩
  · rw [h]
  · rw [h, bare_append, bare_append, bare_append, bare_of_blanks hblank]
    rfl

theorem FromTo.spaceContinuation {c d : Char} {t : Text} (h : FromTo c d t)
    (hc : isBlank c = false) : FromTo c d (spaceContinuation t) := by
  rcases spaceContinuation_cases t with heq | ⟨x, blanks, rfl, hne, hblank, _, heq⟩
  · rw [heq]
    exact h
  · obtain ⟨hhead, hlast⟩ := h
    rw [heq]
    constructor
    · cases x with
      | nil =>
        obtain ⟨b, blanks, rfl⟩ := List.exists_cons_of_ne_nil hne
        obtain rfl : b = c := by simpa using hhead
        rw [hblank b List.mem_cons_self] at hc
        cases hc
      | cons e x => exact hhead
    · rw [List.getLast?_append, List.getLast?_append] at hlast
      rw [List.getLast?_append]
      exact hlast

/-- Behind an operator the blanks before the mark may be exchanged for one space. -/
theorem SetAs.mark {back hit after blanks : Text} (hne : blanks ≠ [])
    (hblank : ∀ c ∈ blanks, isBlank c = true) (h : SetAs back hit (after ++ (blanks ++ ['_']))) :
    SetAs back hit (after ++ [' ', '_']) := by
  obtain ⟨hsolid, hedged, hahead, hbehind⟩ := h
  have hset : settingOf back hit (after ++ [' ', '_']) =
      settingOf back hit (after ++ (blanks ++ ['_'])) := by
    have hhead : ∀ c ∈ (blanks ++ ['_']).head?, isBlank c = true := by
      obtain ⟨b, blanks, rfl⟩ := List.exists_cons_of_ne_nil hne
      intro c hc
      obtain rfl : b = c := by simpa using hc
      exact hblank b List.mem_cons_self
    apply settingOf_congr rfl (fun _ => rfl)
    intro _
    rw [startsRadix_append hhead, startsRadix_append (s := [' ', '_']) (by simp; rfl)]
  have hmark : ∀ {u : Text}, (∀ c ∈ u, isBlank c = true) →
      (u ++ ['_']).dropWhile isBlank = ['_'] := by
    intro u hu
    rw [dropBlanks_append hu]
    rfl
  refine ⟨hsolid, hedged, by rw [hset, hahead], .inr ?_⟩
  rw [hset]
  generalize settingOf back hit (after ++ (blanks ++ ['_'])) = how at hbehind
  cases hcore : after.dropWhile isBlank with
  | nil =>
    -- nothing but blanks stands before the mark, and those are the space behind the operator
    have hafter := blanks_of_dropBlanks hcore
    have hdrop : (after ++ (blanks ++ ['_'])).dropWhile isBlank = ['_'] := by
      rw [dropBlanks_append hafter, hmark hblank]
    rw [hdrop] at hbehind
    obtain hnil | hbehind := hbehind
    · cases hnil
    rw [← List.append_assoc] at hbehind
    have hspace : after ++ blanks = how.behind := List.append_cancel_right hbehind
    cases how with
    | binary =>
      rcases List.append_eq_singleton_iff.mp hspace with ⟨rfl, _⟩ | ⟨_, rfl⟩
      · rfl
      · exact absurd rfl hne
    | sign => exact absurd (List.append_eq_nil_iff.mp hspace).2 hne
    | exponent => exact absurd (List.append_eq_nil_iff.mp hspace).2 hne
  | cons c core =>
    have hdrop : ∀ u : Text, (after ++ u).dropWhile isBlank = after.dropWhile isBlank ++ u := by
      intro u
      rw [List.dropWhile_append, hcore]
      rfl
    rw [hdrop] at hbehind ⊢
    obtain hnil | hbehind := hbehind
    · rw [hcore] at hnil
      cases hnil
    rw [← List.append_assoc how.behind] at hbehind ⊢
    rw [← List.append_cancel_right hbehind]

/-- In a text with its operators set the blanks before the mark may be exchanged for one space. -/
theorem Spaced.mark {blanks : Text} (hne : blanks ≠ []) (hblank : ∀ c ∈ blanks, isBlank c = true)
    (head : Text) (rest : List (Text × Text)) (back : Text)
    (h : Spaced ((Weave.appendRest head rest ⟨blanks ++ ['_'], []⟩).head.reverse ++ back)
      (Weave.appendRest head rest ⟨blanks ++ ['_'], []⟩).rest) :
    Spaced ((Weave.appendRest head rest ⟨[' ', '_'], []⟩).head.reverse ++ back)
      (Weave.appendRest head rest ⟨[' ', '_'], []⟩).rest := by
  induction rest generalizing head back with
  | nil => simp [Weave.appendRest, Weave.prepend, Spaced, isBlank]
  | cons p rest ih =>
    obtain ⟨hit, after⟩ := p
    rw [Weave.appendRest_cons] at h ⊢
    obtain ⟨hset, hmore⟩ := h
    refine ⟨?_, ih after _ hmore⟩
    cases rest with
    | nil => exact hset.mark hne hblank
    | cons q rest =>
      rw [Weave.appendRest_cons] at hset ⊢
      exact hset

/-! ## Code with its operators and its mark in order -/

/-- Code with its operators set and one space before the mark of continuation. -/
def respaced (code : Text) : Text :=
  spaceContinuation (spaceOperators code)

theorem bare_respaced (code : Text) : bare (respaced code) = bare code := by
  rw [respaced, bare_spaceContinuation, bare_spaceOperators]

theorem beads_respaced (code : Text) : beads (respaced code) = beads code := by
  rw [respaced, beads_spaceContinuation, beads_spaceOperators]

theorem FromTo.respaced {c d : Char} {t : Text} (h : FromTo c d t) (hc : isBlank c = false)
    (hd : isBlank d = false) : FromTo c d (respaced t) :=
  (h.spaceOperators hc hd).spaceContinuation hc

/-- The mark and the blanks before it belong to the last gap between operators. -/
theorem weave_mark (x : Text) {blanks : Text} (hblank : ∀ c ∈ blanks, isBlank c = true) :
    operatorPattern.weave (x ++ (blanks ++ ['_'])) =
      (operatorPattern.weave x).append ⟨blanks ++ ['_'], []⟩ := by
  have hdetached : Detached (blanks ++ ['_']) := by
    intro c hc
    rw [dropBlanks_append hblank] at hc
    obtain rfl : '_' = c := by simpa [isBlank] using hc
    decide
  have hplain : ∀ c ∈ blanks ++ ['_'], isOperator c = false := by
    intro c hc
    rcases List.mem_append.mp hc with hc | hc
    · cases ho : isOperator c with
      | false => rfl
      | true => exact absurd (hblank c hc) (by simp [isBlank_of_isOperator ho])
    · obtain rfl : c = '_' := by simpa using hc
      rfl
  rw [weave_detached x hdetached, weave_plain hplain]

theorem respaced_twice (code : Text) : respaced (respaced code) = respaced code := by
  rcases spaceContinuation_cases (spaceOperators code) with
    heq | ⟨x, blanks, hcode, hne, hblank, hx, heq⟩
  · rw [respaced, respaced, heq, spaceOperators_twice, heq]
  · -- the mark is behind all operators, so the blanks before it are in the last gap
    have hspace : ∀ c ∈ [' '], isBlank c = true := by decide
    have hset : spaceOperators (x ++ [' ', '_']) = x ++ [' ', '_'] := by
      apply spaceOperators_of_spaced
      have hspaced := spaced_spaceOperators code
      rw [← weave_spaceOperators, hcode, weave_mark x hblank] at hspaced
      have hmarked := Spaced.mark hne hblank _ _ [] (by rwa [List.append_nil])
      rw [List.append_nil] at hmarked
      show Spaced (operatorPattern.weave (x ++ ([' '] ++ ['_']))).head.reverse
        (operatorPattern.weave (x ++ ([' '] ++ ['_']))).rest
      rw [weave_mark x hspace]
      exact hmarked
    have hmark : spaceContinuation (x ++ [' ', '_']) = x ++ [' ', '_'] := by
      have hreverse : (x ++ [' ', '_']).reverse = '_' :: ' ' :: x.reverse := by simp
      have hdrop : (' ' :: x.reverse).dropWhile isBlank = x.reverse := hx
      rw [spaceContinuation, hreverse]
      show ((' ' :: x.reverse).dropWhile isBlank).reverse ++ [' ', '_'] = _
      rw [hdrop, List.reverse_reverse]
    rw [respaced, respaced, heq, hset, hmark]

/-! ## The comment at the end of a line -/

/-- The last bead of a text that ends in none of the characters between beads. -/
theorem last_bead {t : Text} {d : Char} (ht : t.getLast? = some d) (hd : isBreak d = false) :
    (beads t).getLast? = some (t.reverse.takeWhile (!isBreak ·)).reverse := by
  obtain ⟨u, rfl⟩ := List.getLast?_eq_some_iff.mp ht
  have hsplit := List.takeWhile_append_dropWhile (p := (!isBreak ·)) (l := (u ++ [d]).reverse)
  have hrun : ∀ c ∈ ((u ++ [d]).reverse.takeWhile (!isBreak ·)).reverse, isBreak c = false := by
    intro c hc
    simpa using List.all_eq_true.mp List.all_takeWhile c (List.mem_reverse.mp hc)
  have hne : ((u ++ [d]).reverse.takeWhile (!isBreak ·)).reverse ≠ [] := by
    rw [List.reverse_concat, List.takeWhile_cons, hd]
    simp
  have hloose : Loose ((u ++ [d]).reverse.dropWhile (!isBreak ·)).reverse
      ((u ++ [d]).reverse.takeWhile (!isBreak ·)).reverse := by
    apply loose_of_last
    rw [List.getLast?_reverse]
    have hhead := List.head?_dropWhile_not (!isBreak ·) (u ++ [d]).reverse
    cases hc : ((u ++ [d]).reverse.dropWhile (!isBreak ·)).head? with
    | none => rfl
    | some c =>
      rw [hc] at hhead
      simpa using hhead
  have hbeads := beads_append hloose
  rw [← List.reverse_append, hsplit, List.reverse_reverse, beads_run hne hrun] at hbeads
  rw [hbeads, List.getLast?_append]
  rfl

/-- A token at the end of code that was spaced stood there before. -/
theorem endsWith_token_respaced {c d : Char} {t : Text} (h : FromTo c d t) (hc : isBlank c = false)
    (hd : isBlank d = false) (hmark : Kind.remark.token <:+ respaced t) :
    Kind.remark.token <:+ t := by
  have hplain : ∀ c ∈ Kind.remark.token.reverse, (!isBreak c) = true := by decide
  have hout := (h.respaced hc hd).2
  -- both texts end with the NUL of the token
  have hnul : d = '\x00' := by
    obtain ⟨x, hx⟩ := hmark
    rw [← hx, List.getLast?_append] at hout
    have hlast : Kind.remark.token.getLast? = some '\x00' := by decide
    rw [hlast] at hout
    exact (Option.some.inj hout).symm
  have hbreak : isBreak d = false := by rw [hnul]; decide
  have hbeads := last_bead hout hbreak
  rw [beads_respaced, last_bead h.2 hbreak, Option.some.injEq, List.reverse_inj] at hbeads
  have htoken : Kind.remark.token.reverse <+: t.reverse.takeWhile (!isBreak ·) := by
    rw [hbeads]
    obtain ⟨x, hx⟩ := hmark
    rw [← hx, List.reverse_append, List.takeWhile_append_of_pos hplain]
    exact List.prefix_append _ _
  have hprefix := htoken.trans (List.takeWhile_prefix _)
  rwa [List.reverse_prefix] at hprefix

/-! ## Lines -/

theorem trim_twice (t : Text) : trim (trim t) = trim t := by
  by_cases h : trim t = []
  · rw [h]
    rfl
  · obtain ⟨c, d, hfrom, hc, hd⟩ := fromTo_trim h
    exact hfrom.trim hc hd

theorem isBlank_of_ink {c : Char} (h : isSpace c = false) : isBlank c = false := by
  cases hb : isBlank c with
  | false => rfl
  | true => rw [isSpace_of_isBlank hb] at h; cases h

section Lines

variable {line : Text}

theorem spaceLine_bare (h : trim line = Kind.remark.token ∨ trim line = []) :
    spaceLine line = trim line := by
  have hbare : (trim line == Kind.remark.token || (trim line).isEmpty) = true := by
    rcases h with h | h <;> simp [h]
  rw [spaceLine]
  simp only [hbare, if_true]

theorem spaceLine_remark {x : Text} (h : trim line = x ++ Kind.remark.token) (hx : x ≠ []) :
    spaceLine line = respaced (trim x) ++ ' ' :: Kind.remark.token := by
  have hbare : (trim line == Kind.remark.token || (trim line).isEmpty) = false := by
    simp [h, hx]
  have hends : endsWith Kind.remark.token (trim line) = true := by
    rw [endsWith, List.isSuffixOf_iff_suffix, h]
    exact List.suffix_append _ _
  have htake : (trim line).take ((trim line).length - Kind.remark.token.length) = x := by
    rw [h, List.length_append, Nat.add_sub_cancel, List.take_left]
  rw [spaceLine]
  simp only [hbare, hends, htake, if_true, if_neg Bool.false_ne_true]
  rfl

theorem spaceLine_code (hne : trim line ≠ []) (h : ¬ Kind.remark.token <:+ trim line) :
    spaceLine line = respaced (trim line) := by
  have hbare : (trim line == Kind.remark.token || (trim line).isEmpty) = false := by
    have htoken : trim line ≠ Kind.remark.token := by
      intro heq
      rw [heq] at h
      exact h (List.suffix_refl _)
    simp [htoken, hne]
  have hends : endsWith Kind.remark.token (trim line) = false := by
    rw [endsWith, Bool.eq_false_iff, ne_eq, List.isSuffixOf_iff_suffix]
    exact h
  rw [spaceLine]
  simp only [hbare, hends, if_neg Bool.false_ne_true, trim_twice]
  rfl

/-- The three kinds of lines: blank or a comment only, code with a comment, code without. -/
theorem line_cases (line : Text) :
    (trim line = Kind.remark.token ∨ trim line = []) ∨
      (∃ x, trim line = x ++ Kind.remark.token ∧ x ≠ []) ∨
        trim line ≠ [] ∧ ¬ Kind.remark.token <:+ trim line := by
  by_cases hnil : trim line = []
  · exact .inl (.inr hnil)
  by_cases hends : Kind.remark.token <:+ trim line
  · obtain ⟨x, hx⟩ := hends
    by_cases hempty : x = []
    · rw [hempty] at hx
      exact .inl (.inl hx.symm)
    · exact .inr (.inl ⟨x, hx.symm, hempty⟩)
  · exact .inr (.inr ⟨hnil, hends⟩)

theorem ink_spaceLine (line : Text) : ink (spaceLine line) = ink line := by
  have hrespaced : ∀ t, ink (respaced t) = ink t := fun t => ink_of_bare (bare_respaced t)
  rcases line_cases line with h | ⟨x, h, hx⟩ | ⟨hne, h⟩
  · rw [spaceLine_bare h, ink_trim]
  · have hspace : ink (' ' :: Kind.remark.token) = ink Kind.remark.token := rfl
    rw [spaceLine_remark h hx, ink_append, hrespaced, ink_trim, hspace, ← ink_append, ← h, ink_trim]
  · rw [spaceLine_code hne h, hrespaced, ink_trim]

/-- The code before a comment starts where its line does. -/
theorem trim_before_remark {x : Text} (h : trim line = x ++ Kind.remark.token) (hx : x ≠ []) :
    trim x ≠ [] := by
  obtain ⟨c, d, hfrom, hc, _⟩ := fromTo_trim (t := line) (by simp [h, hx])
  obtain ⟨e, x, rfl⟩ := List.exists_cons_of_ne_nil hx
  obtain rfl : e = c := by
    have hhead := hfrom.1
    rw [h] at hhead
    simpa using hhead
  intro hnil
  have hink : ink (e :: x) = [] := by rw [← ink_trim, hnil]; rfl
  rw [ink, List.filter_cons_of_pos (by simp [hc])] at hink
  cases hink

/-- A line of spaced code and a comment is cut there again. -/
theorem trim_spaced_remark {c d : Char} {t : Text} (h : FromTo c d t) (hc : isSpace c = false)
    (hd : isSpace d = false) :
    trim (t ++ ' ' :: Kind.remark.token) = t ++ [' '] ++ Kind.remark.token ∧
      trim (t ++ [' ']) = t := by
  obtain ⟨u, hu⟩ := List.head?_eq_some_iff.mp h.1
  constructor
  · have hboth : FromTo c '\x00' (t ++ [' '] ++ Kind.remark.token) := by
      refine ⟨by rw [hu]; rfl, ?_⟩
      rw [List.getLast?_append]
      rfl
    rw [List.append_cons]
    exact hboth.trim hc (by decide)
  · have hspace : ∀ e ∈ [' '], isSpace e = true := by decide
    rw [trim, trimBy, hu, List.cons_append, List.dropWhile_cons, if_neg (by simp [hc]),
      ← List.cons_append, ← hu, dropEnd_append_all hspace, dropEnd_of_last h.2 hd]

/-- White space is put in order once and for all. -/
theorem spaceLine_twice (line : Text) : spaceLine (spaceLine line) = spaceLine line := by
  rcases line_cases line with h | ⟨x, h, hx⟩ | ⟨hne, h⟩
  · rw [spaceLine_bare h, spaceLine_bare (by rwa [trim_twice]), trim_twice]
  · obtain ⟨c, d, hfrom, hc, hd⟩ := fromTo_trim (trim_before_remark h hx)
    have hout := hfrom.respaced (isBlank_of_ink hc) (isBlank_of_ink hd)
    obtain ⟨hline, htrim⟩ := trim_spaced_remark hout hc hd
    rw [spaceLine_remark h hx, spaceLine_remark hline (by simp), htrim, respaced_twice]
  · obtain ⟨c, d, hfrom, hc, hd⟩ := fromTo_trim hne
    have hcblank := isBlank_of_ink hc
    have hdblank := isBlank_of_ink hd
    have hout := hfrom.respaced hcblank hdblank
    have htrim := hout.trim hc hd
    have hne' : trim (respaced (trim line)) ≠ [] := by
      rw [htrim]
      intro hnil
      rw [hnil] at hout
      cases hout.1
    rw [spaceLine_code hne h, spaceLine_code hne', htrim, respaced_twice]
    -- a comment at the end of what comes out would have been cut off before
    rw [htrim]
    exact fun hmark => h (endsWith_token_respaced hfrom hcblank hdblank hmark)

end Lines

/-! ## White space in order -/

/-- A text that is empty or ends with one space. -/
def EndsWithSpace (t : Text) : Prop :=
  t = [] ∨ ∃ u c, t = u ++ [c, ' '] ∧ isBlank c = false

/-- A text that is empty or starts with one space. -/
def StartsWithSpace (t : Text) : Prop :=
  t = [] ∨ ∃ c u, t = ' ' :: c :: u ∧ isBlank c = false

/-- Lines change in their white space only, and code in its blanks only; what comes out is not
changed any more. In it each binary operator has one space before it, unless it starts the text, and
one behind it, unless it ends the text. -/
theorem white_space_in_order :
    (∀ line, ink (spaceLine line) = ink line ∧ spaceLine (spaceLine line) = spaceLine line) ∧
      ∀ code, bare (spaceOperators code) = bare code ∧
        spaceOperators (spaceOperators code) = spaceOperators code ∧
        ∀ head pre hit after post,
          operatorPattern.weave (spaceOperators code) = ⟨head, pre ++ (hit, after) :: post⟩ →
            settingOf (head ++ follow pre).reverse hit after = .binary →
              EndsWithSpace (head ++ follow pre) ∧ StartsWithSpace (after ++ follow post) := by
  refine ⟨fun line => ⟨ink_spaceLine line, spaceLine_twice line⟩, fun code =>
    ⟨bare_spaceOperators code, spaceOperators_twice code, ?_⟩⟩
  intro head pre hit after post hcut hbinary
  have hspaced := spaced_spaceOperators code
  rw [← weave_spaceOperators, hcut] at hspaced
  have hhere := hspaced.behind
  rw [← List.reverse_append] at hhere
  obtain ⟨hleft, hright⟩ := hhere.binary hbinary
  refine ⟨?_, hright⟩
  rcases hleft with hnil | ⟨c, l, hl, hc⟩
  · exact .inl (List.reverse_eq_nil_iff.mp hnil)
  · have hback := congrArg List.reverse hl
    rw [List.reverse_reverse, List.reverse_cons, List.reverse_cons, List.append_assoc] at hback
    exact .inr ⟨l.reverse, c, hback, hc⟩

theorem comparison_with_sign_in_order :
    spaceOperators "a< =-1".toList = "a <= -1".toList ∧
      EndsWithSpace "a ".toList ∧ StartsWithSpace " -1".toList := by
  have hcut : operatorPattern.weave (spaceOperators "a< =-1".toList) =
      ⟨"a ".toList, [] ++ ("<=".toList, " ".toList) :: [("-".toList, "1".toList)]⟩ := by decide
  have hbinary : settingOf ("a ".toList ++ follow []).reverse "<=".toList " ".toList = .binary := by
    decide
  exact ⟨by decide, (white_space_in_order.2 "a< =-1".toList).2.2 _ _ _ _ _ hcut hbinary⟩

end VbTidy
