import VbTidy.Proofs.Operators

/-
Spaced operators. What is set before and behind an operator depends on the text so far, which is
itself a text with its operators set. `settle` cuts the text that comes out at its operators
(`weave_spaceOperators`); in it every operator has the space around it that its setting asks for
(`spaced_settle`), and a text in which every operator has it comes out as it is
(`setOperators_spaced`). So setting operators twice is setting them once, whatever operators stand
next to each other.
-/
namespace VbTidy

/-! ## What is set around an operator -/

namespace Setting

/-- The space behind an operator. -/
def behind : Setting → Text
  | binary => [' ']
  | _ => []

/-- The space between an operator and the last character before it that is no blank. -/
def before : Setting → Option Char → Text
  | binary, some _ => [' ']
  | sign, some c => if c == '(' then [] else [' ']
  | _, _ => []

/-- The text before an operator with the space before it, last character first. -/
def ahead (how : Setting) (back : Text) : Text :=
  if how = exponent then back
  else how.before (back.dropWhile isBlank).head? ++ back.dropWhile isBlank

@[simp] theorem reverse_behind (how : Setting) : how.behind.reverse = how.behind := by
  cases how <;> rfl

theorem blank_behind (how : Setting) : ∀ c ∈ how.behind, isBlank c = true := by
  cases how <;> decide

theorem blank_before (how : Setting) (last : Option Char) :
    ∀ c ∈ how.before last, isBlank c = true := by
  unfold before
  split
  · decide
  · split <;> decide
  · decide

end Setting

theorem setOperator_eq (back op : Text) (how : Setting) :
    setOperator back op how = how.behind ++ (op ++ how.ahead back) := by
  cases how with
  | exponent => rfl
  | sign =>
    unfold setOperator Setting.behind Setting.ahead Setting.before
    cases back.dropWhile isBlank with
    | nil => simp
    | cons c bare => by_cases hc : c = '(' <;> simp [hc]
  | binary =>
    unfold setOperator Setting.behind Setting.ahead Setting.before
    cases back.dropWhile isBlank <;> simp

theorem dropBlanks_append {blanks : Text} (h : ∀ c ∈ blanks, isBlank c = true) (t : Text) :
    (blanks ++ t).dropWhile isBlank = t.dropWhile isBlank :=
  List.dropWhile_append_of_pos h

theorem dropBlanks_front {front : Text} (h : front.dropWhile isBlank = front) (gap : Text) :
    (gap ++ front).dropWhile isBlank = gap.dropWhile isBlank ++ front := by
  rw [List.dropWhile_append, h]
  split
  · rename_i hgap
    rw [List.isEmpty_iff.mp hgap, List.nil_append]
  · rfl

@[simp] theorem dropBlanks_twice (t : Text) :
    (t.dropWhile isBlank).dropWhile isBlank = t.dropWhile isBlank := by
  cases h : t.dropWhile isBlank with
  | nil => rfl
  | cons c rest => exact dropBlanks_plain (head_dropBlanks h) rest

/-- The space before an operator does not count for what is set next to it. -/
theorem Setting.dropBlanks_ahead (how : Setting) (back : Text) :
    (how.ahead back).dropWhile isBlank = back.dropWhile isBlank := by
  rw [ahead]
  split
  · rfl
  · rw [dropBlanks_append (how.blank_before _), dropBlanks_twice]

theorem Setting.ahead_ahead (how : Setting) (back : Text) :
    how.ahead (how.ahead back) = how.ahead back := by
  by_cases h : how = exponent
  · rw [ahead, if_pos h]
  · rw [ahead, how.dropBlanks_ahead, if_neg h, ahead, if_neg h]

theorem Setting.suffix_ahead (how : Setting) (back : Text) :
    back.dropWhile isBlank <:+ how.ahead back := by
  rw [ahead]
  split
  · exact List.dropWhile_suffix isBlank
  · exact List.suffix_append _ _

/-! ## The cut of a text with its operators set -/

/-- The gap before an operator with the space that is set there, last character first. Before the
gap stands `front`. -/
def Setting.lead (how : Setting) (front gap : Text) : Text :=
  if how = exponent then gap
  else how.before ((gap ++ front).dropWhile isBlank).head? ++ gap.dropWhile isBlank

theorem Setting.lead_append {front : Text} (h : front.dropWhile isBlank = front) (how : Setting)
    (gap : Text) : how.lead front gap ++ front = how.ahead (gap ++ front) := by
  rw [lead, ahead, dropBlanks_front h]
  split
  · rfl
  · rw [List.append_assoc]

theorem Setting.bare_lead (how : Setting) (front gap : Text) :
    bare (how.lead front gap) = bare gap := by
  rw [lead]
  split
  · rfl
  · rw [bare_append, bare_of_blanks (how.blank_before _), bare_dropWhile, List.nil_append]

theorem Setting.dropBlanks_lead (how : Setting) (front gap : Text) :
    (how.lead front gap).dropWhile isBlank = gap.dropWhile isBlank := by
  rw [lead]
  split
  · rfl
  · rw [dropBlanks_append (how.blank_before _), dropBlanks_twice]

/-- The cut of the text that comes out when operators are set. Of the text so far, given last
character first, `gap` is what stands behind the last operator. -/
def settle (front gap : Text) : List (Text × Text) → Weave
  | [] => ⟨(gap.dropWhile isBlank).reverse, []⟩
  | (hit, after) :: more =>
    let how := settingOf (gap ++ front) (bare hit) after
    let lead := how.lead front gap
    let tail := settle ((bare hit).reverse ++ (lead ++ front))
      ((after.dropWhile isBlank).reverse ++ how.behind) more
    (tail.pushHit (bare hit)).prepend lead.reverse

theorem Edged.bare {t : Text} (h : Edged t) : Edged (bare t) := by
  obtain ⟨⟨c, hc, hfirst⟩, d, hd, hlast⟩ := h
  constructor
  · obtain ⟨u, rfl⟩ := List.head?_eq_some_iff.mp hc
    exact ⟨c, by rw [bare_plain (isBlank_of_isOperator hfirst)]; rfl, hfirst⟩
  · obtain ⟨u, rfl⟩ := List.getLast?_eq_some_iff.mp hd
    refine ⟨d, ?_, hlast⟩
    rw [bare_append, bare_plain (isBlank_of_isOperator hlast), bare_nil, List.getLast?_append]
    rfl

theorem Edged.reverse_eq {t : Text} (h : Edged t) :
    ∃ d u, t.reverse = d :: u ∧ isOperator d = true := by
  obtain ⟨_, d, hd, hlast⟩ := h
  obtain ⟨v, rfl⟩ := List.getLast?_eq_some_iff.mp hd
  exact ⟨d, v.reverse, List.reverse_concat .., hlast⟩

theorem Edged.dropBlanks_reverse {t : Text} (h : Edged t) (u : Text) :
    (t.reverse ++ u).dropWhile isBlank = t.reverse ++ u := by
  obtain ⟨d, v, hd, hlast⟩ := h.reverse_eq
  rw [hd, List.cons_append, dropBlanks_plain (isBlank_of_isOperator hlast)]

theorem source_settle (gap : Text) {front : Text} {rest : List (Text × Text)}
    (hfront : front.dropWhile isBlank = front) (hrest : ∀ p ∈ rest, Edged p.1) :
    (settle front gap rest).source.reverse ++ front =
      (setOperators (gap ++ front) rest).dropWhile isBlank := by
  induction rest generalizing front gap with
  | nil =>
    rw [setOperators, dropBlanks_front hfront]
    simp [settle, Weave.source]
  | cons p rest ih =>
    obtain ⟨hit, after⟩ := p
    have hedged : Edged (bare hit) := (hrest _ List.mem_cons_self).bare
    have hsource : ∀ (x y : Text) (w : Weave),
        ((w.pushHit y).prepend x).source = x ++ (y ++ w.source) := by
      intro x y w
      simp [Weave.source, Weave.prepend, Weave.pushHit]
    rw [settle, setOperators]
    simp only [hsource, List.reverse_append, List.reverse_reverse, List.append_assoc]
    rw [ih _ (hedged.dropBlanks_reverse _) fun q hq => hrest q (List.mem_cons_of_mem _ hq),
      Setting.lead_append hfront, setOperator_eq]
    simp only [List.append_assoc]
    rfl

/-- What is set stays as it is, blanks at its end apart. -/
theorem suffix_setOperators (back : Text) {rest : List (Text × Text)}
    (hrest : ∀ p ∈ rest, Edged p.1) : back.dropWhile isBlank <:+ setOperators back rest := by
  induction rest generalizing back with
  | nil => exact List.dropWhile_suffix isBlank
  | cons p rest ih =>
    obtain ⟨hit, after⟩ := p
    have hedged : Edged (bare hit) := (hrest _ List.mem_cons_self).bare
    have hmore := ih ((after.dropWhile isBlank).reverse ++
      setOperator back (bare hit).reverse (settingOf back (bare hit) after))
      fun q hq => hrest q (List.mem_cons_of_mem _ hq)
    refine List.IsSuffix.trans ?_ hmore
    rw [setOperator_eq, ← List.append_assoc, dropBlanks_front (hedged.dropBlanks_reverse _)]
    exact ((Setting.suffix_ahead _ back).trans (List.suffix_append _ _)).trans
      (List.suffix_append _ _)

theorem bare_settle (front gap : Text) (rest : List (Text × Text)) :
    (settle front gap rest).bare = (Weave.mk gap.reverse rest).bare := by
  induction rest generalizing front gap with
  | nil => simp [settle, Weave.bare]
  | cons p rest ih =>
    obtain ⟨hit, after⟩ := p
    have hcons : ∀ (x y : Text) (w : Weave),
        ((w.pushHit y).prepend x).bare = (w.bare.pushHit (bare y)).prepend (bare x) := by
      intro x y w
      simp [Weave.bare, Weave.prepend, Weave.pushHit]
    rw [settle]
    simp only [hcons]
    rw [ih, bare_reverse, Setting.bare_lead, bare_bare]
    simp [Weave.bare, Weave.prepend, Weave.pushHit, bare_of_blanks (Setting.blank_behind _)]

theorem edged_settle {front gap : Text} {rest : List (Text × Text)}
    (hrest : ∀ p ∈ rest, Edged p.1) : ∀ p ∈ (settle front gap rest).rest, Edged p.1 := by
  induction rest generalizing front gap with
  | nil => intro p hp; cases hp
  | cons p rest ih =>
    obtain ⟨hit, after⟩ := p
    intro q hq
    rcases List.mem_cons.mp hq with rfl | hq
    · exact (hrest _ List.mem_cons_self).bare
    · exact ih (fun q hq => hrest q (List.mem_cons_of_mem _ hq)) q hq

/-- The cut of code with its operators set. -/
def settled (code : Text) : Weave :=
  settle [] (operatorPattern.weave code).head.reverse (operatorPattern.weave code).rest

theorem spaceOperators_eq (code : Text) : spaceOperators code = (settled code).source := by
  have hsource := source_settle (operatorPattern.weave code).head.reverse List.dropWhile_nil
    (edged_hits code)
  rw [List.append_nil, List.append_nil] at hsource
  rw [spaceOperators, ← hsource, List.reverse_reverse]
  rfl

/-- Setting operators moves blanks only. -/
theorem bare_spaceOperators (code : Text) : bare (spaceOperators code) = bare code := by
  have hsource : (operatorPattern.weave code).source = code :=
    Pattern.source_weave operatorPattern code
  rw [spaceOperators_eq, ← Weave.bare_source, settled, bare_settle, List.reverse_reverse]
  exact (Weave.bare_source _).trans (congrArg bare hsource)

/-- The operators of a text with its operators set are those that were set. -/
theorem weave_spaceOperators (code : Text) :
    operatorPattern.weave (spaceOperators code) = settled code := by
  have hbare := bare_spaceOperators code
  rw [spaceOperators_eq] at hbare ⊢
  apply weave_of_bare hbare
  · rw [settled, bare_settle, List.reverse_reverse]
  · exact edged_settle (edged_hits code)

/-! ## Settings of a text with its operators set -/

theorem endsWithExponent_cons {c : Char} (h : c ∉ ['e', 'E', '\n']) (t : Text) :
    endsWithExponent (c :: t) = false := by
  simp only [List.mem_cons, List.not_mem_nil, or_false, not_or] at h
  obtain ⟨he, hE, hn⟩ := h
  have hskip : skipFinalNewline (c :: t) = c :: t := by
    unfold skipFinalNewline
    split
    · simp_all
    · rfl
  rw [endsWithExponent, hskip]
  simp [he, hE]

theorem endsWithExponent_blank {c : Char} (hc : isBlank c = true) (t : Text) :
    endsWithExponent (c :: t) = false := by
  rcases blank_cases hc with rfl | rfl <;> exact endsWithExponent_cons (by decide) t

/-- Where a number is followed by the sign of its exponent no blank stands between them. -/
theorem dropBlanks_of_exponent {back : Text} (h : endsWithExponent back = true) :
    back.dropWhile isBlank = back := by
  cases back with
  | nil => rfl
  | cons c t =>
    cases hc : isBlank c with
    | true => rw [endsWithExponent_blank hc] at h; cases h
    | false => exact dropBlanks_plain hc t

theorem Setting.endsWithExponent_ahead {how : Setting} (h : how ≠ exponent) (back : Text) :
    endsWithExponent (how.ahead back) = false := by
  rw [ahead, if_neg h]
  cases back.dropWhile isBlank with
  | nil => cases how <;> rfl
  | cons c t =>
    cases how with
    | exponent => exact absurd rfl h
    | binary => exact endsWithExponent_cons (by decide) _
    | sign =>
      by_cases hc : c = '('
      · rw [hc]
        exact endsWithExponent_cons (by decide) t
      · rw [List.head?_cons, before, if_neg (by simpa using hc)]
        exact endsWithExponent_cons (by decide) _

/-- The digits behind the letter of a hexadecimal or octal number. -/
def radixDigit (c : Char) : Char → Bool :=
  if c == 'h' || c == 'H' then startsRadix.isHexDigit
  else if c == 'o' || c == 'O' then startsRadix.isOctalDigit
  else fun _ => false

theorem startsRadix_cons (c : Char) (t : Text) :
    startsRadix (c :: t) =
      (t.head?.any (radixDigit c) && !wordAt (t.dropWhile (radixDigit c)).head?) := rfl

theorem radixDigit_blank (c : Char) {d : Char} (hd : isBlank d = true) :
    radixDigit c d = false := by
  have key : ∀ d ∈ [' ', '\t'],
      startsRadix.isHexDigit d = false ∧ startsRadix.isOctalDigit d = false := by
    decide
  obtain ⟨hhex, hoctal⟩ := key d (by simpa using blank_cases hd)
  unfold radixDigit
  split
  · exact hhex
  · split
    · exact hoctal
    · rfl

theorem startsRadix_blank {c : Char} (hc : isBlank c = true) (t : Text) :
    startsRadix (c :: t) = false := by
  have hnone : radixDigit c = fun _ => false := by
    rcases blank_cases hc with rfl | rfl <;> rfl
  rw [startsRadix_cons, hnone]
  cases t <;> rfl

/-- What follows a number behind a blank does not count. -/
theorem startsRadix_append {s : Text} (hs : ∀ c ∈ s.head?, isBlank c = true) (t : Text) :
    startsRadix (t ++ s) = startsRadix t := by
  cases s with
  | nil => rw [List.append_nil]
  | cons b s =>
    have hb := hs b rfl
    cases t with
    | nil => exact startsRadix_blank hb s
    | cons c t =>
      have hdigit := radixDigit_blank c hb
      have hword : wordAt (some b) = false := by
        rcases blank_cases hb with rfl | rfl <;> rfl
      rw [List.cons_append, startsRadix_cons, startsRadix_cons, List.dropWhile_append]
      congr 1
      · cases t with
        | nil => exact hdigit
        | cons d t => rfl
      · congr 1
        cases hdrop : t.dropWhile (radixDigit c) with
        | nil =>
          rw [List.isEmpty_nil, if_pos rfl, List.dropWhile_cons, if_neg (by simp [hdigit])]
          exact hword
        | cons d u => rfl

theorem startsRadix_of_dropEnd {t u : Text} (h : dropEnd isBlank t = dropEnd isBlank u) :
    startsRadix t = startsRadix u := by
  obtain ⟨s, hs, hblank⟩ := dropEnd_append isBlank t
  obtain ⟨s', hs', hblank'⟩ := dropEnd_append isBlank u
  rw [hs, hs', startsRadix_append fun c hc => hblank c (List.mem_of_head? hc),
    startsRadix_append fun c hc => hblank' c (List.mem_of_head? hc), h]

/-- Plus and minus signs. -/
def isPlusOrMinus (op : Text) : Bool :=
  op == ['+'] || op == ['-']

theorem settingOf_eq (back op after : Text) :
    settingOf back op after =
      if isPlusOrMinus op && endsWithExponent back then .exponent
      else if op == ['&'] && startsRadix after then .sign
      else if isPlusOrMinus op && takesSign (back.dropWhile isBlank) then .sign
      else .binary := rfl

/-- What a setting depends on. -/
theorem settingOf_congr {back back' op after after' : Text}
    (hback : back.dropWhile isBlank = back'.dropWhile isBlank)
    (hexponent : isPlusOrMinus op = true → endsWithExponent back = endsWithExponent back')
    (hradix : op = ['&'] → startsRadix after = startsRadix after') :
    settingOf back op after = settingOf back' op after' := by
  have hnumber : (isPlusOrMinus op && endsWithExponent back) =
      (isPlusOrMinus op && endsWithExponent back') := by
    cases hop : isPlusOrMinus op with
    | false => rfl
    | true => rw [hexponent hop]
  have hprefix : (op == ['&'] && startsRadix after) = (op == ['&'] && startsRadix after') := by
    by_cases hop : op = ['&']
    · rw [hradix hop]
    · rw [beq_eq_false_iff_ne.mpr hop, Bool.false_and, Bool.false_and]
  rw [settingOf_eq, settingOf_eq, hnumber, hprefix, hback]

theorem settingOf_exponent {back op after : Text} :
    settingOf back op after = .exponent ↔
      isPlusOrMinus op = true ∧ endsWithExponent back = true := by
  rw [settingOf_eq]
  split
  · rename_i h
    simpa using h
  · rename_i h
    refine ⟨fun he => ?_, fun he => absurd (by rw [he.1, he.2]; rfl) h⟩
    split at he
    · cases he
    · split at he <;> cases he

theorem settingOf_ampersand (back after : Text) :
    settingOf back ['&'] after = if startsRadix after then .sign else .binary := by
  cases h : startsRadix after <;> simp [settingOf, h]

/-! ## Texts with their operators set -/

/-- An operator with the space around it that its setting asks for: one space or none before it, and
behind it what is set there unless only blanks follow. -/
structure SetAs (back hit after : Text) : Prop where
  solid : bare hit = hit
  edged : Edged hit
  ahead : (settingOf back hit after).ahead back = back
  behind : after.dropWhile isBlank = [] ∨
    after = (settingOf back hit after).behind ++ after.dropWhile isBlank

/-- A text, cut at its operators, in which each has the space around it that its setting asks for
and no blanks stand at the end. Before the first operator stands `back`, last character first. -/
def Spaced (back : Text) : List (Text × Text) → Prop
  | [] => back.dropWhile isBlank = back
  | (hit, after) :: more =>
    SetAs back hit after ∧ Spaced (after.reverse ++ (hit.reverse ++ back)) more

theorem dropEnd_head_settle (front gap : Text) (rest : List (Text × Text)) :
    dropEnd isBlank (settle front gap rest).head = dropEnd isBlank gap.reverse := by
  have hhead : (settle front gap rest).head.reverse.dropWhile isBlank = gap.dropWhile isBlank := by
    cases rest with
    | nil => simp [settle]
    | cons p rest =>
      have hlead := (settingOf (gap ++ front) (bare p.1) p.2).dropBlanks_lead front gap
      simpa [settle, Weave.prepend, Weave.pushHit] using hlead
  rw [dropEnd, dropEnd, hhead, List.reverse_reverse]

/-- Around an operator that is set what decides on its setting is as it was. -/
theorem settingOf_settled {back op after after' : Text}
    (hafter : dropEnd isBlank after' = dropEnd isBlank
      ((settingOf back op after).behind ++ after.dropWhile isBlank)) :
    settingOf ((settingOf back op after).ahead back) op after' = settingOf back op after := by
  apply settingOf_congr
  · exact Setting.dropBlanks_ahead _ back
  · intro hop
    by_cases hnumber : settingOf back op after = .exponent
    · rw [hnumber]
      rfl
    · rw [Setting.endsWithExponent_ahead hnumber]
      cases hback : endsWithExponent back with
      | false => rfl
      | true => exact absurd (settingOf_exponent.mpr ⟨hop, hback⟩) hnumber
  · rintro rfl
    rw [startsRadix_of_dropEnd hafter, settingOf_ampersand]
    cases hradix : startsRadix after with
    | false => exact startsRadix_blank rfl _
    | true =>
      cases after with
      | nil => cases hradix
      | cons c after =>
        have hc : isBlank c = false := by
          cases hc : isBlank c with
          | false => rfl
          | true => rw [startsRadix_blank hc] at hradix; cases hradix
        rw [if_pos rfl, dropBlanks_plain hc]
        exact hradix

/-- Behind an operator stands the space of its setting, unless only blanks follow. -/
theorem behind_of_dropEnd {how : Setting} {after t : Text}
    (h : dropEnd isBlank t = dropEnd isBlank (how.behind ++ after.dropWhile isBlank)) :
    t.dropWhile isBlank = [] ∨ t = how.behind ++ t.dropWhile isBlank := by
  obtain ⟨s, hs, hblank⟩ := dropEnd_append isBlank t
  cases hcore : after.dropWhile isBlank with
  | nil =>
    left
    have hall : dropEnd isBlank (how.behind ++ []) = [] := by
      rw [List.append_nil]
      exact dropEnd_append_all (t := []) how.blank_behind
    rw [hs, h, hcore, hall, List.nil_append, ← List.append_nil s, dropBlanks_append hblank]
    rfl
  | cons c core =>
    right
    have hc := head_dropBlanks hcore
    rw [h, hcore, dropEnd_cut hc, List.append_assoc] at hs
    have hdrop : t.dropWhile isBlank = c :: (dropEnd isBlank core ++ s) := by
      rw [hs, dropBlanks_append how.blank_behind, List.cons_append, dropBlanks_plain hc]
    rw [hdrop]
    exact hs

/-- The text that comes out has its operators set. -/
theorem spaced_settle (gap : Text) {front : Text} {rest : List (Text × Text)}
    (hfront : front.dropWhile isBlank = front) (hrest : ∀ p ∈ rest, Edged p.1) :
    Spaced ((settle front gap rest).head.reverse ++ front) (settle front gap rest).rest := by
  induction rest generalizing front gap with
  | nil =>
    show (_ : Text).dropWhile isBlank = _
    simp only [settle, List.reverse_reverse]
    rw [dropBlanks_front hfront, dropBlanks_twice]
  | cons p rest ih =>
    obtain ⟨hit, after⟩ := p
    have hedged : Edged (bare hit) := (hrest _ List.mem_cons_self).bare
    have hmore := ih ((after.dropWhile isBlank).reverse ++
      (settingOf (gap ++ front) (bare hit) after).behind)
      (hedged.dropBlanks_reverse ((settingOf (gap ++ front) (bare hit) after).ahead (gap ++ front)))
      fun q hq => hrest q (List.mem_cons_of_mem _ hq)
    rw [settle]
    simp only [Weave.prepend, Weave.pushHit, List.append_nil, List.reverse_reverse,
      Setting.lead_append hfront]
    generalize hhow : settingOf (gap ++ front) (bare hit) after = how at hmore ⊢
    generalize htail : settle ((bare hit).reverse ++ how.ahead (gap ++ front))
      ((after.dropWhile isBlank).reverse ++ how.behind) rest = tail at hmore ⊢
    -- blanks at its end apart, the gap behind the operator is settled
    have hend : dropEnd isBlank tail.head =
        dropEnd isBlank (how.behind ++ after.dropWhile isBlank) := by
      rw [← htail, dropEnd_head_settle, List.reverse_append, List.reverse_reverse,
        Setting.reverse_behind]
    have hset : settingOf (how.ahead (gap ++ front)) (bare hit) tail.head = how := by
      subst hhow
      exact settingOf_settled hend
    refine ⟨⟨bare_bare hit, hedged, ?_, ?_⟩, hmore⟩
    · rw [hset, Setting.ahead_ahead]
    · rw [hset]
      exact behind_of_dropEnd hend

/-! ## Setting operators again -/

/-- The text before an operator, up to blanks that do not count for its setting. -/
def SetAlike (back back' : Text) : Prop :=
  back.dropWhile isBlank = back'.dropWhile isBlank ∧
    endsWithExponent back = endsWithExponent back'

theorem SetAlike.ahead {back back' op after : Text} (h : SetAlike back back') :
    (settingOf back op after).ahead back = (settingOf back op after).ahead back' := by
  by_cases hnumber : settingOf back op after = .exponent
  · have hend := (settingOf_exponent.mp hnumber).2
    rw [← dropBlanks_of_exponent hend, h.1, dropBlanks_of_exponent (h.2 ▸ hend)]
  · rw [Setting.ahead, if_neg hnumber, h.1, Setting.ahead, if_neg hnumber]

theorem Edged.no_exponent {hit : Text} (h : Edged hit) {blanks : Text}
    (hb : ∀ c ∈ blanks, isBlank c = true) (t : Text) :
    endsWithExponent (blanks ++ (hit.reverse ++ t)) = false := by
  cases blanks with
  | cons b blanks => exact endsWithExponent_blank (hb b List.mem_cons_self) _
  | nil =>
    obtain ⟨d, u, hd, hlast⟩ := h.reverse_eq
    rw [hd]
    apply endsWithExponent_cons
    simp only [isOperator, List.contains_iff_mem] at hlast
    have key : ∀ d ∈ ['<', '>', '=', '!', '&', '+', '-'], d ∉ ['e', 'E', '\n'] := by decide
    exact key d hlast

theorem Edged.setAlike {hit : Text} (h : Edged hit) {blanks blanks' : Text}
    (hb : ∀ c ∈ blanks, isBlank c = true) (hb' : ∀ c ∈ blanks', isBlank c = true) (t : Text) :
    SetAlike (blanks ++ (hit.reverse ++ t)) (blanks' ++ (hit.reverse ++ t)) :=
  ⟨by rw [dropBlanks_append hb, dropBlanks_append hb'],
    by rw [h.no_exponent hb, h.no_exponent hb']⟩

theorem blanks_of_dropBlanks {t : Text} (h : t.dropWhile isBlank = []) :
    ∀ c ∈ t, isBlank c = true :=
  blanks_of_bare (by rw [← bare_dropWhile, h, bare_nil])

/-- Operators that are set are left as they are. -/
theorem setOperators_spaced {back back' : Text} {rest : List (Text × Text)}
    (hspaced : Spaced back' rest) (halike : SetAlike back back') :
    (setOperators back rest).dropWhile isBlank =
      (rest.flatMap fun p => p.1 ++ p.2).reverse ++ back' := by
  induction rest generalizing back back' with
  | nil => exact halike.1.trans hspaced
  | cons p rest ih =>
    obtain ⟨hit, after⟩ := p
    obtain ⟨⟨hsolid, hedged, hahead, hbehind⟩, hmore⟩ := hspaced
    have hset : settingOf back hit after = settingOf back' hit after :=
      settingOf_congr halike.1 (fun _ => halike.2) fun _ => rfl
    have hback : (settingOf back hit after).ahead back = back' := by
      rw [halike.ahead, hset, hahead]
    have hnext : SetAlike ((after.dropWhile isBlank).reverse ++
        ((settingOf back hit after).behind ++ (hit.reverse ++ back')))
        (after.reverse ++ (hit.reverse ++ back')) := by
      rcases hbehind with hblank | hafter
      · -- only blanks follow, and they do not count
        have hall : ∀ c ∈ after.reverse, isBlank c = true := fun c hc =>
          blanks_of_dropBlanks hblank c (List.mem_reverse.mp hc)
        rw [hblank]
        exact hedged.setAlike (Setting.blank_behind _) hall back'
      · have hreverse := congrArg List.reverse hafter
        rw [List.reverse_append, Setting.reverse_behind, ← hset] at hreverse
        rw [hreverse, List.append_assoc]
        exact ⟨rfl, rfl⟩
    have hcons : setOperators back ((hit, after) :: rest) =
        setOperators ((after.dropWhile isBlank).reverse ++
          ((settingOf back hit after).behind ++ (hit.reverse ++ back'))) rest := by
      rw [setOperators]
      show setOperators (_ ++ setOperator back (bare hit).reverse (settingOf back (bare hit) after))
        rest = _
      rw [hsolid, setOperator_eq, hback]
    rw [hcons, ih hmore hnext]
    simp

theorem spaced_spaceOperators (code : Text) :
    Spaced (settled code).head.reverse (settled code).rest := by
  have hspaced := spaced_settle (operatorPattern.weave code).head.reverse List.dropWhile_nil
    (edged_hits code)
  rwa [List.append_nil] at hspaced

/-- Code in which each operator has its space is left as it is. -/
theorem spaceOperators_of_spaced {code : Text}
    (h : Spaced (operatorPattern.weave code).head.reverse (operatorPattern.weave code).rest) :
    spaceOperators code = code := by
  have hsource : (operatorPattern.weave code).source = code :=
    Pattern.source_weave operatorPattern code
  rw [spaceOperators, setOperators_spaced h ⟨rfl, rfl⟩, List.reverse_append, List.reverse_reverse,
    List.reverse_reverse]
  exact hsource

/-- Setting operators twice is setting them once. -/
theorem spaceOperators_twice (code : Text) :
    spaceOperators (spaceOperators code) = spaceOperators code := by
  apply spaceOperators_of_spaced
  rw [weave_spaceOperators]
  exact spaced_spaceOperators code

/-! ## One space on each side -/

/-- The text of matches with what follows each. -/
def follow (rest : List (Text × Text)) : Text :=
  rest.flatMap fun p => p.1 ++ p.2

/-- The operators behind a place have their space too. -/
theorem Spaced.behind {back : Text} {pre post : List (Text × Text)}
    (h : Spaced back (pre ++ post)) : Spaced ((follow pre).reverse ++ back) post := by
  induction pre generalizing back with
  | nil => exact h
  | cons p pre ih =>
    obtain ⟨hit, after⟩ := p
    have hmore := ih h.2
    rw [follow] at hmore ⊢
    rw [List.flatMap_cons, List.reverse_append, List.reverse_append, List.append_assoc,
      List.append_assoc]
    exact hmore

/-- Where only blanks stand between two operators they are one space, and none stand at the end. -/
theorem Spaced.gap {back hit after : Text} {post : List (Text × Text)} (hedged : Edged hit)
    (h : Spaced (after.reverse ++ (hit.reverse ++ back)) post)
    (hblank : after.dropWhile isBlank = []) :
    (after = [] ∧ post = []) ∨ (after = [' '] ∧ post ≠ []) := by
  have hall : ∀ c ∈ after.reverse, isBlank c = true := fun c hc =>
    blanks_of_dropBlanks hblank c (List.mem_reverse.mp hc)
  have hdrop : (after.reverse ++ (hit.reverse ++ back)).dropWhile isBlank =
      hit.reverse ++ back := by
    rw [dropBlanks_append hall, hedged.dropBlanks_reverse]
  cases post with
  | nil =>
    have hend : (after.reverse ++ (hit.reverse ++ back)).dropWhile isBlank = _ := h
    rw [hdrop, List.self_eq_append_left] at hend
    exact .inl ⟨List.reverse_eq_nil_iff.mp hend, rfl⟩
  | cons p post =>
    right
    obtain ⟨⟨_, _, hahead, _⟩, _⟩ := h
    generalize hhow : settingOf (after.reverse ++ (hit.reverse ++ back)) p.1 p.2 = how at hahead
    have hne : how ≠ .exponent := by
      rintro rfl
      have hnumber := (settingOf_exponent.mp hhow).2
      rw [hedged.no_exponent hall] at hnumber
      cases hnumber
    -- an operator is no bracket, so a space stands behind it
    have hspace : how.before (hit.reverse ++ back).head? = [' '] := by
      obtain ⟨d, u, hd, hoperator⟩ := hedged.reverse_eq
      have hbracket : d ≠ '(' := by
        rintro rfl
        cases hoperator
      rw [hd, List.cons_append, List.head?_cons]
      cases how with
      | exponent => exact absurd rfl hne
      | sign => rw [Setting.before, if_neg (by simpa using hbracket)]
      | binary => rfl
    rw [Setting.ahead, if_neg hne, hdrop, hspace] at hahead
    have hafter := List.append_cancel_right hahead
    exact ⟨List.reverse_inj.mp hafter.symm, List.cons_ne_nil p post⟩

/-- A binary operator in a text with its operators set has one space on each side, unless it starts
or ends the text. -/
theorem Spaced.binary {back hit after : Text} {post : List (Text × Text)}
    (h : Spaced back ((hit, after) :: post)) (hbinary : settingOf back hit after = .binary) :
    (back = [] ∨ ∃ c l, back = ' ' :: c :: l ∧ isBlank c = false) ∧
      (after ++ follow post = [] ∨
        ∃ c r, after ++ follow post = ' ' :: c :: r ∧ isBlank c = false) := by
  obtain ⟨⟨_, hedged, hahead, hbehind⟩, hmore⟩ := h
  rw [hbinary] at hahead hbehind
  constructor
  · rw [Setting.ahead, if_neg (by decide)] at hahead
    cases hb : back.dropWhile isBlank with
    | nil =>
      rw [hb] at hahead
      exact .inl hahead.symm
    | cons c l =>
      rw [hb] at hahead
      exact .inr ⟨c, l, hahead.symm, head_dropBlanks hb⟩
  · cases hcore : after.dropWhile isBlank with
    | nil =>
      rcases Spaced.gap hedged hmore hcore with ⟨rfl, rfl⟩ | ⟨rfl, hpost⟩
      · exact .inl rfl
      · obtain ⟨p, post, rfl⟩ := List.exists_cons_of_ne_nil hpost
        obtain ⟨⟨c, hc, hoperator⟩, _⟩ := hmore.1.edged
        obtain ⟨r, hr⟩ := List.head?_eq_some_iff.mp hc
        refine .inr ⟨c, r ++ p.2 ++ follow post, ?_, isBlank_of_isOperator hoperator⟩
        simp [follow, hr]
    | cons c r =>
      rw [hcore] at hbehind
      obtain hnil | hafter := hbehind
      · cases hnil
      · refine .inr ⟨c, r ++ follow post, ?_, head_dropBlanks hcore⟩
        rw [hafter]
        rfl

end VbTidy
