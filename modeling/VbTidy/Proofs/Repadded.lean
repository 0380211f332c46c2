import Mathlib.Data.List.Infix
import VbTidy.Proofs.Recovered
import VbTidy.Proofs.Runs
import VbTidy.Proofs.Unfenced

/-
Markup cut out and put back. `Document` says what a document is made of, without a search: code and
runs of markup in turn, each run from one delimiter to the next. A cut of that form is the only one
(`Document.cut`), and the cut that is made has it (`document_cutMarkup`). Putting the markup back
changes blanks at the ends of the pieces of code and nothing else (`PaddedCode`), so no delimiter
comes or goes, the result is cut at the same runs of markup, and putting these back changes nothing
any more (`repad_settled`).
-/
namespace VbTidy

/-! ## Documents -/

/-- A cut of a text that starts with code: no code has a closing delimiter in it, a run of markup
starts with one and goes on to the first opening delimiter, and what follows that is code again. -/
inductive CutUp : Weave → Prop
  | code {g : Text} (hg : ¬ ['%', '>'] <:+: g) : CutUp ⟨g, []⟩
  | tail {g m : Text} (hg : ¬ ['%', '>'] <:+: g) (hm : ¬ ['<', '%'] <:+: m) :
      CutUp ⟨g, [('%' :: '>' :: m, [])]⟩
  | host {g m : Text} {w : Weave} (hg : ¬ ['%', '>'] <:+: g) (hm : ¬ ['<', '%'] <:+: m)
      (hw : CutUp w) : CutUp ⟨g, ('%' :: '>' :: (m ++ ['<', '%']), w.head) :: w.rest⟩

/-- A cut of a whole document. It is a script without delimiters, or it starts with markup up to the
first opening delimiter, or it starts with code up to the first closing one. -/
inductive Document : Weave → Prop
  | script {g : Text} (hopen : ¬ ['<', '%'] <:+: g) (hclose : ¬ ['%', '>'] <:+: g) :
      Document ⟨g, []⟩
  | head {m : Text} {w : Weave} (hopen : ¬ ['<', '%'] <:+: m) (hclose : ¬ ['%', '>'] <:+: m)
      (hw : CutUp w) : Document (w.pushHit (m ++ ['<', '%']))
  | code {w : Weave} (hw : CutUp w) (hne : w.rest ≠ [])
      (hopen : ¬ ['<', '%'] <:+: w.head ++ ['%']) : Document w

/-! ## Two characters in a text -/

section
variable {a b c : Char} {t : Text}

theorem not_pair_cons : ¬ [a, b] <:+: c :: t ↔
    (∀ u, c = a → t = b :: u → False) ∧ ¬ [a, b] <:+: t := by
  rw [List.infix_cons_iff, not_or]
  refine and_congr_left fun _ => ⟨?_, ?_⟩
  · rintro h u rfl rfl
    exact h (List.prefix_append [c, b] u)
  · rintro h ⟨u, hu⟩
    obtain ⟨rfl, rfl⟩ := List.cons.inj hu
    exact h u rfl rfl

theorem not_pair_concat (hc : c ≠ b) (h : ¬ [a, b] <:+: t) : ¬ [a, b] <:+: t ++ [c] := by
  induction t with
  | nil => simp [not_pair_cons]
  | cons d t ih =>
    rw [List.cons_append, not_pair_cons]
    rw [not_pair_cons] at h
    refine ⟨?_, ih h.2⟩
    rintro u rfl hu
    cases t with
    | nil => exact hc (List.cons.inj hu).1
    | cons e t => exact h.1 t rfl (by rw [(List.cons.inj hu).1])

/-- The first two characters of a text are seen with one character of what follows. -/
theorem not_pair_front {g : Text} (h : ¬ [a, b] <:+: c :: g ++ t.take 1) :
    (∀ u, c = a → g ++ t = b :: u → False) ∧ ¬ [a, b] <:+: g ++ t.take 1 := by
  rw [List.cons_append, not_pair_cons] at h
  refine ⟨fun u hc hu => h.1 ((g ++ t.take 1).drop 1) hc ?_, h.2⟩
  cases g with
  | nil =>
    rw [List.nil_append] at hu
    rw [hu]
    rfl
  | cons d g => rw [List.cons_append, (List.cons.inj hu).1]; rfl

end

/-! ## The cut of a document -/

/-- Code before a closing delimiter is passed over. -/
theorem cutCode_through {g t : Text} (h : ¬ ['%', '>'] <:+: g ++ t.take 1) :
    cutCode (g ++ t) = ⟨g ++ (cutCode t).head, (cutCode t).rest⟩ := by
  induction g with
  | nil => rfl
  | cons c g ih =>
    obtain ⟨hc, hg⟩ := not_pair_front h
    rw [List.cons_append, cutCode, ih hg]
    · rfl
    · exact hc

/-- Markup before an opening delimiter is passed over. -/
theorem cutHost_through {m t : Text} (h : ¬ ['<', '%'] <:+: m ++ t.take 1) :
    cutHost (m ++ t) = (m ++ (cutHost t).1, (cutHost t).2) := by
  induction m with
  | nil => rfl
  | cons c m ih =>
    obtain ⟨hc, hm⟩ := not_pair_front h
    rw [List.cons_append, cutHost, ih hm]
    · rfl
    · exact hc

/-- A text without a delimiter in front does not tell whether a document starts with markup. -/
theorem startsInMarkup_through {p t : Text} (hopen : ¬ ['<', '%'] <:+: p ++ t.take 1)
    (hclose : ¬ ['%', '>'] <:+: p ++ t.take 1) : startsInMarkup (p ++ t) = startsInMarkup t := by
  induction p with
  | nil => rfl
  | cons c p ih =>
    obtain ⟨ho, hopen⟩ := not_pair_front hopen
    obtain ⟨hc, hclose⟩ := not_pair_front hclose
    rw [List.cons_append, startsInMarkup, ih hopen hclose]
    · exact ho
    · exact hc

theorem cutCode_free {g : Text} (hg : ¬ ['%', '>'] <:+: g) : cutCode g = ⟨g, []⟩ := by
  have hthrough := cutCode_through (g := g) (t := []) (by simpa using hg)
  rwa [cutCode, List.append_nil] at hthrough

theorem cutCode_close {g : Text} (hg : ¬ ['%', '>'] <:+: g) (t : Text) :
    cutCode (g ++ '%' :: '>' :: t) =
      ⟨g, ('%' :: '>' :: (cutHost t).1, (cutHost t).2.head) :: (cutHost t).2.rest⟩ := by
  rw [cutCode_through (not_pair_concat (by decide) hg), cutCode]
  simp [Weave.pushHit]

theorem cutHost_free {m : Text} (hm : ¬ ['<', '%'] <:+: m) : cutHost m = (m, ⟨[], []⟩) := by
  have hthrough := cutHost_through (m := m) (t := []) (by simpa using hm)
  rwa [cutHost, List.append_nil] at hthrough

theorem cutHost_open {m : Text} (hm : ¬ ['<', '%'] <:+: m) (t : Text) :
    cutHost (m ++ (['<', '%'] ++ t)) = (m ++ ['<', '%'], cutCode t) :=
  cutHost_through (not_pair_concat (by decide) hm)

/-- The cut of that form is the one that is made. -/
theorem CutUp.cut {w : Weave} (h : CutUp w) : cutCode w.source = w := by
  induction h with
  | @code g hg =>
    rw [show Weave.source ⟨g, []⟩ = g by simp [Weave.source]]
    exact cutCode_free hg
  | @tail g m hg hm =>
    have hsource : Weave.source ⟨g, [('%' :: '>' :: m, [])]⟩ = g ++ '%' :: '>' :: m := by
      simp [Weave.source]
    rw [hsource, cutCode_close hg, cutHost_free hm]
  | @host g m w hg hm _ ih =>
    have hsource : Weave.source ⟨g, ('%' :: '>' :: (m ++ ['<', '%']), w.head) :: w.rest⟩ =
        g ++ '%' :: '>' :: (m ++ (['<', '%'] ++ w.source)) := by
      simp [Weave.source]
    rw [hsource, cutCode_close hg, cutHost_open hm, ih]

theorem CutUp.head_free {w : Weave} (h : CutUp w) : ¬ ['%', '>'] <:+: w.head := by
  cases h with
  | code hg => exact hg
  | tail hg _ => exact hg
  | host hg _ _ => exact hg

theorem CutUp.push {w : Weave} (h : CutUp w) {c : Char} (hc : ¬ ['%', '>'] <:+: c :: w.head) :
    CutUp (w.push c) := by
  cases h with
  | code _ => exact .code hc
  | tail _ hm => exact .tail hc hm
  | host _ hm hw => exact .host hc hm hw

/-- The cut that is made has that form, from inside code and from inside markup. -/
theorem cutUp_code_host : (∀ t, CutUp (cutCode t)) ∧ ∀ t, ¬ ['<', '%'] <:+: t ∨
    ∃ m u, ¬ ['<', '%'] <:+: m ∧ t = m ++ (['<', '%'] ++ u) ∧ CutUp (cutCode u) := by
  refine cutCode.mutual_induct (fun t => CutUp (cutCode t)) (fun t => ¬ ['<', '%'] <:+: t ∨
    ∃ m u, ¬ ['<', '%'] <:+: m ∧ t = m ++ (['<', '%'] ++ u) ∧ CutUp (cutCode u)) ?_ ?_ ?_ ?_ ?_ ?_
  · exact .code (by simp)
  · rintro t (hfree | ⟨m, u, hm, rfl, hu⟩)
    · rw [cutCode, cutHost_free hfree]
      exact .tail (by simp) hfree
    · rw [cutCode, cutHost_open hm]
      exact .host (g := []) (by simp) hm hu
  · intro c t hc ih
    have hno := (delimited_code_host.1 (c :: t)).code _ (Weave.head_mem_gaps _)
    rw [cutCode] at hno ⊢
    · exact ih.push hno
    · exact hc
    · exact hc
  · exact .inl (by simp)
  · intro t ih
    exact .inr ⟨[], t, by simp, rfl, ih⟩
  · rintro c t hc (hfree | ⟨m, u, hm, rfl, hu⟩)
    · exact .inl (not_pair_cons.mpr ⟨hc, hfree⟩)
    · refine .inr ⟨c :: m, u, not_pair_cons.mpr ⟨?_, hm⟩, rfl, hu⟩
      rintro v rfl rfl
      exact hc _ rfl rfl

/-- A document starts with markup if an opening delimiter is the first one. -/
theorem startsInMarkup_iff {t : Text} : startsInMarkup t = true ↔ ∃ m u, ¬ ['<', '%'] <:+: m ∧
    ¬ ['%', '>'] <:+: m ∧ t = m ++ (['<', '%'] ++ u) := by
  constructor
  · intro h
    fun_induction startsInMarkup t with
    | case1 => cases h
    | case2 u => exact ⟨[], u, by simp, by simp, rfl⟩
    | case3 => cases h
    | case4 c t hopen hclose ih =>
      obtain ⟨m, u, hm, hm', rfl⟩ := ih h
      refine ⟨c :: m, u, not_pair_cons.mpr ⟨?_, hm⟩, not_pair_cons.mpr ⟨?_, hm'⟩, rfl⟩
      · rintro v rfl rfl
        exact hopen _ rfl rfl
      · rintro v rfl rfl
        exact hclose _ rfl rfl
  · rintro ⟨m, u, hm, hm', rfl⟩
    rw [startsInMarkup_through (not_pair_concat (by decide) hm) (not_pair_concat (by decide) hm')]
    rfl

theorem startsInMarkup_of_infix {p : Text} (hopen : ['<', '%'] <:+: p)
    (hclose : ¬ ['%', '>'] <:+: p) (t : Text) : startsInMarkup (p ++ t) = true := by
  rcases cutUp_code_host.2 p with hfree | ⟨m, u, hm, rfl, -⟩
  · exact absurd hopen hfree
  · refine startsInMarkup_iff.mpr ⟨m, u ++ t, hm, fun hin => hclose ?_, by simp⟩
    exact hin.trans (List.prefix_append m _).isInfix

/-- Code with markup behind it ends at a closing delimiter. -/
theorem CutUp.source_eq {w : Weave} (h : CutUp w) (hne : w.rest ≠ []) :
    ∃ z, w.source = w.head ++ ('%' :: '>' :: z) := by
  cases h with
  | code _ => exact absurd rfl hne
  | @tail g m _ _ => exact ⟨m, by simp [Weave.source]⟩
  | @host g m w _ _ _ => exact ⟨m ++ (['<', '%'] ++ w.source), by simp [Weave.source]⟩

/-- The cut that is made of a document. -/
theorem document_cutMarkup (t : Text) : Document (cutMarkup t) := by
  rw [cutMarkup]
  split
  · next h =>
    obtain ⟨m, u, hm, hm', rfl⟩ := startsInMarkup_iff.mp h
    rw [cutHost_open hm]
    exact .head hm hm' (cutUp_code_host.1 u)
  · next h =>
    have hcut := cutUp_code_host.1 t
    have hno := (delimited_code_host.1 t).code _ (Weave.head_mem_gaps _)
    have hsource := (source_code_host t).1
    generalize cutCode t = w at hcut hno hsource
    subst hsource
    by_cases hne : w.rest = []
    · obtain ⟨g, rest⟩ := w
      obtain rfl : rest = [] := hne
      refine .script (fun hopen => h ?_) hno
      have hstarts := startsInMarkup_of_infix hopen hno []
      simpa [Weave.source] using hstarts
    · obtain ⟨z, hz⟩ := hcut.source_eq hne
      refine .code hcut hne fun hopen => h ?_
      have hstarts := startsInMarkup_of_infix hopen (not_pair_concat (by decide) hno) ('>' :: z)
      rw [hz]
      simpa using hstarts

/-- The cut of that form is the one that is made. -/
theorem Document.cut {w : Weave} (h : Document w) : cutMarkup w.source = w := by
  cases h with
  | @script g hopen hclose =>
    have hcode : ¬ startsInMarkup g = true := by
      intro hstarts
      obtain ⟨m, u, _, _, rfl⟩ := startsInMarkup_iff.mp hstarts
      exact hopen (List.infix_append' m ['<', '%'] u)
    rw [show Weave.source ⟨g, []⟩ = g by simp [Weave.source], cutMarkup, if_neg hcode]
    exact cutCode_free hclose
  | @head m w hopen hclose hw =>
    rw [Weave.source_pushHit, List.append_assoc, cutMarkup,
      if_pos (startsInMarkup_iff.mpr ⟨m, w.source, hopen, hclose, rfl⟩), cutHost_open hopen, hw.cut]
  | code hw hne hopen =>
    obtain ⟨z, hz⟩ := hw.source_eq hne
    have hclose : ¬ ['%', '>'] <:+: w.head ++ ['%'] := not_pair_concat (by decide) hw.head_free
    have hcode : startsInMarkup w.source = false := by
      rw [hz, startsInMarkup_through hopen hclose]
      rfl
    rw [cutMarkup, hcode]
    exact hw.cut

/-! ## A piece of code -/

/-- A text that does not start or end with a blank. -/
def Bare (t : Text) : Prop :=
  (∀ c ∈ t.head?, isBlank c = false) ∧ ∀ c ∈ t.getLast?, isBlank c = false

/-- Code is a text between blanks. -/
theorem blanks_split (g : Text) : ∃ l core r, g = l ++ (core ++ r) ∧ Blanks l ∧ Blanks r ∧
    Bare core ∧ (core = [] → r = []) := by
  obtain ⟨r, hr, hblank⟩ := dropEnd_append isBlank (g.dropWhile isBlank)
  have hl : Blanks (g.takeWhile isBlank) :=
    fun c hc => List.all_eq_true.mp List.all_takeWhile c hc
  have hfirst : ∀ c ∈ (g.dropWhile isBlank).head?, isBlank c = false := by
    intro c hc
    have hnot := List.head?_dropWhile_not isBlank g
    rw [hc] at hnot
    simpa using hnot
  have hlast : ∀ c ∈ (dropEnd isBlank (g.dropWhile isBlank)).getLast?, isBlank c = false := by
    intro c hc
    have hnot := List.head?_dropWhile_not isBlank (g.dropWhile isBlank).reverse
    rw [dropEnd, List.getLast?_reverse] at hc
    rw [hc] at hnot
    simpa using hnot
  refine ⟨_, _, r, ?_, hl, hblank, ⟨?_, hlast⟩, ?_⟩
  · rw [← hr, List.takeWhile_append_dropWhile]
  · intro c hc
    apply hfirst
    rw [hr, List.head?_append, hc]
    rfl
  · intro hcore
    rw [hcore, List.nil_append] at hr
    cases r with
    | nil => rfl
    | cons c r =>
      have hc := hfirst c (by rw [hr]; rfl)
      rw [hblank c List.mem_cons_self] at hc
      cases hc

theorem packed_between {l core r : Text} (hl : Blanks l) (hr : Blanks r) :
    packed (l ++ (core ++ r)) = packed core := by
  have hnone : ∀ {s : Text}, Blanks s → s.filter (!isBlank ·) = [] := by
    intro s hs
    rw [List.filter_eq_nil_iff]
    intro c hc
    simp [hs c hc]
  rw [packed, packed, List.filter_append, List.filter_append, hnone hl, hnone hr, List.nil_append,
    List.append_nil]

theorem firstLine_between {l core r : Text} (hl : Blanks l) (hr : Blanks r) :
    (firstLine (l ++ (core ++ r))).all isSpace = (firstLine core).all isSpace := by
  rw [firstLine_all_packed, packed_between hl hr, ← firstLine_all_packed]

theorem lastLine_between {l core r : Text} (hl : Blanks l) (hr : Blanks r) :
    (lastLine (l ++ (core ++ r))).all isSpace = (lastLine core).all isSpace := by
  rw [lastLine_all_packed, packed_between hl hr, ← lastLine_all_packed]

/-- The blanks that code gets in front where an opening delimiter borders on it. -/
def leadOf (core : Text) : Text :=
  if (firstLine core).all isSpace || core.head? == some '=' || core.head? == some '@' then []
  else [' ']

/-- The blanks that code gets behind it where a closing delimiter borders on it; a last line without
code keeps its own. -/
def trailOf (core r : Text) : Text :=
  if (lastLine core).all isSpace then r else [' ']

theorem blanks_leadOf (core : Text) : Blanks (leadOf core) := by
  rw [leadOf]
  split <;> simp [Blanks, isBlank]

theorem blanks_trailOf (core : Text) {r : Text} (hr : Blanks r) : Blanks (trailOf core r) := by
  rw [trailOf]
  split
  · exact hr
  · simp [Blanks, isBlank]

section
variable {l core r : Text} (hl : Blanks l) (hr : Blanks r) (hcore : Bare core)
  (hnil : core = [] → r = [])
include hl hr hcore

include hnil in
theorem padAfterOpen_between : padAfterOpen (l ++ (core ++ r)) = leadOf core ++ (core ++ r) := by
  have hstop : ∀ c ∈ (core ++ r).head?, isBlank c = false := by
    cases core with
    | nil => simp [hnil rfl]
    | cons c core => exact hcore.1
  have hdrop : (l ++ (core ++ r)).dropWhile isBlank = core ++ r := by
    rw [List.dropWhile_append_of_pos hl]
    cases hhead : core ++ r with
    | nil => rfl
    | cons c t =>
      rw [hhead] at hstop
      exact List.dropWhile_cons_of_neg (by simp [hstop c rfl])
  have hhead : (core ++ r).head? = core.head? := by
    cases core with
    | nil => simp [hnil rfl]
    | cons c core => rfl
  rw [padAfterOpen_eq, firstLine_between hl hr, hdrop, hhead, leadOf]
  split <;> rfl

theorem padBeforeClose_between :
    padBeforeClose (l ++ (core ++ r)) = l ++ (core ++ trailOf core r) := by
  rw [padBeforeClose, lastLine_between hl hr, trailOf]
  split
  · rfl
  · next hline =>
    rcases List.eq_nil_or_concat' core with rfl | ⟨s, c, rfl⟩
    · exact absurd rfl hline
    · have hc : isBlank c = false := hcore.2 c (by simp)
      rw [← List.append_assoc, dropEnd_append_all hr, ← List.append_assoc, dropEnd_cut hc]
      simp [dropEnd]

end

/-- Code with markup around it is padded where a delimiter borders on it. -/
def padCode (opened closed : Bool) (g : Text) : Text :=
  let g := if opened then padAfterOpen g else g
  if closed then padBeforeClose g else g

/-- Code between blanks keeps its place between blanks. -/
theorem padCode_split (opened closed : Bool) (g : Text) : ∃ l l' core r r', g = l ++ (core ++ r) ∧
    padCode opened closed g = l' ++ (core ++ r') ∧ Blanks l ∧ Blanks l' ∧ Blanks r ∧ Blanks r' ∧
      Bare core ∧ (core = [] → r' = []) ∧ (l' = if opened then leadOf core else l) ∧
        r' = if closed then trailOf core r else r := by
  obtain ⟨l, core, r, rfl, hl, hr, hcore, hnil⟩ := blanks_split g
  have hopen : (if opened then padAfterOpen (l ++ (core ++ r)) else l ++ (core ++ r)) =
      (if opened then leadOf core else l) ++ (core ++ r) := by
    split
    · exact padAfterOpen_between hl hr hcore hnil
    · rfl
  have hlead : Blanks (if opened then leadOf core else l) := by
    split
    · exact blanks_leadOf core
    · exact hl
  have htrail : Blanks (if closed then trailOf core r else r) := by
    split
    · exact blanks_trailOf core hr
    · exact hr
  refine ⟨l, _, core, r, _, rfl, ?_, hl, hlead, hr, htrail, hcore, ?_, rfl, rfl⟩
  · rw [padCode, hopen]
    split
    · exact padBeforeClose_between hlead hr hcore
    · rfl
  · rintro rfl
    rw [hnil rfl]
    split <;> rfl

/-- Padded code is not padded again. -/
theorem padCode_twice (opened closed : Bool) (g : Text) :
    padCode opened closed (padCode opened closed g) = padCode opened closed g := by
  obtain ⟨l, l', core, r, r', -, hpad, -, hl, -, hr, hcore, hnil, hlead, htrail⟩ :=
    padCode_split opened closed g
  have hopen : (if opened then padAfterOpen (l' ++ (core ++ r')) else l' ++ (core ++ r')) =
      l' ++ (core ++ r') := by
    cases opened with
    | false => rfl
    | true =>
      rw [if_pos rfl] at hlead
      rw [if_pos rfl, padAfterOpen_between hl hr hcore hnil, hlead]
  rw [hpad, padCode, hopen]
  cases closed with
  | false => rfl
  | true =>
    have htwice : trailOf core r' = r' := by
      rw [htrail, if_pos rfl, trailOf, trailOf]
      split <;> rfl
    rw [if_pos rfl, padBeforeClose_between hl hr hcore, htwice]

/-- Code before and after markup was put back around it. Blanks have changed next to a delimiter
that borders on it. On the line of an opening delimiter code stands one space behind the delimiter,
or directly behind it if it starts with an equals or an at sign; on the line of a closing delimiter
it stands one space in front of the delimiter. -/
structure PaddedCode (opened closed : Bool) (g g' : Text) : Prop where
  blanks : ∃ l l' core r r', g = l ++ (core ++ r) ∧ g' = l' ++ (core ++ r') ∧ Blanks l ∧ Blanks l' ∧
    Blanks r ∧ Blanks r' ∧ (opened = false → l' = l) ∧ (closed = false → r' = r)
  front : opened = true → (firstLine g').all isSpace = false →
    (∃ s, g' = '=' :: s ∨ g' = '@' :: s) ∨
      ∃ c s, g' = ' ' :: c :: s ∧ isBlank c = false ∧ c ≠ '=' ∧ c ≠ '@'
  back : closed = true → (lastLine g').all isSpace = false →
    ∃ s c, g' = s ++ [c, ' '] ∧ isBlank c = false

theorem paddedCode (opened closed : Bool) (g : Text) :
    PaddedCode opened closed g (padCode opened closed g) := by
  obtain ⟨l, l', core, r, r', hg, hpad, hl, hl', hr, hr', hcore, -, hlead, htrail⟩ :=
    padCode_split opened closed g
  rw [hpad]
  refine ⟨⟨l, l', core, r, r', hg, rfl, hl, hl', hr, hr', ?_, ?_⟩, ?_, ?_⟩
  · rintro rfl
    exact hlead
  · rintro rfl
    exact htrail
  · rintro rfl hline
    rw [firstLine_between hl' hr'] at hline
    cases core with
    | nil => cases hline
    | cons c core =>
      have hc : isBlank c = false := hcore.1 c rfl
      simp only [if_true, leadOf, hline, Bool.false_or, List.head?_cons] at hlead
      by_cases hsign : c = '=' ∨ c = '@'
      · left
        rcases hsign with rfl | rfl
        · exact ⟨core ++ r', .inl (by rw [hlead]; rfl)⟩
        · exact ⟨core ++ r', .inr (by rw [hlead]; rfl)⟩
      · rw [not_or] at hsign
        have hspace : l' = [' '] := by simpa [hsign] using hlead
        exact .inr ⟨c, core ++ r', by rw [hspace]; rfl, hc, hsign⟩
  · rintro rfl hline
    rw [lastLine_between hl' hr'] at hline
    rcases List.eq_nil_or_concat' core with rfl | ⟨s, c, rfl⟩
    · cases hline
    · refine ⟨l' ++ s, c, ?_, hcore.2 c (by simp)⟩
      simp [htrail, trailOf, hline]

/-- What has no blanks stands in code between blanks if it stands in the code. -/
theorem infix_between {part l core r : Text} (hne : part ≠ [])
    (hpart : ∀ c ∈ part, isBlank c = false) (hl : Blanks l) (hr : Blanks r) :
    part <:+: l ++ (core ++ r) ↔ part <:+: core := by
  have hout : ∀ {s : Text} {c : Char}, Blanks s → c ∈ s → c ∉ part := by
    intro s c hs hc hmem
    exact Bool.noConfusion ((hpart c hmem).symm.trans (hs c hc))
  have hnone : ∀ {s : Text}, Blanks s → ¬ part <:+: s := by
    intro s hs hin
    obtain ⟨c, part, rfl⟩ := List.exists_cons_of_ne_nil hne
    exact hout hs (hin.subset List.mem_cons_self) List.mem_cons_self
  have hfront : part <:+: l ++ (core ++ r) ↔ part <:+: core ++ r := by
    rcases List.eq_nil_or_concat' l with rfl | ⟨l, c, rfl⟩
    · rfl
    · rw [List.append_assoc, List.singleton_append, infix_break hne (hout hl (by simp)),
        or_iff_right (hnone fun d hd => hl d (List.mem_append_left _ hd))]
  rw [hfront]
  cases r with
  | nil => rw [List.append_nil]
  | cons c r =>
    rw [infix_break hne (hout hr List.mem_cons_self),
      or_iff_left (hnone fun d hd => hr d (List.mem_cons_of_mem _ hd))]

theorem not_infix_padCode {part g : Text} (hne : part ≠ []) (hpart : ∀ c ∈ part, isBlank c = false)
    (h : ¬ part <:+: g) (opened closed : Bool) : ¬ part <:+: padCode opened closed g := by
  obtain ⟨l, l', core, r, r', rfl, hpad, hl, hl', hr, hr', -⟩ := padCode_split opened closed g
  rw [infix_between hne hpart hl hr] at h
  rwa [hpad, infix_between hne hpart hl' hr']

theorem padCode_nil (opened closed : Bool) : padCode opened closed [] = [] := by
  cases opened <;> cases closed <;> rfl

/-- A space before a closing delimiter makes no opening one with it. -/
theorem not_opening_padCode {g : Text} (h : ¬ ['<', '%'] <:+: g ++ ['%']) (closed : Bool) :
    ¬ ['<', '%'] <:+: padCode false closed g ++ ['%'] := by
  obtain ⟨l, l', core, r, r', rfl, hpad, -, -, -, -, -, -, hlead, htrail⟩ :=
    padCode_split false closed g
  obtain rfl : l' = l := hlead
  rw [hpad]
  have hcases : r' = r ∨ r' = [' '] := by
    rw [htrail]
    cases closed with
    | false => exact .inl rfl
    | true =>
      rw [if_pos rfl, trailOf]
      split
      · exact .inl rfl
      · exact .inr rfl
  rcases hcases with hsame | hspace
  · rwa [hsame]
  · intro hin
    rw [hspace, ← List.append_assoc, List.append_assoc, List.singleton_append,
      infix_break (by decide) (by decide)] at hin
    rcases hin with hin | hin
    · refine h (hin.trans ?_)
      rw [← List.append_assoc, List.append_assoc]
      exact (List.prefix_append _ _).isInfix
    · revert hin
      decide

/-! ## Markup put back -/

/-- A cut with its code padded, from code on that an opening delimiter borders on or not. -/
def padFrom : Bool → Text → List (Text × Text) → Weave
  | opened, g, [] => ⟨padCode opened false g, []⟩
  | opened, g, (host, after) :: more =>
    let w := padFrom (endsWith ['<', '%'] host) after more
    ⟨padCode opened (['%', '>'].isPrefixOf host) g, (host, w.head) :: w.rest⟩

theorem padFrom_nil (opened : Bool) (g : Text) :
    padFrom opened g [] = ⟨padCode opened false g, []⟩ :=
  rfl

theorem padFrom_cons (opened : Bool) (g : Text) (p : Text × Text) (more : List (Text × Text)) :
    padFrom opened g (p :: more) =
      ⟨padCode opened (['%', '>'].isPrefixOf p.1) g,
        (p.1, (padFrom (endsWith ['<', '%'] p.1) p.2 more).head) ::
          (padFrom (endsWith ['<', '%'] p.1) p.2 more).rest⟩ :=
  rfl

/-- A cut before and after the markup was put back: the runs of markup are the same, and the code
between them is padded where a delimiter of theirs borders on it. -/
inductive Repadded : Bool → Weave → Weave → Prop
  | last {opened : Bool} {g g' : Text} (hg : PaddedCode opened false g g') :
      Repadded opened ⟨g, []⟩ ⟨g', []⟩
  | host {opened : Bool} {g g' host : Text} {w v : Weave}
      (hg : PaddedCode opened (['%', '>'].isPrefixOf host) g g')
      (hmore : Repadded (endsWith ['<', '%'] host) w v) :
      Repadded opened ⟨g, (host, w.head) :: w.rest⟩ ⟨g', (host, v.head) :: v.rest⟩

theorem repadded_padFrom (opened : Bool) (g : Text) (rest : List (Text × Text)) :
    Repadded opened ⟨g, rest⟩ (padFrom opened g rest) := by
  induction rest generalizing opened g with
  | nil => exact .last (paddedCode opened false g)
  | cons p rest ih => exact .host (w := ⟨p.2, rest⟩) (paddedCode opened _ g) (ih _ p.2)

theorem padFrom_twice (opened : Bool) (g : Text) (rest : List (Text × Text)) :
    padFrom opened (padFrom opened g rest).head (padFrom opened g rest).rest =
      padFrom opened g rest := by
  induction rest generalizing opened g with
  | nil => simp [padFrom_nil, padCode_twice]
  | cons p rest ih => simp [padFrom_cons, padCode_twice, ih]

theorem source_padFrom (opened : Bool) (g : Text) (rest : List (Text × Text)) :
    (padFrom opened g rest).source = joinPadded (if opened then padAfterOpen g else g) rest := by
  induction rest generalizing opened g with
  | nil => simp [padFrom_nil, Weave.source, joinPadded, padCode]
  | cons p rest ih =>
    have hmore := ih (endsWith ['<', '%'] p.1) p.2
    rw [joinPadded, ← hmore]
    simp [padFrom_cons, Weave.source, padCode]

/-- The markup of a document is cut out and put back. -/
def repad (x : Text) : Except Fault Text :=
  (shelfOf .markup [cutMarkup x]).putBackPadded (Lifting.mask .markup (cutMarkup x))

theorem repad_eq {x : Text} (h : '\x00' ∉ x) :
    repad x = .ok (padFrom false (cutMarkup x).head (cutMarkup x).rest).source := by
  have hsource : '\x00' ∉ (cutMarkup x).source := by rwa [source_cutMarkup]
  rw [repad]
  generalize cutMarkup x = w at hsource
  let s : Shelves := Shelves.empty.set .markup w.hits
  have hhits : s.get .markup = w.hits := PerKind.get_set_self ..
  have hshelf : shelfOf .markup [w] = s.shelf .markup := by
    simp [shelfOf, literalsOf, Shelves.shelf, hhits]
  have hgaps := gaps_cutTokens_mask (k := .markup) (nul_not_mem_gap hsource)
  have hlen := Weave.rest_length_of_gaps hgaps
  obtain ⟨hhead, hafter⟩ := List.cons.inj hgaps
  have hzip : w.hits.zip (w.rest.map Prod.snd) = w.rest := (List.zip_of_prod rfl rfl).symm
  rw [hshelf, Shelves.putBackPadded_eq, hhits, hafter, hhead, hzip, source_padFrom,
    if_pos (by rw [hlen, Weave.hits, List.length_map])]
  rfl

theorem CutUp.padFrom {w : Weave} (h : CutUp w) (opened : Bool) :
    CutUp (padFrom opened w.head w.rest) := by
  induction h generalizing opened with
  | code hg => exact .code (not_infix_padCode (by decide) (by decide) hg _ _)
  | tail hg hm =>
    rw [padFrom_cons, padFrom_nil, padCode_nil]
    exact .tail (not_infix_padCode (by decide) (by decide) hg _ _) hm
  | host hg hm _ ih => exact .host (not_infix_padCode (by decide) (by decide) hg _ _) hm (ih _)

theorem Document.padFrom {w : Weave} (h : Document w) :
    Document (padFrom false w.head w.rest) := by
  cases h with
  | script hopen hclose => exact .script hopen hclose
  | head hopen hclose hw =>
    rw [Weave.pushHit, padFrom_cons, padCode_nil]
    exact .head hopen hclose (hw.padFrom _)
  | code hw hne hopen =>
    obtain ⟨g, rest⟩ := w
    obtain ⟨p, rest, rfl⟩ := List.exists_cons_of_ne_nil hne
    exact .code (hw.padFrom false) (List.cons_ne_nil _ _) (not_opening_padCode hopen _)

theorem nul_not_mem_padFrom (opened : Bool) {g : Text} {rest : List (Text × Text)}
    (h : '\x00' ∉ Weave.source ⟨g, rest⟩) : '\x00' ∉ (padFrom opened g rest).source := by
  have hcode : ∀ opened closed g, '\x00' ∉ g → '\x00' ∉ padCode opened closed g := by
    intro opened closed g hg
    rw [← List.singleton_infix_iff] at hg ⊢
    exact not_infix_padCode (by decide) (by decide) hg opened closed
  have hsource : ∀ (g host : Text) (w : Weave),
      Weave.source ⟨g, (host, w.head) :: w.rest⟩ = g ++ (host ++ w.source) := by
    simp [Weave.source]
  induction rest generalizing opened g with
  | nil =>
    rw [padFrom_nil]
    simp only [Weave.source, List.flatMap_nil, List.append_nil] at h ⊢
    exact hcode _ _ _ h
  | cons p rest ih =>
    obtain ⟨host, after⟩ := p
    rw [hsource g host ⟨after, rest⟩, List.mem_append, List.mem_append, not_or, not_or] at h
    rw [padFrom_cons, hsource, List.mem_append, List.mem_append, not_or, not_or]
    exact ⟨hcode _ _ _ h.1, h.2.1, ih _ h.2.2⟩

/-- Putting the markup of a document back settles the spacing at its delimiters. The runs of markup
stay as they are, the document that comes out is cut at the same ones, the code between them is
padded, and from then on nothing changes any more. -/
theorem repad_settled {x : Text} (h : '\x00' ∉ x) : ∃ w v, w.source = x ∧ Document w ∧ Document v ∧
    Repadded false w v ∧ repad x = .ok v.source ∧ repad v.source = .ok v.source := by
  have hw := document_cutMarkup x
  have hx := repad_eq h
  have hsource := source_cutMarkup x
  generalize cutMarkup x = w at hw hx hsource
  subst hsource
  have hv := hw.padFrom
  refine ⟨w, _, rfl, hw, hv, repadded_padFrom false w.head w.rest, hx, ?_⟩
  rw [repad_eq (nul_not_mem_padFrom false h), hv.cut, padFrom_twice]

theorem repad_settled_inline : '\x00' ∉ "%>a<%=b  %><%\tc%>".toList ∧
    repad "%>a<%=b  %><%\tc%>".toList = .ok "%>a<%=b %><% c %>".toList ∧
      repad "%>a<%=b %><% c %>".toList = .ok "%>a<%=b %><% c %>".toList := by
  have hfree : '\x00' ∉ "%>a<%=b  %><%\tc%>".toList := by decide
  have hout : repad "%>a<%=b  %><%\tc%>".toList = .ok "%>a<%=b %><% c %>".toList := by
    decide
  obtain ⟨w, v, -, -, -, -, hx, hy⟩ := repad_settled hfree
  have hv : v.source = "%>a<%=b %><% c %>".toList := Except.ok.inj (hx.symm.trans hout)
  rw [hv] at hy
  exact ⟨hfree, hout, hy⟩

end VbTidy
