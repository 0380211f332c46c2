import VbTidy.Proofs.Filled
import VbTidy.Proofs.Folded
import VbTidy.Proofs.Recased

/-
The lines of two runs up to their indents. A line comes out of the recasing in two letter cases as
two twins: texts that differ in the letter case of keywords only, and have the same tokens at the
same places. Twins have the same depth, the same shift and the same role, so the two layouts have
the same blank lines, and what differs on a line is its indent and its letter case (`Laid`).
-/
namespace VbTidy

/-! ## Twins -/

/-- Two texts that differ in letter case only, and not in their tokens. -/
structure Twin (t t' : Text) : Prop where
  fold : folded t = folded t'
  shape : shape false t = shape false t'

theorem unstyled_of_folded {t t' : Text} (h : folded t = folded t') : unstyled t = unstyled t' :=
  congrArg collapse h

theorem nul_mem_folded {t : Text} : '\x00' ∈ folded t ↔ '\x00' ∈ t :=
  mem_folded (by decide)

/-- Texts that differ in letter case have their NUL characters at the same places. -/
theorem folded_eq_cases {t t' : Text} (h : folded t = folded t') :
    ('\x00' ∉ t ∧ '\x00' ∉ t') ∨
    ∃ p u p' u', '\x00' ∉ p ∧ t = p ++ '\x00' :: u ∧ '\x00' ∉ p' ∧ t' = p' ++ '\x00' :: u' ∧
      folded p = folded p' ∧ folded u = folded u' := by
  have hmem : '\x00' ∈ t ↔ '\x00' ∈ t' := by rw [← nul_mem_folded, h, nul_mem_folded]
  rcases nul_cases t with ht | ⟨p, u, hp, rfl⟩
  · exact .inl ⟨ht, fun h => ht (hmem.mpr h)⟩
  · rcases nul_cases t' with ht' | ⟨p', u', hp', rfl⟩
    · exact absurd (hmem.mp (by simp)) ht'
    · rw [folded_append, folded_append] at h
      obtain ⟨hparts, hrests⟩ := part_unique (fun hm => hp (nul_mem_folded.mp hm))
        (fun hm => hp' (nul_mem_folded.mp hm)) h
      exact .inr ⟨p, u, p', u', hp, rfl, hp', rfl, hparts, hrests⟩

theorem shape_split {b : Bool} {x x' y y' : Text} (hx : folded x = folded x')
    (hy : folded y = folded y') (h : shape b (x ++ y) = shape b (x' ++ y')) :
    shape b x = shape b x' ∧ shape false y = shape false y' := by
  induction x using nul_induction generalizing b x' with
  | free x hfree =>
    have hfree' : '\x00' ∉ x' := by rwa [← nul_mem_folded, ← hx, nul_mem_folded]
    refine ⟨?_, ?_⟩
    · rw [shape_free hfree, shape_free hfree', look_outer, look_outer, unstyled_of_folded hx]
    · rcases folded_eq_cases hy with ⟨h₁, h₂⟩ | ⟨q, v, q', v', hq, rfl, hq', rfl, hqs, _⟩
      · rw [shape_free h₁, shape_free h₂, look_outer, look_outer, unstyled_of_folded hy]
      · rw [← List.append_assoc, ← List.append_assoc, shape_nul (by simp [hfree, hq]),
          shape_nul (by simp [hfree', hq'])] at h
        rw [shape_nul hq, shape_nul hq', look_outer, look_outer, unstyled_of_folded hqs,
          (List.cons.inj h).2]
  | nul p u hp ih =>
    rcases folded_eq_cases hx with ⟨hfree, _⟩ | ⟨q, v, p', u', hq, heq, hp', rfl, _, hus⟩
    · exact absurd (by simp) hfree
    · obtain ⟨rfl, rfl⟩ := part_unique hp hq heq
      rw [List.append_assoc, List.append_assoc, List.cons_append, List.cons_append, shape_nul hp,
        shape_nul hp'] at h
      obtain ⟨hlook, hrest⟩ := List.cons.inj h
      obtain ⟨hu, hy⟩ := ih hus hrest
      exact ⟨by rw [shape_nul hp, shape_nul hp', hlook, hu], hy⟩

namespace Twin
variable {t t' u u' : Text}

theorem refl (t : Text) : Twin t t := ⟨rfl, rfl⟩

theorem symm (h : Twin t t') : Twin t' t := ⟨h.fold.symm, h.shape.symm⟩

theorem trans (h : Twin t t') (h' : Twin t' u) : Twin t u :=
  ⟨h.fold.trans h'.fold, h.shape.trans h'.shape⟩

theorem length_eq (h : Twin t t') : t.length = t'.length := by
  rw [← length_folded, h.fold, length_folded]

theorem eq_nil_iff (h : Twin t t') : t = [] ↔ t' = [] := by
  rw [← List.length_eq_zero_iff, h.length_eq, List.length_eq_zero_iff]

/-- Twins may be cut at any place. -/
theorem split (h : Twin (t ++ u) (t' ++ u')) (hlen : t.length = t'.length) :
    Twin t t' ∧ Twin u u' := by
  have hfold := h.fold
  rw [folded_append, folded_append] at hfold
  obtain ⟨ht, hu⟩ := List.append_inj hfold (by simpa using hlen)
  obtain ⟨hts, hus⟩ := shape_split ht hu h.shape
  exact ⟨⟨ht, hts⟩, ⟨hu, hus⟩⟩

theorem dropWhile {p : Char → Bool} (hp : ∀ c, p (anyCase c) = p c) (h : Twin t t') :
    Twin (t.dropWhile p) (t'.dropWhile p) := by
  have hlen : (t.takeWhile p).length = (t'.takeWhile p).length := by
    rw [← length_folded, ← length_folded (t'.takeWhile p), ← folded_takeWhile hp,
      ← folded_takeWhile hp, h.fold]
  rw [← List.takeWhile_append_dropWhile (p := p) (l := t),
    ← List.takeWhile_append_dropWhile (p := p) (l := t')] at h
  exact (h.split hlen).2

theorem trim (h : Twin t t') : Twin (trim t) (trim t') where
  fold := by
    rw [VbTidy.trim, VbTidy.trim, trimBy, trimBy, ← folded_dropEnd isSpace_anyCase,
      ← folded_dropEnd isSpace_anyCase, ← folded_dropWhile isSpace_anyCase,
      ← folded_dropWhile isSpace_anyCase, h.fold]
  shape := shape_trim h.shape

end Twin

/-! ## Recasing -/

theorem anyCase_alpha {c : Char} (h : c.isAlpha = true) :
    anyCase c = c.toLower ∧ anyCase c.toUpper = c.toLower ∧ anyCase c.toLower = c.toLower := by
  have hall : ∀ c : Char, c.toNat < 0x80 → c.isAlpha = true →
      anyCase c = c.toLower ∧ anyCase c.toUpper = c.toLower ∧ anyCase c.toLower = c.toLower :=
    of_ascii (by decide)
  exact hall c (ascii_of_alpha h) h

theorem folded_write {k : Text} (hk : k ∈ keywords) (case : LetterCase) :
    folded (case.write k) = k.map Char.toLower := by
  have halpha := isAlpha_of_keyword hk
  cases case with
  | upper =>
    rw [LetterCase.write, folded, List.map_map]
    exact List.map_congr_left fun c hc => (anyCase_alpha (halpha c hc)).2.1
  | lower =>
    rw [LetterCase.write, folded, List.map_map]
    exact List.map_congr_left fun c hc => (anyCase_alpha (halpha c hc)).2.2
  | proper => exact List.map_congr_left fun c hc => (anyCase_alpha (halpha c hc)).1
  | unchanged => exact List.map_congr_left fun c hc => (anyCase_alpha (halpha c hc)).1

theorem folded_recaseWord {case : LetterCase} {word out : Text}
    (h : recaseWord case word = .ok out) : folded word = folded out := by
  rcases recaseWord_ok h with rfl | ⟨k, hk, rfl, hword⟩
  · rfl
  · rw [folded_write hk, hword]
    apply List.map_congr_left
    intro c hc
    have hname : isNameChar (lowerChar c) = true :=
      keywords_lower hk _ (by rw [hword]; exact List.mem_map_of_mem hc)
    rw [anyCase, if_pos hname]

theorem write_ne_mark {k : Text} (hk : k ∈ keywords) (case : LetterCase) (m : Mark) :
    case.write k ≠ m.name := by
  intro h
  have hname : folded m.name = m.name := by
    have hall : ∀ m ∈ Mark.all, folded m.name = m.name := by decide
    exact hall m (Mark.mem_all m)
  exact (keyword_letters hk).2.2 m (by rw [← folded_write hk case, h, hname])

theorem Rewrites.folded {case : LetterCase} {runs outs : List Text} (h : Rewrites case runs outs) :
    folded runs.flatten = folded outs.flatten := by
  induction h with
  | nil => rfl
  | cons hw _ ih =>
    rw [List.flatten_cons, List.flatten_cons, folded_append, folded_append, ih,
      folded_recaseWord hw]

/-- A part of a line names the same mark before and after. -/
theorem ofName?_rewrites {case : LetterCase} {p : Text} {outs : List Text}
    (h : Rewrites case (wordRuns p) outs) : Mark.ofName? p = Mark.ofName? outs.flatten := by
  cases hm : Mark.ofName? p with
  | some m =>
    rw [ofName?_eq_some hm, wordRuns_name] at h
    cases h with
    | cons hw hnil =>
      cases hnil
      rw [recaseWord_name] at hw
      cases hw
      simp [Mark.ofName?_name]
  | none =>
    cases hout : Mark.ofName? outs.flatten with
    | none => rfl
    | some m =>
      have hname := ofName?_eq_some hout
      have hwords : ∀ c ∈ p, isWord c = true := by
        have halike := h.alike
        rw [flatten_wordRuns, hname] at halike
        exact forall₂_words halike fun c hc => isWord_nameChar (Mark.isNameChar_of_mem hc)
      have hne : p ≠ [] := by
        rintro rfl
        cases h
        exact absurd hname.symm (Mark.name_ne_nil m)
      rw [wordRuns_word hne hwords] at h
      cases h with
      | cons hw hnil =>
        cases hnil
        rw [List.flatten_cons, List.flatten_nil, List.append_nil] at hname
        -- A keyword is no name, so the word is as it was.
        rcases recaseWord_ok hw with hsame | ⟨k, hk, hwrite, _⟩
        · rw [← hsame, hname, Mark.ofName?_name] at hm
          cases hm
        · exact absurd (hwrite.symm.trans hname) (write_ne_mark hk case m)

theorem shape_rewrites {case : LetterCase} {b : Bool} {t : Text} {outs : List Text}
    (h : Rewrites case (wordRuns t) outs) : shape b t = shape b outs.flatten := by
  have hlook : ∀ {p : Text} {outs : List Text}, Rewrites case (wordRuns p) outs → '\x00' ∉ p →
      '\x00' ∉ outs.flatten ∧ ∀ b, look b p = look b outs.flatten := by
    intro p outs h hp
    have hfold := h.folded
    rw [flatten_wordRuns] at hfold
    refine ⟨by rwa [← nul_mem_folded, ← hfold, nul_mem_folded], fun b => ?_⟩
    rw [look, look, ofName?_rewrites h, unstyled_of_folded hfold]
  induction t using nul_induction generalizing b outs with
  | free t ht =>
    obtain ⟨hfree, hl⟩ := hlook h ht
    rw [shape_free ht, shape_free hfree, hl]
  | nul p u hp ih =>
    rw [wordRuns_append (by decide)] at h
    obtain ⟨outs₁, outs', hfirst, hrest, rfl⟩ := forall₂_append h
    cases hrest with
    | cons hnul hrest =>
      rw [recaseWord_nul] at hnul
      cases hnul
      obtain ⟨hfree, hl⟩ := hlook hfirst hp
      rw [List.flatten_append, List.flatten_cons, List.singleton_append, shape_nul hp,
        shape_nul hfree, hl, ih hrest]

theorem twin_recaseLine {case : LetterCase} {t out : Text} (h : recaseLine case t = .ok out) :
    Twin t out := by
  obtain ⟨outs, hrewrites, rfl⟩ := recaseLine_ok h
  have hfold := hrewrites.folded
  rw [flatten_wordRuns] at hfold
  exact ⟨hfold, shape_rewrites hrewrites⟩

theorem twin_recase {case : LetterCase} {lines out : List Text} (h : recase case lines = .ok out) :
    List.Forall₂ Twin lines out := by
  have hmap : ∀ {out}, lines.mapM (recaseLine case) = .ok out → List.Forall₂ Twin lines out :=
    fun h => (mapM_ok_forall₂ h).imp fun _ _ => twin_recaseLine
  cases case with
  | unchanged =>
    cases h
    exact List.forall₂_same.mpr fun t _ => .refl t
  | proper => exact hmap h
  | upper => exact hmap h
  | lower => exact hmap h

/-! ## Rows -/

theorem SameGaps.packed {b : Bool} {gs gs' : List Text} (h : SameGaps b gs gs') :
    gs.flatMap packed = gs'.flatMap packed := by
  induction h with
  | last h => rw [List.flatMap_singleton, List.flatMap_singleton, packed_of_shape h]
  | cons h _ ih =>
    rw [List.flatMap_cons, List.flatMap_cons, ih, packed_of_shape (shape_init h)]

theorem isRemarkOnly_of_shape {t t' : Text} (h : shape false t = shape false t') :
    isRemarkOnly t = isRemarkOnly t' := by
  have hgaps : ∀ u, isRemarkOnly u = ((cutTokens .remark u).gaps.flatMap packed).all isSpace := by
    intro u
    have hpacked : packed ((cutTokens .remark u).replace fun _ => []) =
        (cutTokens .remark u).gaps.flatMap packed := by
      rw [Weave.replace, packed_append, Weave.gaps, List.flatMap_cons, List.flatMap_map]
      generalize (cutTokens .remark u).rest = rest
      congr 1
      induction rest with
      | nil => rfl
      | cons p rest ih =>
        rw [List.flatMap_cons, packed_append, ih, List.flatMap_cons, List.nil_append]
    rw [← hpacked, all_isSpace_packed]
    rfl
  rw [hgaps, hgaps, (sameGaps_cut .remark h).packed]

/-- Two rows with the same place in the nesting. -/
structure RowTwin (r r' : Row) : Prop where
  text : Twin r.text r'.text
  depth : r.depth = r'.depth
  shift : r.shift = r'.shift

theorem rowAt_twin {l l' : Text} (h : Twin l l') (depth : Nat) :
    RowTwin (rowAt depth l).1 (rowAt depth l').1 ∧ (rowAt depth l).2 = (rowAt depth l').2 := by
  have htrim := h.trim
  have hshift : shiftOf (trim l) = shiftOf (trim l') := by
    rw [← shiftOf_folded, htrim.fold, shiftOf_folded]
  rw [rowAt, rowAt]
  simp only [isRemarkOnly_of_shape htrim.shape, hshift]
  split
  · exact ⟨⟨htrim, rfl, rfl⟩, rfl⟩
  · exact ⟨⟨htrim, rfl, rfl⟩, rfl⟩

theorem nest_twin {lines lines' : List Text} (h : List.Forall₂ Twin lines lines') :
    List.Forall₂ RowTwin (nest lines) (nest lines') := by
  have hfrom : ∀ depth, List.Forall₂ RowTwin (nestFrom depth lines).1 (nestFrom depth lines').1 := by
    induction h with
    | nil => exact fun _ => .nil
    | cons hl _ ih =>
      intro depth
      obtain ⟨hrow, hdepth⟩ := rowAt_twin hl depth
      rw [nestFrom, nestFrom]
      simp only [hdepth]
      exact .cons hrow (ih _)
  exact hfrom 0

theorem maxDepth_twin {rows rows' : List Row} (h : List.Forall₂ RowTwin rows rows') :
    maxDepth rows = maxDepth rows' := by
  have hdepths : rows.map Row.depth = rows'.map Row.depth := by
    induction h with
    | nil => rfl
    | cons hr _ ih => rw [List.map_cons, List.map_cons, ih, hr.depth]
  rw [maxDepth, maxDepth, hdepths]

/-! ## Layout -/

/-- Two lines of two layouts: twins, each behind an indent of its own, or both at the margin. -/
inductive Laid : Text → Text → Prop
  | intro {s s' t t' : Text} (hs : ∀ c ∈ s, isBlank c = true) (hs' : ∀ c ∈ s', isBlank c = true)
    (hmargin : s = [] ↔ s' = []) (h : Twin t t') : Laid (s ++ t) (s' ++ t')

theorem shape_blanks_append {s s' t t' : Text} (hs : ∀ c ∈ s, isBlank c = true)
    (hs' : ∀ c ∈ s', isBlank c = true) (hne : s ≠ []) (hne' : s' ≠ [])
    (h : shape false t = shape false t') : shape false (s ++ t) = shape false (s' ++ t') := by
  have hfree : ∀ {s : Text}, (∀ c ∈ s, isBlank c = true) → '\x00' ∉ s :=
    fun hs hnul => absurd (hs _ hnul) (by decide)
  have hhard : ∀ {s : Text}, (∀ c ∈ s, isBlank c = true) → s ≠ [] → Hard (lastPart s) := by
    intro s hs hne
    obtain ⟨c, s, rfl⟩ := List.exists_cons_of_ne_nil hne
    rw [lastPart_free (hfree hs)]
    exact hard_of_mem List.mem_cons_self
      (isNameChar_of_isBreak (isBreak_of_isSpace (isSpace_of_isBlank (hs c List.mem_cons_self))))
  apply shape_append _ h
  · intro _
    rw [((hhard hs hne).append_right _).ofName?, ((hhard hs' hne').append_right _).ofName?]
  · rw [shape_free (hfree hs), shape_free (hfree hs'), look_outer, look_outer,
      unstyled_blanks hs hne, unstyled_blanks hs' hne']

theorem dropWhile_blanks {p : Char → Bool} (hp : ∀ c, isBlank c = true → p c = true) {s : Text}
    (hs : ∀ c ∈ s, isBlank c = true) (t : Text) : (s ++ t).dropWhile p = t.dropWhile p :=
  List.dropWhile_append_of_pos fun c hc => hp c (hs c hc)

namespace Laid
variable {l l' : Text}

theorem nil : Laid [] [] :=
  @Laid.intro [] [] [] [] (by simp) (by simp) (by simp) (.refl [])

theorem shape (h : Laid l l') : shape false l = shape false l' := by
  cases h with
  | @intro s s' t t' hs hs' hmargin h =>
    by_cases hnil : s = []
    · rw [hnil, hmargin.mp hnil]
      exact h.shape
    · exact shape_blanks_append hs hs' hnil (fun h => hnil (hmargin.mpr h)) h.shape

theorem eq_nil_iff (h : Laid l l') : l = [] ↔ l' = [] := by
  cases h with
  | intro hs hs' hmargin h => rw [List.append_eq_nil_iff, List.append_eq_nil_iff, hmargin, h.eq_nil_iff]

theorem declaresProcedure (h : Laid l l') :
    declaresProcedure (l.dropWhile isSpace) = declaresProcedure (l'.dropWhile isSpace) := by
  cases h with
  | intro hs hs' _ h =>
    rw [dropWhile_blanks (fun _ => isSpace_of_isBlank) hs,
      dropWhile_blanks (fun _ => isSpace_of_isBlank) hs', ← declaresProcedure_folded,
      (h.dropWhile isSpace_anyCase).fold, declaresProcedure_folded]

end Laid

theorem trim_eq_token_of_shape {l l' : Text} (h : shape false l = shape false l') (m : Mark) :
    (trim l == m.token) = (trim l' == m.token) := by
  have htrim := shape_trim h
  rw [Bool.eq_iff_iff, beq_iff_eq, beq_iff_eq]
  constructor
  · intro hl
    rw [hl] at htrim
    exact eq_token_of_shape htrim
  · intro hl
    rw [hl] at htrim
    exact eq_token_of_shape htrim.symm

theorem addLine_nil (above : List Text) :
    addLine above [] = if (above.head?).all List.isEmpty then above else [] :: above := by
  cases above with
  | nil => rfl
  | cons a above => cases a <;> rfl

theorem addLine_code {above : List Text} {line : Text} (hline : line ≠ [])
    (h : ∀ comment rest, above ≠ [] :: comment :: rest) : addLine above line = line :: above := by
  unfold addLine
  split
  · exact absurd rfl hline
  · exact absurd rfl hline
  · exact absurd rfl hline
  · exact absurd rfl (h _ _)
  · rfl

theorem addLine_behind_blank {line : Text} (hline : line ≠ []) (comment : Text)
    (rest : List Text) :
    addLine ([] :: comment :: rest) line =
      if trim comment == Kind.remark.token && declaresProcedure (line.dropWhile isSpace) then
        line :: comment :: rest
      else line :: [] :: comment :: rest := by
  obtain ⟨c, line, rfl⟩ := List.exists_cons_of_ne_nil hline
  rfl

/-- A line is put behind others in the same way in both layouts. -/
theorem addLine_laid {above above' : List Text} {line line' : Text}
    (h : List.Forall₂ Laid above above') (hl : Laid line line') :
    List.Forall₂ Laid (addLine above line) (addLine above' line') := by
  by_cases hline : line = []
  · have hline' := hl.eq_nil_iff.mp hline
    subst hline hline'
    have hhead : (above.head?).all List.isEmpty = (above'.head?).all List.isEmpty := by
      cases h with
      | nil => rfl
      | cons ha _ =>
        show List.isEmpty _ = List.isEmpty _
        rw [Bool.eq_iff_iff, List.isEmpty_iff, List.isEmpty_iff, ha.eq_nil_iff]
    rw [addLine_nil, addLine_nil, hhead]
    split
    · exact h
    · exact .cons .nil h
  · have hline' : line' ≠ [] := fun h => hline (hl.eq_nil_iff.mpr h)
    by_cases hblank : ∃ comment rest, above = [] :: comment :: rest
    · obtain ⟨comment, rest, rfl⟩ := hblank
      cases h with
      | cons ha hrest =>
        cases hrest with
        | @cons _ comment' _ rest' hc hrest =>
          rw [ha.eq_nil_iff.mp rfl, addLine_behind_blank hline, addLine_behind_blank hline',
            hl.declaresProcedure]
          have htoken := trim_eq_token_of_shape hc.shape (.kind .remark)
          rw [show Kind.remark.token = (Mark.kind .remark).token from rfl, htoken]
          split
          · exact .cons hl (.cons hc hrest)
          · exact .cons hl (.cons .nil (.cons hc hrest))
    · have hmiss : ∀ comment rest, above ≠ [] :: comment :: rest :=
        fun comment rest h => hblank ⟨comment, rest, h⟩
      have hmiss' : ∀ comment rest, above' ≠ [] :: comment :: rest := by
        rintro comment rest rfl
        cases h with
        | cons ha hrest =>
          cases hrest with
          | cons hc hrest => exact hmiss _ _ (by rw [ha.eq_nil_iff.mpr rfl])
      rw [addLine_code hline hmiss, addLine_code hline' hmiss']
      exact .cons hl h

theorem tidyBlankLines_laid {lines lines' : List Text} (h : List.Forall₂ Laid lines lines') :
    List.Forall₂ Laid (tidyBlankLines lines) (tidyBlankLines lines') := by
  have hfold : ∀ {above above' : List Text}, List.Forall₂ Laid above above' →
      List.Forall₂ Laid (lines.foldl addLine above) (lines'.foldl addLine above') := by
    induction h with
    | nil => exact fun h => h
    | cons hl _ ih => exact fun h => ih (addLine_laid h hl)
  have hdrop : ∀ {ls ls' : List Text}, List.Forall₂ Laid ls ls' →
      List.Forall₂ Laid (ls.dropWhile (·.isEmpty)) (ls'.dropWhile (·.isEmpty)) := by
    intro ls ls' h
    induction h with
    | nil => exact .nil
    | @cons l l' ls ls' hl hls ih =>
      by_cases hnil : l = []
      · rw [List.dropWhile_cons_of_pos (by simpa using hnil),
          List.dropWhile_cons_of_pos (by simpa using hl.eq_nil_iff.mp hnil)]
        exact ih
      · have hnil' : l' ≠ [] := fun h => hnil (hl.eq_nil_iff.mpr h)
        rw [List.dropWhile_cons_of_neg (by simpa using hnil),
          List.dropWhile_cons_of_neg (by simpa using hnil')]
        exact .cons hl hls
  exact List.rel_reverse (hdrop (hfold .nil))

section
variable {unit unit' : Text} (hu : ∀ c ∈ unit, isBlank c = true) (hne : unit ≠ [])
  (hu' : ∀ c ∈ unit', isBlank c = true) (hne' : unit' ≠ [])
include hu hne hu' hne'

theorem indented_laid {r r' : Row} (h : RowTwin r r') : Laid (indented unit r) (indented unit' r') := by
  have hblank : ∀ {unit : Text}, (∀ c ∈ unit, isBlank c = true) → ∀ n : Nat,
      ∀ c ∈ (List.replicate n unit).flatten, isBlank c = true := by
    intro unit hu n c hc
    obtain ⟨u, hmem, hc⟩ := List.mem_flatten.mp hc
    rw [(List.mem_replicate.mp hmem).2] at hc
    exact hu c hc
  have hmargin : ∀ {unit : Text}, unit ≠ [] → ∀ n : Nat,
      (List.replicate n unit).flatten = [] ↔ n = 0 := by
    intro unit hne n
    cases n with
    | zero => simp
    | succ n => simp [List.replicate_succ, hne]
  have hmarkup : Kind.markup.token.isPrefixOf r.text = Kind.markup.token.isPrefixOf r'.text := by
    rw [Bool.eq_iff_iff, List.isPrefixOf_iff_prefix, List.isPrefixOf_iff_prefix]
    constructor
    · rintro ⟨u, hu⟩
      obtain ⟨u', hu', _⟩ := shape_token (m := .kind .markup) (hu ▸ h.text.shape)
      exact ⟨u', hu'.symm⟩
    · rintro ⟨u, hu⟩
      obtain ⟨u', hu', _⟩ := shape_token (m := .kind .markup) (hu ▸ h.text.shape.symm)
      exact ⟨u', hu'.symm⟩
  rw [indented, indented, hmarkup, h.depth]
  split
  · exact @Laid.intro [] [] _ _ (by simp) (by simp) (by simp) h.text
  · exact .intro (hblank hu _) (hblank hu' _) (by rw [hmargin hne, hmargin hne']) h.text

/-- Two layouts have the same blank lines, and on the other lines twins. -/
theorem layOut_laid {rows rows' : List Row} (h : List.Forall₂ RowTwin rows rows') :
    List.Forall₂ Laid (layOut unit rows) (layOut unit' rows') := by
  apply tidyBlankLines_laid
  induction h with
  | nil => exact .nil
  | @cons r r' rows rows' hr _ ih =>
    rw [List.flatMap_cons, List.flatMap_cons]
    refine List.rel_append ?_ ih
    have hempty : r.text.isEmpty = r'.text.isEmpty := by
      rw [Bool.eq_iff_iff, List.isEmpty_iff, List.isEmpty_iff, hr.text.eq_nil_iff]
    have hline := indented_laid hu hne hu' hne' hr
    rw [spread, spread, hempty, hr.shift]
    split
    · exact .cons .nil .nil
    · refine List.rel_append (List.rel_append ?_ (.cons hline .nil)) ?_
      · split
        · exact .cons .nil .nil
        · exact .nil
      · split
        · exact .cons .nil .nil
        · exact .nil

end

end VbTidy
