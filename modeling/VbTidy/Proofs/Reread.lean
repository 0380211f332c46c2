import VbTidy.Proofs.Phrases
import VbTidy.Proofs.Printed
import VbTidy.Proofs.Relifted

/-
Putting aside again what was put back. Lines whose tokens are filled with their literals are cut at
these again, and masked they are the lines that were filled (`LinesAgain.refilled`). So it is enough
to look at one line and one kind at a time: a line with phrases in place is cut at them
(`cutAgain_resume`), one with its comment there (`cutAgain_remark`), and one with its strings at
these (`cutAgain_string`).
-/
namespace VbTidy

/-! ## Lines filled and cut -/

/-- A line filled with literals of its own is cut at them again. -/
structure CutAgain (k : Kind) (cut : Text → Weave) (line : Text) (own : List Text) : Prop where
  length : own.length = (cutTokens k line).rest.length
  cut_eq : cut ((cutTokens k line).fillWith own) =
    ⟨(cutTokens k line).head, own.zip ((cutTokens k line).rest.map Prod.snd)⟩

/-- Lines filled with literals of their own in a row are cut at them again. -/
inductive LinesAgain (k : Kind) (cut : Text → Weave) : List Text → List Text → Prop
  | nil : LinesAgain k cut [] []
  | cons {line : Text} {lines own ls : List Text} (h : CutAgain k cut line own)
    (hmore : LinesAgain k cut lines ls) : LinesAgain k cut (line :: lines) (own ++ ls)

section
variable {k : Kind} {cut : Text → Weave} {line : Text} {lines own ls : List Text}

theorem CutAgain.hits (h : CutAgain k cut line own) :
    (cut ((cutTokens k line).fillWith own)).hits = own := by
  rw [h.cut_eq]
  exact List.map_fst_zip (by rw [List.length_map, h.length])

theorem CutAgain.gaps (h : CutAgain k cut line own) :
    (cut ((cutTokens k line).fillWith own)).gaps = (cutTokens k line).gaps := by
  rw [h.cut_eq, Weave.gaps, List.map_snd_zip (by rw [List.length_map, h.length])]
  rfl

theorem CutAgain.mask (h : CutAgain k cut line own) :
    Lifting.mask k (cut ((cutTokens k line).fillWith own)) = line := by
  rw [Lifting.mask_eq, Weave.fillWith_congr h.gaps, Weave.rest_length_of_gaps h.gaps,
    ← Lifting.mask_eq, mask_cutTokens]

/-- In front of further literals a line takes its own. -/
theorem CutAgain.fillWith_append (h : CutAgain k cut line own) (ls : List Text) :
    (cutTokens k line).fillWith (own ++ ls) = (cutTokens k line).fillWith own := by
  rw [← Weave.fillWith_take, ← h.length, List.take_left]

/-- A line is its own share of the lines. -/
theorem fillPieces_cons (h : CutAgain k cut line own) (lines ls : List Text) :
    fillPieces k (line :: lines) (own ++ ls) =
      (cutTokens k line).fillWith own :: fillPieces k lines ls := by
  rw [fillPieces, h.fillWith_append, ← h.length, List.drop_left]

/-- Filled lines that are cut again are the lines that were filled, and the literals are those that
they were filled with. -/
theorem LinesAgain.refilled (h : LinesAgain k cut lines ls) :
    maskLines k ((fillPieces k lines ls).map cut) = lines ∧
      literalsOf ((fillPieces k lines ls).map cut) = ls := by
  induction h with
  | nil => exact ⟨rfl, rfl⟩
  | @cons line lines own ls h _ ih =>
    obtain ⟨hmask, hliterals⟩ := ih
    rw [fillPieces_cons h]
    constructor
    · rw [← hmask, maskLines, List.map_cons, List.map_cons, hmask]
      exact congrArg₂ _ h.mask hmask
    · rw [List.map_cons, literalsOf, List.flatMap_cons, h.hits]
      exact congrArg _ hliterals

/-- Each filled line is one of the lines, filled with literals of its own. -/
theorem LinesAgain.of_mem (h : LinesAgain k cut lines ls) {y : Text}
    (hy : y ∈ fillPieces k lines ls) :
    ∃ line ∈ lines, ∃ own, own ⊆ ls ∧ CutAgain k cut line own ∧
      y = (cutTokens k line).fillWith own := by
  induction h with
  | nil => cases hy
  | @cons line lines own ls h _ ih =>
    rw [fillPieces_cons h] at hy
    rcases List.mem_cons.mp hy with rfl | hy
    · exact ⟨line, List.mem_cons_self, own, List.subset_append_left _ _, h, rfl⟩
    · obtain ⟨line', hline', own', hown', hcut, rfl⟩ := ih hy
      exact ⟨line', List.mem_cons_of_mem line hline', own', List.subset_append_of_subset_right _ hown',
        hcut, rfl⟩

/-- Lines are cut again if they take all literals and each line is cut at any of them. -/
theorem linesAgain_of_tally (hlen : tokensIn k lines = ls.length)
    (h : ∀ line ∈ lines, ∀ own, own ⊆ ls → own.length = (cutTokens k line).rest.length →
      CutAgain k cut line own) : LinesAgain k cut lines ls := by
  induction lines generalizing ls with
  | nil =>
    obtain rfl : ls = [] := List.length_eq_zero_iff.mp hlen.symm
    exact .nil
  | cons line lines ih =>
    have hcount : (cutTokens k line).rest.length + tokensIn k lines = ls.length := hlen
    rw [← List.take_append_drop (cutTokens k line).rest.length ls]
    refine .cons (h line List.mem_cons_self _ (List.take_subset _ _) ?_) (ih ?_ ?_)
    · rw [List.length_take]
      omega
    · rw [List.length_drop]
      omega
    · exact fun line' hline' own hown =>
        h line' (List.mem_cons_of_mem line hline') own (List.Subset.trans hown (List.drop_subset _ _))

end

/-! ## Error phrases -/

/-- A line with its error phrases in place. -/
def phrased (line : Text) : Text :=
  (cutTokens .resume line).replace fun _ => resumePhrase

theorem phrased_eq (line : Text) : phrased line =
    (cutTokens .resume line).fillWith
      (List.replicate (cutTokens .resume line).rest.length resumePhrase) :=
  Weave.replace_eq_fillWith _ _

theorem fitting_resumePhrase : Fitting .resume resumePhrase where
  sound := .of_nul_free (by decide)
  shuts := by
    intro k _
    refine ⟨.of_nul_free (by decide), by decide, ?_, fun b _ _ => ?_⟩
    · intro c hc
      obtain rfl : 'O' = c := Option.some.inj hc
      cases k <;> decide
    · rw [stray_nul_free_append (by decide)]
      simp [not_stray_nul_free (k := k) (show '\x00' ∉ resumePhrase by decide)]
  clear := fun _ _ => not_stray_nul_free (by decide)
  free := fun _ => by decide

theorem mem_restock {k : Kind} {ls : List (List Mark)} {ms : List Mark} {m : Mark}
    (h : m ∈ restock k ls ms) : m ∈ ms ∨ ∃ l ∈ ls, m ∈ l := by
  induction ms generalizing ls with
  | nil => cases h
  | cons m' ms ih =>
    rw [restock] at h
    split at h
    · rcases List.mem_append.mp h with h | h
      · cases ls with
        | nil => cases h
        | cons l ls => exact .inr ⟨l, List.mem_cons_self, h⟩
      · rcases ih h with h | ⟨l, hl, h⟩
        · exact .inl (List.mem_cons_of_mem m' h)
        · exact .inr ⟨l, List.mem_of_mem_tail hl, h⟩
    · rcases List.mem_cons.mp h with rfl | h
      · exact .inl List.mem_cons_self
      · rcases ih h with h | h
        · exact .inl (List.mem_cons_of_mem m' h)
        · exact .inr h

/-- With its phrases in place a line is fit for its comment, and has no further marks. -/
theorem fit_phrased {line : Text} (h : Fit 0 line) :
    Fit 1 (phrased line) ∧ ∀ m ∈ marks (phrased line), m ∈ marks line := by
  have hlen : (List.replicate (cutTokens .resume line).rest.length resumePhrase).length =
      (cutTokens .resume line).rest.length := List.length_replicate
  have hfill := Fit.fill (j := .resume) (p := line) h
    (fun l hl => List.eq_of_mem_replicate hl ▸ fitting_resumePhrase) (Nat.le_of_eq hlen.symm)
  rw [← phrased_eq] at hfill
  refine ⟨hfill.1, fun m hm => ?_⟩
  rw [hfill.2] at hm
  rcases mem_restock hm with hm | ⟨ms, hms, hm⟩
  · exact hm
  · rw [List.map_replicate] at hms
    rw [List.eq_of_mem_replicate hms, marks_nul_free (by decide)] at hm
    cases hm

/-- Lines are filled with phrases, of which one is like the other. -/
theorem fillPieces_phrases {lines ls : List Text} (hls : ∀ l ∈ ls, l = resumePhrase)
    (hlen : tokensIn .resume lines ≤ ls.length) :
    fillPieces .resume lines ls = lines.map phrased := by
  induction lines generalizing ls with
  | nil => rfl
  | cons line lines ih =>
    have hcount : (cutTokens .resume line).rest.length + tokensIn .resume lines ≤ ls.length := hlen
    have htake : ls.take (cutTokens .resume line).rest.length =
        List.replicate (cutTokens .resume line).rest.length resumePhrase := by
      rw [List.eq_replicate_iff, List.length_take]
      exact ⟨by omega, fun l hl => hls l (List.mem_of_mem_take hl)⟩
    rw [fillPieces, ← Weave.fillWith_take, htake, ← phrased_eq,
      ih (fun l hl => hls l (List.mem_of_mem_drop hl)) (by rw [List.length_drop]; omega)]
    rfl

/-- What the passes leave of a line out of which phrases were taken is that line once phrases are
back, apart from white space and letter case. -/
theorem squeezed_phrased {m w : Text} (hm : Sound 1 m) (hw : Fit 0 w)
    (h : squeezed w = squeezed (Lifting.mask .resume (cutResume m))) :
    squeezed (phrased w) = squeezed m := by
  have hgaps := gaps_of_squeezed (k := .resume) (soundCut_resume hm)
    (cut_sound hw.sound (hw.clear .resume (Nat.le_refl _))) h
  have hlen : (cutTokens .resume w).rest.length = (cutResume m).hits.length := by
    have := congrArg List.length hgaps
    simpa [Weave.gaps, Weave.hits] using this
  have hhits : (cutResume m).hits.map squeezed =
      List.replicate (cutResume m).hits.length (squeezed resumePhrase) := by
    rw [List.eq_replicate_iff, List.length_map]
    refine ⟨rfl, fun l hl => ?_⟩
    obtain ⟨x, hx, rfl⟩ := List.mem_map.mp hl
    exact (hit_resume hx).1
  rw [← Weave.gaps_mapGaps, ← Weave.gaps_mapGaps] at hgaps
  calc squeezed (phrased w)
      = ((cutTokens .resume w).mapGaps squeezed).fillWith
          ((cutResume m).hits.map squeezed) := by
        rw [phrased_eq, Weave.squeezed_fillWith, List.map_replicate, hlen, hhits]
    _ = ((cutResume m).mapGaps squeezed).fillWith ((cutResume m).hits.map squeezed) :=
        Weave.fillWith_congr hgaps _
    _ = squeezed m := by
        rw [← Weave.squeezed_fillWith, Weave.fillWith_hits, source_cutResume]

theorem apart_of_last {part a b : Text} {c : Char} (hc : c ∉ part) :
    Pattern.Apart part (a ++ [c]) b := by
  intro s hs hp hne
  rcases Pattern.prefix_or_of_append hp with h | ⟨d, p, rfl, _⟩
  · exact h
  · rcases List.eq_nil_or_concat s with rfl | ⟨s, e, rfl⟩
    · exact absurd rfl hne
    · rw [List.concat_eq_append] at hs hc
      obtain ⟨r, hr⟩ := hs
      rw [← List.append_assoc] at hr
      obtain rfl : e = c := List.singleton_inj.mp (List.append_inj' hr rfl).2
      simp at hc

/-- Two texts in a row with a break at the end of the first are cut one after the other. -/
theorem cutTokens_append_of_last (k : Kind) {a b : Text} (ha : (a.getLast?).all isBreak = true) :
    cutTokens k (a ++ b) = (cutTokens k a).append (cutTokens k b) := by
  rcases List.eq_nil_or_concat a with rfl | ⟨a, c, rfl⟩
  · rw [List.nil_append, cutTokens_nil, Weave.nil_append]
  · rw [List.concat_eq_append] at ha ⊢
    have hc : isBreak c = true := by simpa using ha
    exact Pattern.weave_append k.token_ne_nil (apart_of_last
      (Mark.not_mem_token (m := .kind k) (ne_nul_of_isBreak hc) (isNameChar_of_isBreak hc)))

theorem phrased_append {a b : Text} (ha : (a.getLast?).all isBreak = true) :
    phrased (a ++ b) = phrased a ++ phrased b := by
  rw [phrased, cutTokens_append_of_last .resume ha, Weave.replace_append]
  rfl

theorem phrased_nul_free {t : Text} (h : '\x00' ∉ t) : phrased t = t := by
  rw [phrased, cutTokens_free .resume h]
  simp [Weave.replace]

/-- A break at the end stays there. -/
theorem getLast_phrased {t : Text} (ht : (t.getLast?).all isBreak = true) :
    ((phrased t).getLast?).all isBreak = true := by
  rcases List.eq_nil_or_concat t with rfl | ⟨t, c, rfl⟩
  · rfl
  · rw [List.concat_eq_append] at ht ⊢
    have hc : isBreak c = true := by simpa using ht
    have happend : phrased (t ++ [c]) = phrased t ++ phrased [c] := by
      rw [phrased, cutTokens_append (by simpa using hc), Weave.replace_append]
      rfl
    have hfree : '\x00' ∉ [c] := by simpa using (ne_nul_of_isBreak hc).symm
    rw [happend, phrased_nul_free hfree]
    simpa using hc

theorem zip_replicate (l : Text) (rest : List (Text × Text)) :
    (List.replicate rest.length l).zip (rest.map Prod.snd) = rest.map fun p => (l, p.2) := by
  induction rest with
  | nil => rfl
  | cons p rest ih => simp [List.replicate_succ, ih]

/-- The words between the phrases are words of the line. -/
theorem lineWords_of_gap {line x : Text} (hx : x ∈ (cutTokens .resume line).gaps) :
    lineWords x <:+: lineWords line := by
  have hgap : lineWords x <:+: lineWords (Lifting.mask .resume (cutTokens .resume line)) :=
    lineWords_gap .resume hx
  rwa [mask_cutTokens] at hgap

/-! ## Lines that are ready -/

/-- A line off which nothing more would be put aside: it has no quote and no apostrophe, and neither
an error phrase nor Rem among its words. -/
structure Ready (line : Text) : Prop where
  clear : Clear line
  apart : ¬ twinPhrases <:+: line
  phrase : ¬ HasPhrase line
  rem : "rem".toList ∉ lineWords line
  signs : ∀ c ∈ line, c ≠ '"' ∧ c ≠ '\''

namespace Ready

variable {line : Text} (h : Ready line)
include h

theorem sound_gaps : ∀ x ∈ (cutTokens .resume line).gaps, Sound 1 x :=
  cut_sound h.clear.settled.sound (h.clear.clear .resume)

theorem places : FreePlaces (cutTokens .resume line).head (cutTokens .resume line).rest := by
  have hmask : Lifting.mask .resume
      ⟨(cutTokens .resume line).head, (cutTokens .resume line).rest⟩ = line :=
    mask_cutTokens .resume line
  refine freePlaces_of_calm ?_ (fun x hx => (h.sound_gaps x hx).mono (by decide)) ?_
  · rw [hmask]
    exact h.clear.settled.calm
  · rw [hmask]
    exact h.apart

/-- With its phrases in place the line is cut at them. -/
theorem cutAgain_resume {own : List Text} (hlen : own.length = (cutTokens .resume line).rest.length)
    (hown : ∀ l ∈ own, l = resumePhrase) : CutAgain .resume cutResume line own where
  length := hlen
  cut_eq := by
    obtain rfl : own = List.replicate (cutTokens .resume line).rest.length resumePhrase :=
      List.eq_replicate_iff.mpr ⟨hlen, hown⟩
    have hstart : wordAt none = false := rfl
    have hcut := cutResume_fillFrom h.places
      (fun x hx hphrase => h.phrase (hphrase.trans (lineWords_of_gap hx))) fun _ _ => hstart
    exact hcut.trans (congrArg (Weave.mk _) (zip_replicate _ _).symm)

theorem rem_phrased : "rem".toList ∉ lineWords (phrased line) := by
  rw [phrased_eq]
  intro hmem
  rcases mem_lineWords_fill h.places hmem with ⟨x, hx, hmem⟩ | hmem
  · exact h.rem ((lineWords_of_gap hx).subset hmem)
  · exact absurd hmem (by decide)

theorem signs_phrased : ∀ c ∈ phrased line, c ≠ '"' ∧ c ≠ '\'' := by
  intro c hc
  rw [phrased_eq] at hc
  rcases mem_fillWith hc with hg | ⟨l, hl, hc⟩
  · have hsource : (cutTokens .resume line).source = line := Pattern.source_weave _ _
    exact h.signs c (hsource ▸ mem_source.mpr (.inl hg))
  · rw [List.eq_of_mem_replicate hl] at hc
    have key : ∀ c ∈ resumePhrase, c ≠ '"' ∧ c ≠ '\'' := by decide
    exact key c hc

end Ready

/-! ## Comments -/

/-- A line is code, or code that is set apart from a comment behind it. -/
theorem Clear.comment_cases {line : Text} (h : Clear line) :
    Mark.kind .remark ∉ marks line ∨ ∃ code, line = code ++ Kind.remark.token ∧ Fit 0 code ∧
      Mark.kind .remark ∉ marks code ∧ (code.getLast?).all isBreak = true := by
  rcases h.settled.toOrderly.cases with ht | ⟨code, hcode, rfl⟩
  · exact .inl ht.plain
  · refine .inr ⟨code, rfl, (Fit.split hcode.sound h.fit).1, hcode.plain, ?_⟩
    have hspace := h.settled.apart code [] ⟨by rw [List.append_nil], hcode.sound⟩
    cases hlast : code.getLast? with
    | none => rfl
    | some c =>
      rw [hlast] at hspace
      exact isBreak_of_isSpace hspace

/-- In code no comment is found. -/
theorem cutTokens_remark_code {code : Text} (h : Fit 0 code) (hplain : Mark.kind .remark ∉ marks code) :
    cutTokens .remark (phrased code) = ⟨phrased code, []⟩ := by
  obtain ⟨hfit, hmarks⟩ := fit_phrased h
  have htokens := Fit.tokens (k := .remark) hfit
  rw [List.count_eq_zero.mpr fun hmem => hplain (hmarks _ hmem)] at htokens
  have hsource : (cutTokens .remark (phrased code)).source = phrased code := Pattern.source_weave _ _
  generalize cutTokens .remark (phrased code) = w at htokens hsource
  obtain ⟨head, rest⟩ := w
  obtain rfl : rest = [] := List.length_eq_zero_iff.mp htokens
  rw [← hsource]
  simp [Weave.source]

theorem phrased_remark : phrased Kind.remark.token = Kind.remark.token := by
  decide

/-- A comment is found behind the code. -/
theorem cutTokens_remark_comment {code : Text} (h : Fit 0 code)
    (hplain : Mark.kind .remark ∉ marks code) (hbreak : (code.getLast?).all isBreak = true) :
    phrased (code ++ Kind.remark.token) = phrased code ++ Kind.remark.token ∧
      cutTokens .remark (phrased (code ++ Kind.remark.token)) =
        ⟨phrased code, [(Kind.remark.token, [])]⟩ := by
  have hphrased : phrased (code ++ Kind.remark.token) = phrased code ++ Kind.remark.token := by
    rw [phrased_append hbreak, phrased_remark]
  refine ⟨hphrased, ?_⟩
  have htoken : cutTokens .remark Kind.remark.token = ⟨[], [(Kind.remark.token, [])]⟩ := by
    decide
  rw [hphrased, cutTokens_append_of_last .remark (getLast_phrased hbreak),
    cutTokens_remark_code h hplain, htoken]
  simp [Weave.append_last]

theorem cutRemark_code {code : Text} (hsigns : ∀ c ∈ code, c ≠ '"' ∧ c ≠ '\'')
    (hrem : "rem".toList ∉ lineWords code) : cutRemark code = ⟨code, []⟩ := by
  have hsplit : splitRemark code = (code, []) := by
    have := splitFrom_comment (u := []) (v := code) (c := []) (fun h => (hsigns _ h).1 rfl)
      (fun h => (hsigns _ h).2 rfl) hrem (.inl rfl)
    rwa [List.append_nil] at this
  rcases cutRemark_eq code with ⟨hcut, _⟩ | ⟨_, hstart⟩
  · rw [hcut, hsplit]
  · rw [hsplit] at hstart
    exact absurd rfl hstart.ne_nil

theorem cutRemark_comment {code c : Text} (hsigns : ∀ c ∈ code, c ≠ '"' ∧ c ≠ '\'')
    (hrem : "rem".toList ∉ lineWords code) (hc : remarkHere code.reverse c = true) :
    cutRemark (code ++ c) = ⟨code, [(c, [])]⟩ := by
  have hsplit : splitRemark (code ++ c) = (code, c) :=
    splitFrom_comment (u := []) (fun h => (hsigns _ h).1 rfl) (fun h => (hsigns _ h).2 rfl) hrem
      (.inr hc)
  rcases cutRemark_eq (code ++ c) with ⟨_, hnone⟩ | ⟨hcut, _⟩
  · rw [hsplit] at hnone
    obtain ⟨d, hd, _⟩ := remarkHere_head hc
    rw [show c = [] from hnone] at hd
    cases hd
  · rw [hcut, hsplit]

/-- The comment that a line brings: none if it is code, and otherwise one that starts behind its
code. -/
def Brings (line : Text) (own : List Text) : Prop :=
  (own = [] ∧ Mark.kind .remark ∉ marks line) ∨ ∃ c code, own = [c] ∧
    Occurs (.kind .remark) code [] line ∧ remarkHere (phrased code).reverse c = true

/-- With its comment in place the line is cut there. -/
theorem Ready.cutAgain_remark {line : Text} {own : List Text} (h : Ready line)
    (hown : Brings line own) : CutAgain .remark cutRemark (phrased line) own := by
  rcases hown with ⟨rfl, hplain⟩ | ⟨c, code, rfl, hoccurs, hc⟩
  · have hcut := cutTokens_remark_code h.clear.fit hplain
    refine ⟨by rw [hcut]; rfl, ?_⟩
    rw [hcut]
    simpa [Weave.fillWith] using cutRemark_code h.signs_phrased h.rem_phrased
  · rcases h.clear.comment_cases with hplain | ⟨code', hline', hfit, hplain, hbreak⟩
    · exact absurd hoccurs.mem_marks hplain
    · have hline : line = code ++ Kind.remark.token := by
        rw [hoccurs.eq, List.append_nil]
        rfl
      obtain rfl : code = code' := List.append_cancel_right (hline.symm.trans hline')
      obtain ⟨hphrased, hcut⟩ := cutTokens_remark_comment hfit hplain hbreak
      have hrem := h.rem_phrased
      have hsigns := h.signs_phrased
      rw [hline, hphrased] at hrem hsigns
      rw [hline]
      refine ⟨by rw [hcut]; rfl, ?_⟩
      rw [hcut]
      have hcode := cutRemark_comment (fun d hd => hsigns d (List.mem_append_left _ hd))
        (fun hmem => hrem ?_) hc
      · simpa [Weave.fillWith] using hcode
      · rw [lineWords_append (.inr (by decide))]
        exact List.mem_append_left _ hmem

/-- Blank lines bring no comment. -/
theorem brings_blank {line : Text} (h : trim line = []) : Brings line [] := by
  refine .inl ⟨rfl, ?_⟩
  rw [marks_nul_free fun hmem => ?_]
  · exact List.not_mem_nil
  · have := trim_eq_nil_iff.mp h _ hmem
    cases this

/-- Lines with comments in place are cut at them, blank lines left out of the count. -/
theorem linesAgain_remark {lines : List Text} {owns : List (List Text)}
    (hready : ∀ line ∈ lines, Ready line) (h : List.Forall₂ Brings (inky lines) owns) :
    LinesAgain .remark cutRemark (lines.map phrased) owns.flatten := by
  induction lines generalizing owns with
  | nil =>
    cases h
    exact .nil
  | cons line lines ih =>
    have hline := hready line List.mem_cons_self
    have hmore := fun l hl => hready l (List.mem_cons_of_mem line hl)
    by_cases hblank : trim line = []
    · rw [inky, List.filter_cons_of_neg (by simpa using hblank)] at h
      rw [List.map_cons, ← List.nil_append owns.flatten]
      exact .cons (hline.cutAgain_remark (brings_blank hblank)) (ih hmore h)
    · rw [inky, List.filter_cons_of_pos (by simpa using hblank)] at h
      cases h with
      | cons hown h => exact .cons (hline.cutAgain_remark hown) (ih hmore h)

/-! ## Strings -/

/-- With its strings in place a line is cut at them. -/
theorem cutAgain_string {line : Text} {own : List Text}
    (hlen : own.length = (cutTokens .string line).rest.length)
    (hown : ∀ s ∈ own, QuotedString s) (hnul : ∀ g ∈ (cutTokens .string line).gaps, '\x00' ∉ g)
    (hquote : '"' ∉ (splitRemark line).1) (hremark : '\x00' ∉ (splitRemark line).2) :
    CutAgain .string cutStrings line own where
  length := hlen
  cut_eq := by
    have hmask := mask_cutTokens .string line
    rw [splitRemark_eq, ← hmask] at hquote hremark
    rw [cutStrings_from]
    generalize cutTokens .string line = w at hlen hnul hquote hremark ⊢
    exact stringsFrom_fill rfl hlen hown hnul hquote hremark

/-! ## Documents -/

theorem PerKind.eq_of_get {α : Type} {f g : PerKind α} (h : ∀ k, f.get k = g.get k) : f = g := by
  obtain ⟨_, _, _, _, _⟩ := f
  obtain ⟨_, _, _, _, _⟩ := g
  exact PerKind.mk.injEq .. |>.mpr ⟨h .markup, h .delimiter, h .string, h .remark, h .resume⟩

/-- What a script is printed from is put aside from it again, if the lines are cut where they were
filled. -/
theorem lift_printed {text : Text} {s : Shelves} {lines : List Text} (h : PlainScript text)
    (hfence : fenceScripts text = text) (htext : splitLines text = printed s plainKinds lines)
    (hmarkup : s.get .markup = []) (hdelimiter : s.get .delimiter = [])
    (hphrases : ∀ l ∈ s.get .resume, l = resumePhrase)
    (hresume : LinesAgain .resume cutResume lines (s.get .resume))
    (hremark : LinesAgain .remark cutRemark (fillPieces .resume lines (s.get .resume))
      (s.get .remark))
    (hstring : LinesAgain .string cutStrings
      (fillPieces .remark (fillPieces .resume lines (s.get .resume)) (s.get .remark))
      (s.get .string)) :
    (Lifting.result text).lines = lines ∧ (Lifting.result text).shelves = s := by
  obtain ⟨hmask₁, hlits₁⟩ := hstring.refilled
  obtain ⟨hmask₂, hlits₂⟩ := hremark.refilled
  obtain ⟨hmask₃, hlits₃⟩ := hresume.refilled
  have hstrings : Lifting.strings text = (fillPieces .string (fillPieces .remark
      (fillPieces .resume lines (s.get .resume)) (s.get .remark)) (s.get .string)).map cutStrings := by
    rw [h.strings_eq hfence, htext]
    rfl
  have hremarks : Lifting.remarks text = (fillPieces .remark
      (fillPieces .resume lines (s.get .resume)) (s.get .remark)).map cutRemark := by
    rw [Lifting.remarks, hstrings, hmask₁]
  have hresumes : Lifting.resumes text =
      (fillPieces .resume lines (s.get .resume)).map cutResume := by
    rw [Lifting.resumes, hremarks, hmask₂]
  refine ⟨by rw [Lifting.lines_result, hresumes, hmask₃], ?_⟩
  have hphrase : resumeLiterals (Lifting.resumes text) = s.get .resume := by
    rw [resumeLiterals, hresumes, hlits₃]
    exact (List.map_congr_left fun l hl => (hphrases l hl).symm).trans (List.map_id _)
  refine PerKind.eq_of_get fun k => ?_
  cases k with
  | markup => rw [h.markup_shelf hfence, hmarkup]
  | delimiter => rw [h.delimiter_shelf hfence, hdelimiter]
  | string => rw [Lifting.result, PerKind.get, hstrings, hlits₁]
  | remark => rw [Lifting.result, PerKind.get, hremarks, hlits₂]
  | resume => rw [Lifting.result, PerKind.get, hphrase]

end VbTidy
