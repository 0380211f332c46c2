import VbTidy.Proofs.Masked
import VbTidy.Proofs.Rejected
import VbTidy.Proofs.Unbroken

/-
The text of a plain script, one without markup, delimiters and fences. It is the worked lines, each
filled with its own literals, and cutting it into lines gives these filled lines back
(`splitLines_text`).
-/
namespace VbTidy

/-! ## Filling line by line -/

theorem Weave.fillWith_append_drop {w v : Weave} {ls : List Text}
    (h : w.rest.length ≤ ls.length) :
    (w.append v).fillWith ls = w.fillWith ls ++ v.fillWith (ls.drop w.rest.length) := by
  have hlen : (ls.take w.rest.length).length = w.rest.length := by simp [h]
  calc (w.append v).fillWith ls
      = (w.append v).fillWith (ls.take w.rest.length ++ ls.drop w.rest.length) := by
        rw [List.take_append_drop]
    _ = w.fillWith (ls.take w.rest.length) ++ v.fillWith (ls.drop w.rest.length) :=
        Weave.fillWith_append _ _ w v hlen
    _ = w.fillWith ls ++ v.fillWith (ls.drop w.rest.length) := by rw [Weave.fillWith_take]

theorem fillWith_prepend (s : Text) (ls : List Text) (w : Weave) :
    (w.prepend s).fillWith ls = s ++ w.fillWith ls := by
  simp [Weave.fillWith, Weave.prepend]

theorem closeLines_nil (newline : Text) (finalNewline : Bool) :
    closeLines newline finalNewline [] = [] := by
  simp [closeLines]

theorem closeLines_cons (newline : Text) (finalNewline : Bool) (l l' : Text) (ls : List Text) :
    closeLines newline finalNewline (l :: l' :: ls) =
      l ++ (newline ++ closeLines newline finalNewline (l' :: ls)) := by
  simp [closeLines, joinLines_cons_cons]

theorem closeLines_singleton (newline : Text) (finalNewline : Bool) (l : Text) :
    closeLines newline finalNewline [l] = l ++ if finalNewline then newline else [] := by
  cases finalNewline <;> simp [closeLines]

theorem cutTokens_append {k : Kind} {a b : Text} (hb : (b.head?).all isBreak = true) :
    cutTokens k (a ++ b) = (cutTokens k a).append (cutTokens k b) := by
  refine Pattern.weave_append k.token_ne_nil (Pattern.apart_of_head fun d hd => ?_)
  rw [hd] at hb
  have hbreak : isBreak d = true := hb
  exact Mark.not_mem_token (m := .kind k) (ne_nul_of_isBreak hbreak) (isNameChar_of_isBreak hbreak)

section
variable {newline : Text} (hne : newline ≠ []) (hn : ∀ c ∈ newline, isBreak c = true)
include hne hn

theorem cutTokens_newline (k : Kind) (a b : Text) :
    cutTokens k (a ++ (newline ++ b)) =
      (cutTokens k a).append ((cutTokens k b).prepend newline) := by
  have hnul : '\x00' ∉ newline := fun h => ne_nul_of_isBreak (hn _ h) rfl
  rw [cutTokens_append (head_breaks_append hne hn b), cutTokens_nul_free k hnul]

theorem cutTokens_newline_end (k : Kind) (a : Text) :
    cutTokens k (a ++ newline) = (cutTokens k a).append ⟨newline, []⟩ := by
  have h := cutTokens_newline hne hn k a []
  rw [List.append_nil, cutTokens_nil] at h
  simpa [Weave.prepend] using h

/-- Joined lines have the tokens of the lines. -/
theorem tokens_closeLines (k : Kind) (finalNewline : Bool) (lines : List Text) :
    (cutTokens k (closeLines newline finalNewline lines)).rest.length = tokensIn k lines := by
  induction lines with
  | nil =>
    rw [closeLines_nil, cutTokens_nil]
    rfl
  | cons l lines ih =>
    cases lines with
    | nil =>
      rw [closeLines_singleton]
      cases finalNewline with
      | false => simp [tokensIn]
      | true =>
        rw [if_pos rfl, cutTokens_newline_end hne hn, Weave.rest_append]
        simp [tokensIn]
    | cons l' lines =>
      rw [closeLines_cons, cutTokens_newline hne hn, Weave.rest_append]
      show _ + (cutTokens k (closeLines newline finalNewline (l' :: lines))).rest.length = _
      rw [ih]
      simp [tokensIn]

/-- Joined lines are filled line by line. -/
theorem fill_closeLines {k : Kind} {finalNewline : Bool} {lines ls : List Text}
    (h : tokensIn k lines ≤ ls.length) :
    (cutTokens k (closeLines newline finalNewline lines)).fillWith ls =
      closeLines newline finalNewline (fillPieces k lines ls) := by
  induction lines generalizing ls with
  | nil =>
    rw [closeLines_nil, cutTokens_nil, fillPieces, closeLines_nil]
    simp [Weave.fillWith]
  | cons l lines ih =>
    have hcount : tokensIn k (l :: lines) = (cutTokens k l).rest.length + tokensIn k lines := by
      simp [tokensIn]
    have hl : (cutTokens k l).rest.length ≤ ls.length := by omega
    cases lines with
    | nil =>
      rw [closeLines_singleton, fillPieces, fillPieces, closeLines_singleton]
      cases finalNewline with
      | false => simp
      | true =>
        rw [if_pos rfl, cutTokens_newline_end hne hn, Weave.fillWith_append_drop hl]
        simp [Weave.fillWith]
    | cons l' lines =>
      have hmore : tokensIn k (l' :: lines) ≤ (ls.drop (cutTokens k l).rest.length).length := by
        rw [List.length_drop]
        omega
      rw [closeLines_cons, cutTokens_newline hne hn, Weave.fillWith_append_drop hl,
        fillWith_prepend, ih hmore]
      exact (closeLines_cons newline finalNewline _ _ _).symm

end

/-- Lines with the literals of some kinds put back, kind after kind. -/
def printed (s : Shelves) : List Kind → List Text → List Text
  | [], lines => lines
  | k :: ks, lines => printed s ks (fillPieces k lines (s.get k))

theorem fillWith_of_rest {w : Weave} (h : w.rest.length = 0) (ls : List Text) :
    w.fillWith ls = w.source := by
  have hrest : w.rest = [] := List.length_eq_zero_iff.mp h
  simp [Weave.fillWith, Weave.source, hrest]

/-- The kinds that a plain script may have, in the order in which they are put back. -/
def plainKinds : List Kind :=
  [.resume, .remark, .string]

section
variable {newline : Text} (hne : newline ≠ []) (hn : ∀ c ∈ newline, isBreak c = true)
  {finalNewline : Bool} {lines : List Text} {s : Shelves}
include hne hn

/-- A kind whose tokens are as many as its literals is filled line by line. -/
theorem filled_closeLines {k : Kind} {lines : List Text}
    (h : (cutTokens k (closeLines newline finalNewline lines)).rest.length = (s.get k).length) :
    (cutTokens k (closeLines newline finalNewline lines)).fillWith (s.get k) =
      closeLines newline finalNewline (fillPieces k lines (s.get k)) ∧
    tokensIn k lines = (s.get k).length := by
  rw [tokens_closeLines hne hn] at h
  exact ⟨fill_closeLines hne hn (Nat.le_of_eq h), h⟩

/-- Without markup and delimiters the text put back is the printed lines. -/
theorem backText_printed (hm : Matched s (closeLines newline finalNewline lines))
    (hdelimiter : s.get .delimiter = []) (hmarkup : s.get .markup = []) :
    backText s (closeLines newline finalNewline lines) =
        closeLines newline finalNewline (printed s plainKinds lines) ∧
      filled s (closeLines newline finalNewline lines) .markup =
        closeLines newline finalNewline (printed s plainKinds lines) ∧
      Tally s plainKinds lines := by
  have hsource : ∀ k t, (cutTokens k t).source = t := fun k t => Pattern.source_weave _ t
  obtain ⟨hresume, htokens⟩ := filled_closeLines hne hn (hm .resume)
  have hm₁ := hm .remark
  rw [backCut_remark, filled, backCut_resume, hresume] at hm₁
  obtain ⟨hremark, htokens₁⟩ := filled_closeLines hne hn hm₁
  have hremark' : filled s (closeLines newline finalNewline lines) .remark =
      closeLines newline finalNewline (printed s [.resume, .remark] lines) := by
    rw [filled, backCut_remark, filled, backCut_resume, hresume]
    exact hremark
  have hm₂ := hm .string
  rw [backCut_string, hremark'] at hm₂
  obtain ⟨hstring, htokens₂⟩ := filled_closeLines hne hn hm₂
  have hstring' : filled s (closeLines newline finalNewline lines) .string =
      closeLines newline finalNewline (printed s plainKinds lines) := by
    rw [filled, backCut_string, hremark']
    exact hstring
  -- The last two kinds have no literals, so that they find no tokens and change nothing.
  have hm₃ := hm .delimiter
  rw [hdelimiter, backCut_delimiter, hstring'] at hm₃
  have hdelimiter' : filled s (closeLines newline finalNewline lines) .delimiter =
      closeLines newline finalNewline (printed s plainKinds lines) := by
    rw [filled, backCut_delimiter, hstring', fillWith_of_rest hm₃, hsource]
  have hm₄ := hm .markup
  rw [hmarkup, backCut_markup, hdelimiter'] at hm₄
  refine ⟨?_, ?_, htokens, htokens₁, htokens₂, trivial⟩
  · rw [backText, hmarkup, backCut_markup, hdelimiter', List.zip_nil_left, joinPadded]
    have hhead := fillWith_of_rest hm₄ []
    rw [hsource] at hhead
    simpa [Weave.fillWith] using hhead
  · rw [filled, backCut_markup, hdelimiter', fillWith_of_rest hm₄, hsource]

end

/-! ## Plain scripts -/

theorem hasPart_iff {part t : Text} : hasPart part t = true ↔ part <:+: t := by
  induction t with
  | nil => simp [hasPart]
  | cons c t ih =>
    rw [hasPart, Bool.or_eq_true, ih, List.isPrefixOf_iff_prefix, List.infix_cons_iff]

theorem not_prefix_of_hasPart {part t u : Text} (h : hasPart part t = false) (hu : u <:+ t) :
    ¬ part <+: u := by
  intro hp
  have hinfix : hasPart part t = true := hasPart_iff.mpr (hp.isInfix.trans hu.isInfix)
  rw [h] at hinfix
  cases hinfix

/-- A script without a delimiter of markup or of client comments. -/
structure PlainScript (t : Text) : Prop where
  nul : '\x00' ∉ t
  opening : hasPart "<%".toList t = false
  closing : hasPart "%>".toList t = false
  commentOpening : hasPart "<!--".toList t = false
  commentClosing : hasPart "-->".toList t = false

theorem startsInMarkup_of_no_opening {t : Text} (h : hasPart "<%".toList t = false) :
    startsInMarkup t = false := by
  induction t using startsInMarkup.induct with
  | case1 => rfl
  | case2 t =>
    exact absurd (List.prefix_append ['<', '%'] t)
      (not_prefix_of_hasPart h (List.suffix_refl _))
  | case3 => rfl
  | case4 c t h₁ h₂ ih =>
    rw [startsInMarkup]
    · apply ih
      rw [hasPart, Bool.or_eq_false_iff] at h
      exact h.2
    · exact h₁
    · exact h₂

theorem cutCode_of_no_closing {t : Text} (h : hasPart "%>".toList t = false) :
    cutCode t = ⟨t, []⟩ := by
  induction t with
  | nil => rfl
  | cons c t ih =>
    have hnot := not_prefix_of_hasPart h (List.suffix_refl _)
    rw [hasPart, Bool.or_eq_false_iff] at h
    rw [cutCode, ih h.2]
    · rfl
    · intro u hc ht
      subst hc ht
      exact hnot (List.prefix_append ['%', '>'] u)

namespace PlainScript

variable {raw : Text} (h : PlainScript raw) (hfence : fenceScripts raw = raw)
include h hfence

theorem markup_eq : Lifting.markup raw = ⟨raw, []⟩ := by
  rw [Lifting.markup, hfence, cutMarkup, startsInMarkup_of_no_opening h.opening]
  exact cutCode_of_no_closing h.closing

theorem delimiter_eq : Lifting.delimiter raw = ⟨raw, []⟩ := by
  have hmask : Lifting.mask .markup (⟨raw, []⟩ : Weave) = raw := by simp [Lifting.mask, Weave.replace]
  rw [Lifting.delimiter, h.markup_eq hfence, hmask]
  apply weave_of_none
  intro b u hu
  have hopen := not_prefix_of_hasPart h.commentOpening hu
  have hclose := not_prefix_of_hasPart h.commentClosing hu
  rw [← List.isPrefixOf_iff_prefix, Bool.not_eq_true] at hopen hclose
  simp only [delimiterPattern, Pattern.literal, hopen, hclose]
  rfl

theorem mask_eq : Lifting.mask .delimiter (Lifting.delimiter raw) = raw := by
  rw [h.delimiter_eq hfence]
  simp [Lifting.mask, Weave.replace]

theorem strings_eq : Lifting.strings raw = (splitLines raw).map cutStrings := by
  rw [Lifting.strings, h.mask_eq hfence]

theorem remarks_eq : maskLines .remark (Lifting.remarks raw) = (splitLines raw).map masked := by
  rw [Lifting.remarks, h.strings_eq hfence]
  simp only [maskLines, List.map_map]
  rfl

theorem lines_eq : (Lifting.result raw).lines =
    (splitLines raw).map fun line => Lifting.mask .resume (cutResume (masked line)) := by
  rw [Lifting.lines_result, Lifting.resumes, h.remarks_eq hfence]
  simp only [maskLines, List.map_map]
  rfl

theorem markup_shelf : (Lifting.result raw).shelves.get .markup = [] := by
  show (Lifting.markup raw).hits = []
  rw [h.markup_eq hfence]
  rfl

theorem delimiter_shelf : (Lifting.result raw).shelves.get .delimiter = [] := by
  show (Lifting.delimiter raw).hits = []
  rw [h.delimiter_eq hfence]
  rfl

theorem finalNewline_eq : (Lifting.result raw).finalNewline = endsWith ['\n'] raw := by
  show endsWith ['\n'] (Lifting.mask .delimiter (Lifting.delimiter raw)) = _
  rw [h.mask_eq hfence]

omit hfence in
theorem onLine {line : Text} (hl : line ∈ splitLines raw) : OnLine line := by
  intro c hc
  obtain ⟨hmem, hend⟩ := mem_splitLines hl c hc
  exact ⟨fun e => h.nul (e ▸ hmem), hend⟩

/-- The comment of a line is what the line has behind its code. -/
theorem remark_shelf : (Lifting.result raw).shelves.get .remark =
    (splitLines raw).flatMap fun line =>
      if (splitRemark line).2 = [] then [] else [(splitRemark line).2] := by
  rw [shelves_eq, if_neg (by decide), liftCut_remark, Weave.hits_unlines, Lifting.remarks,
    h.strings_eq hfence]
  simp only [maskLines, List.map_map, List.flatMap_map, Function.comp_apply]
  apply List.flatMap_congr
  intro line hl
  have hsplit : splitRemark ((cutStrings line).replace fun _ => Kind.string.token) =
      (maskStrings (splitRemark line).1, (splitRemark line).2) := by
    have hmask : (cutStrings line).replace (fun _ => Kind.string.token) = stringsMasked [] line :=
      mask_cutStrings line
    rw [hmask, splitRemark_eq, splitFrom_masked (h.onLine hl).sound (h.onLine hl).oneLine rfl, ← splitRemark_eq]
  obtain ⟨hcut, hr⟩ | ⟨hcut, hr⟩ := cutRemark_eq ((cutStrings line).replace fun _ =>
    Kind.string.token)
  · rw [hcut]
    rw [hsplit] at hr
    simp [Weave.hits, show (splitRemark line).2 = [] from hr]
  · rw [hcut]
    have hne := hr.ne_nil
    rw [hsplit] at hne ⊢
    simp [Weave.hits, show (splitRemark line).2 ≠ [] from hne]

theorem string_shelf : (Lifting.result raw).shelves.get .string =
    (splitLines raw).flatMap fun line => (cutStrings line).hits := by
  rw [shelves_eq, if_neg (by decide), liftCut_string, Weave.hits_unlines, h.strings_eq hfence,
    List.flatMap_map]

/-- A literal of a plain script is not empty and has neither NUL nor a line end. -/
theorem literal {k : Kind} {l : Text} (hl : l ∈ (Lifting.result raw).shelves.get k) :
    l ≠ [] ∧ OnLine l := by
  cases k with
  | markup =>
    rw [h.markup_shelf hfence] at hl
    cases hl
  | delimiter =>
    rw [h.delimiter_shelf hfence] at hl
    cases hl
  | string =>
    rw [h.string_shelf hfence] at hl
    obtain ⟨line, hline, hl⟩ := List.mem_flatMap.mp hl
    constructor
    · rw [cutStrings_eq, Weave.hits_append] at hl
      have hl' : l ∈ ((Pattern.ofRest dropString?).weave (splitRemark line).1).hits := by
        simpa [Weave.hits] using hl
      obtain ⟨body, rfl, _⟩ := hit_string hl'
      simp
    · intro c hc
      apply h.onLine hline
      rw [← source_cutStrings line]
      exact mem_source.mpr (.inr ⟨l, hl, hc⟩)
  | remark =>
    rw [h.remark_shelf hfence] at hl
    obtain ⟨line, hline, hl⟩ := List.mem_flatMap.mp hl
    split at hl
    · cases hl
    · next hne =>
      obtain rfl := List.mem_singleton.mp hl
      refine ⟨hne, fun c hc => h.onLine hline c ?_⟩
      rw [← splitRemark_append line]
      exact List.mem_append_right _ hc
  | resume =>
    rw [shelves_eq, if_pos rfl] at hl
    obtain ⟨_, _, rfl⟩ := List.mem_map.mp hl
    refine ⟨by decide, ?_⟩
    show ∀ c ∈ resumePhrase, c ≠ '\x00' ∧ isLineEnd c = false
    decide

/-- The text of a plain script: the worked lines with their literals, joined. -/
theorem text_eq {settings : Settings} {style : Style} {f : Formatted}
    (hstyle : settings.style = .ok style) (hok : format settings raw = .ok f) :
    ∃ worked, (workLines style (Lifting.result raw).shelves (Lifting.result raw).lines).outcome =
        .ok worked ∧
      f.text = closeLines (newlineOf raw) (endsWith ['\n'] raw)
        (printed (Lifting.result raw).shelves plainKinds worked.lines) ∧
      Tally (Lifting.result raw).shelves plainKinds worked.lines ∧
      '\x00' ∉ f.text := by
  obtain ⟨style', worked, hstyle', _, hwork, hm, _, htext⟩ := format_ok hok
  obtain rfl : style' = style := Except.ok.inj (hstyle'.symm.trans hstyle)
  obtain ⟨hu, _⟩ := Settings.style_ok hstyle
  obtain ⟨hne, hn⟩ := newlineOf_breaks raw
  have hworked : workedText raw worked =
      closeLines (newlineOf raw) (endsWith ['\n'] raw) worked.lines := by
    rw [workedText, h.finalNewline_eq hfence]
  have hnuls := nuls_filled hm (nuls_workedText h.nul hu hwork) .markup
  rw [hworked] at hm htext hnuls
  obtain ⟨hback, hfilled, htally⟩ := backText_printed hne hn hm (h.delimiter_shelf hfence)
    (h.markup_shelf hfence)
  have hclear : '\x00' ∉ closeLines (newlineOf raw) (endsWith ['\n'] raw)
      (printed (Lifting.result raw).shelves plainKinds worked.lines) := by
    apply nul_free_of_nuls
    rw [← hfilled, hnuls, takenFrom, hfence]
    exact List.count_eq_zero.mpr h.nul
  rw [hback, unfenceScripts_of_nul_free _ hclear] at htext
  exact ⟨worked, hwork, htext, htally, htext ▸ hclear⟩

end PlainScript

/-! ## The lines of the text -/

theorem unbroken_fillPieces {k : Kind} {lines ls : List Text} (h : ∀ l ∈ lines, Unbroken l)
    (hls : ∀ l ∈ ls, Unbroken l) : ∀ l ∈ fillPieces k lines ls, Unbroken l := by
  induction lines generalizing ls with
  | nil => intro l hl; cases hl
  | cons line lines ih =>
    intro l hl
    rw [fillPieces] at hl
    rcases List.mem_cons.mp hl with rfl | hl
    · intro c hc
      rcases mem_fillWith hc with hg | ⟨l, hl, hc⟩
      · have hsource : (cutTokens k line).source = line := Pattern.source_weave _ _
        exact h line List.mem_cons_self c (hsource ▸ mem_source.mpr (.inl hg))
      · exact hls l hl c hc
    · exact ih (fun l hl => h l (List.mem_cons_of_mem _ hl))
        (fun l hl => hls l (List.mem_of_mem_drop hl)) l hl

theorem unbroken_printed {s : Shelves} {ks : List Kind} {lines : List Text}
    (h : ∀ l ∈ lines, Unbroken l) (hs : ∀ k, ∀ l ∈ s.get k, Unbroken l) :
    ∀ l ∈ printed s ks lines, Unbroken l := by
  induction ks generalizing lines with
  | nil => exact h
  | cons k ks ih => exact ih (unbroken_fillPieces h (hs k))

/-- The two line breaks that a document may have. -/
theorem newlineOf_cases (raw : Text) : newlineOf raw = ['\n'] ∨ newlineOf raw = ['\r', '\n'] := by
  unfold newlineOf
  split
  · exact .inr rfl
  · exact .inl rfl

theorem splitLines_line {newline : Text} (hn : newline = ['\n'] ∨ newline = ['\r', '\n'])
    {l : Text} (hl : Unbroken l) (t : Text) :
    splitLines (l ++ (newline ++ t)) = l :: splitLines t := by
  have hbreak : splitLines (newline ++ t) = [] :: splitLines t := by
    rcases hn with rfl | rfl
    · show splitLines ('\n' :: t) = _
      rw [splitLines]
      · rfl
      · simp
    · rfl
  by_cases hne : l = []
  · rw [hne]
    exact hbreak
  · rw [splitLines_append hl hne, hbreak]
    simp

/-- Cutting joined lines into lines gives the lines back, unless an empty last line gets lost. -/
theorem splitLines_closeLines {newline : Text} (hn : newline = ['\n'] ∨ newline = ['\r', '\n'])
    {finalNewline : Bool} {lines : List Text} (h : ∀ l ∈ lines, Unbroken l)
    (hlast : lines.getLast? ≠ some []) :
    splitLines (closeLines newline finalNewline lines) = lines := by
  induction lines with
  | nil =>
    rw [closeLines_nil]
    rfl
  | cons l lines ih =>
    have hl := h l List.mem_cons_self
    cases lines with
    | nil =>
      have hne : l ≠ [] := by
        rintro rfl
        simp at hlast
      rw [closeLines_singleton]
      cases finalNewline with
      | true =>
        have hline := splitLines_line hn hl []
        rw [List.append_nil] at hline
        rw [if_pos rfl, hline]
        rfl
      | false =>
        have hline := splitLines_append hl hne []
        rw [if_neg (by simp), hline]
        simp [splitLines]
    | cons l' lines =>
      rw [closeLines_cons, splitLines_line hn hl, ih fun m hm => h m (List.mem_cons_of_mem _ hm)]
      simpa using hlast


/-- Each line is empty only where the line it comes from is. -/
def KeepsText (lines out : List Text) : Prop :=
  List.Forall₂ (fun l l' => l' = [] → l = []) lines out

theorem KeepsText.last {lines out : List Text} (h : KeepsText lines out)
    (hlast : lines.getLast? ≠ some []) : out.getLast? ≠ some [] := by
  induction h with
  | nil => exact hlast
  | @cons l l' lines out hl hmore ih =>
    cases hmore with
    | nil =>
      intro e
      have hl' : l' = [] := by simpa using e
      exact hlast (by simp [hl hl'])
    | cons =>
      rw [List.getLast?_cons_cons] at hlast ⊢
      exact ih hlast

theorem last_layOut (unit : Text) (rows : List Row) : (layOut unit rows).getLast? ≠ some [] := by
  rw [layOut, tidyBlankLines, List.getLast?_reverse]
  intro e
  have h := List.head?_dropWhile_not (fun l : Text => l.isEmpty)
    ((rows.flatMap (spread unit)).foldl addLine [])
  rw [e] at h
  simp at h

theorem keepsText_align {m : Marker} (hm : m = assignmentMarker ∨ m = remarkMarker) {s : Shelves}
    {lines out : List Text} (h : m.align s lines = .ok out) : KeepsText lines out := by
  refine (align_moves h).imp fun l l' hl he => ?_
  subst he
  rcases hl with h | ⟨cut, n, hcut, h⟩
  · exact h.symm
  · rcases hm with rfl | rfl
    · obtain ⟨a, b, _, _, hshift⟩ := assignment_shift (n := n) hcut
      rw [hshift] at h
      simp at h
    · obtain ⟨x, y, _, _, _, hshift⟩ := remark_shift (n := n) hcut
      rw [hshift] at h
      simp [Kind.token_eq_cons] at h

theorem last_workLines {style : Style} {shelves : Shelves} {lines : List Text} {worked : Worked}
    (h : (workLines style shelves lines).outcome = .ok worked) :
    worked.lines.getLast? ≠ some [] := by
  obtain ⟨recased, assigned, _, hassign, hremark⟩ := workLines_ok h
  have hassigned := (keepsText_align (.inl rfl) hassign).last (last_layOut _ _)
  exact (keepsText_align (.inr rfl) hremark).last hassigned

theorem keepsText_fillPieces {k : Kind} {lines ls : List Text} (hls : ∀ l ∈ ls, l ≠ [])
    (h : tokensIn k lines ≤ ls.length) : KeepsText lines (fillPieces k lines ls) := by
  induction lines generalizing ls with
  | nil => exact .nil
  | cons line lines ih =>
    have hcount : tokensIn k (line :: lines) =
        (cutTokens k line).rest.length + tokensIn k lines := by
      simp [tokensIn]
    refine .cons (fun he => ?_) (ih (fun l hl => hls l (List.mem_of_mem_drop hl)) ?_)
    · have hsource : (cutTokens k line).source = line := Pattern.source_weave _ _
      obtain ⟨hhead, hrest⟩ := List.append_eq_nil_iff.mp he
      cases hcut : (cutTokens k line).rest with
      | nil => rw [← hsource, Weave.source, hhead, hcut]; rfl
      | cons p rest =>
        cases ls with
        | nil => simp [hcut] at hcount h; omega
        | cons l ls =>
          rw [hcut] at hrest
          simp [hls l List.mem_cons_self] at hrest
    · rw [List.length_drop]
      omega

theorem last_printed {s : Shelves} {ks : List Kind} {lines : List Text}
    (hs : ∀ k, ∀ l ∈ s.get k, l ≠ []) (h : Tally s ks lines) (hlast : lines.getLast? ≠ some []) :
    (printed s ks lines).getLast? ≠ some [] := by
  induction ks generalizing lines with
  | nil => exact hlast
  | cons k ks ih =>
    exact ih h.2 ((keepsText_fillPieces (hs k) (Nat.le_of_eq h.1)).last hlast)

theorem length_fillPieces (k : Kind) (lines ls : List Text) :
    (fillPieces k lines ls).length = lines.length := by
  induction lines generalizing ls with
  | nil => rfl
  | cons l lines ih => simp [fillPieces, ih]

theorem length_printed (s : Shelves) (ks : List Kind) (lines : List Text) :
    (printed s ks lines).length = lines.length := by
  induction ks generalizing lines with
  | nil => rfl
  | cons k ks ih => rw [printed, ih, length_fillPieces]

/-- The lines of the text of a plain script are the worked lines with their literals. -/
theorem PlainScript.splitLines_text {settings : Settings} {style : Style} {raw : Text}
    {f : Formatted} (h : PlainScript raw) (hfence : fenceScripts raw = raw)
    (hstyle : settings.style = .ok style) (hok : format settings raw = .ok f) :
    ∃ worked, (workLines style (Lifting.result raw).shelves (Lifting.result raw).lines).outcome =
        .ok worked ∧
      splitLines f.text = printed (Lifting.result raw).shelves plainKinds worked.lines ∧
      Tally (Lifting.result raw).shelves plainKinds worked.lines := by
  obtain ⟨worked, hwork, htext, htally, _⟩ := h.text_eq hfence hstyle hok
  obtain ⟨hu, _⟩ := Settings.style_ok hstyle
  have hliteral := fun k l (hl : l ∈ (Lifting.result raw).shelves.get k) => h.literal hfence hl
  refine ⟨worked, hwork, ?_, htally⟩
  rw [htext]
  refine splitLines_closeLines (newlineOf_cases raw) ?_ ?_
  · exact unbroken_printed (unbroken_workLines hu hwork)
      fun k l hl c hc => ((hliteral k l hl).2 c hc).2
  · exact last_printed (fun k l hl => (hliteral k l hl).1) htally (last_workLines hwork)

end VbTidy
