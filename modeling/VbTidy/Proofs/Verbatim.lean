import VbTidy.Proofs.Printed

/-
Strings and comments of a plain script. They come out as they went in and in their order, with what
stands between them unchanged apart from white space and letter case (`literals_verbatim`). The
lines are those that the program cuts: a form feed ends one as a line feed does. A comment that
holds a form feed is therefore cut in two, and what follows is formatted as code
(`formFeed_cuts_comment`).
-/
namespace VbTidy

/-- The lines of a text between carriage returns and line feeds alone. -/
def sourceLines : Text → List Text
  | [] => [[]]
  | '\r' :: '\n' :: t => [] :: sourceLines t
  | c :: t =>
    if c == '\r' || c == '\n' then [] :: sourceLines t
    else
      match sourceLines t with
      | [] => [[c]]
      | line :: lines => (c :: line) :: lines

/-- The comment of a line, if it has one. -/
def remarkOf (line : Text) : List Text :=
  if (splitRemark line).2 = [] then [] else [(splitRemark line).2]

/-- The strings in the code of a line, and its comment. -/
def lineLiterals (line : Text) : List Text :=
  (cutStrings line).hits ++ remarkOf line

theorem mask_congr {k : Kind} {w v : Weave} (h : w.gaps = v.gaps) :
    Lifting.mask k w = Lifting.mask k v := by
  rw [Lifting.mask_eq, Lifting.mask_eq, Weave.rest_length_of_gaps h, Weave.fillWith_congr h]

/-- Without markup and delimiters the strings are the last that is put back. -/
theorem backText_eq_strings {s : Shelves} {t : Text} (hm : Matched s t)
    (hdelimiter : s.get .delimiter = []) (hmarkup : s.get .markup = []) :
    backText s t = filled s t .string := by
  have hd : (cutTokens .delimiter (filled s t .string)).rest.length = 0 := by
    rw [← backCut_delimiter, hm, hdelimiter]
    rfl
  have hfilled : filled s t .delimiter = filled s t .string := by
    rw [filled, backCut_delimiter, fillWith_of_rest hd]
    exact Pattern.source_weave _ _
  have hk : (cutTokens .markup (filled s t .string)).rest.length = 0 := by
    rw [← hfilled, ← backCut_markup, hm, hmarkup]
    rfl
  have hhead : (cutTokens .markup (filled s t .string)).fillWith [] = filled s t .string := by
    rw [fillWith_of_rest hk]
    exact Pattern.source_weave _ _
  rw [backText, hmarkup, backCut_markup, hfilled, List.zip_nil_left, joinPadded]
  simpa [Weave.fillWith] using hhead

/-- The strings and the comments of a plain script come out as they are, line after line. Taking the
strings out of the result and putting tokens in their place leaves a text in which the comments
stand, and the texts between the strings and between the comments are those of the document apart
from white space and letter case. -/
theorem literals_verbatim {settings : Settings} {raw : Text} {f : Formatted}
    (h : PlainScript raw) (hfence : fenceScripts raw = raw)
    (hsplit : settings.splitDeclarations = false) (hok : format settings raw = .ok f) :
    ∃ v w : Weave,
      v.source = f.text ∧
      v.hits = (splitLines raw).flatMap (fun line => (cutStrings line).hits) ∧
      v.gaps.map squeezed = ((liftCut raw).get .string).gaps.map squeezed ∧
      w.source = Lifting.mask .string v ∧
      w.hits = (splitLines raw).flatMap remarkOf ∧
      w.gaps.map squeezed = ((liftCut raw).get .remark).gaps.map squeezed := by
  obtain ⟨_, worked, _, _, _, _, hm, ht, htext⟩ := format_parts h.nul hfence hsplit hok
  have hplace := inPlace_of_matched h.nul hfence hm ht
  obtain ⟨v, hv, hvhits, hvgaps⟩ := (hplace .string).back
  obtain ⟨w, hw, hwhits, hwgaps⟩ := (hplace .remark).back
  refine ⟨v, w, ?_, ?_, ?_, ?_, ?_, ?_⟩
  · rw [hv, htext, backText_eq_strings hm (h.delimiter_shelf hfence) (h.markup_shelf hfence)]
  · rw [hvhits, h.string_shelf hfence]
  · rw [hvgaps, (hplace .string).places]
  · -- the strings are cut out of the text into which the comments were put
    rw [hw, mask_congr hvgaps, backCut_string, mask_cutTokens]
  · rw [hwhits, h.remark_shelf hfence]
    rfl
  · rw [hwgaps, (hplace .remark).places]

/-- A comment with a form feed in it. -/
def formFeedRemark : Text :=
  "'a\x0cb=1".toList

/-- The form feed ends the line, and what stands behind it comes out as code on a line of its own. -/
theorem format_formFeedRemark :
    ∃ f, format { splitDeclarations := false } formFeedRemark = .ok f ∧
      f.text = "'a\nb = 1".toList := by
  refine ⟨⟨"'a\nb = 1".toList, true, {
    totalLines := 2
    declarationsSplit := 0
    maxDepth := 0
    assignmentBlocks := 0
    remarkBlocks := 0
    literals := ⟨0, 0, 0, 1, 0⟩ }⟩, ?_, rfl⟩
  decide +kernel

theorem plainScript_formFeedRemark : PlainScript formFeedRemark :=
  ⟨by decide, by decide, by decide, by decide, by decide⟩

theorem formFeedRemark_verbatim :
    ∃ f, format { splitDeclarations := false } formFeedRemark = .ok f ∧
      ∃ v w : Weave, v.source = f.text ∧ w.source = Lifting.mask .string v ∧
        w.hits = (splitLines formFeedRemark).flatMap remarkOf := by
  obtain ⟨f, hf, _⟩ := format_formFeedRemark
  obtain ⟨v, w, hv, _, _, hw, hhits, _⟩ :=
    literals_verbatim plainScript_formFeedRemark (by decide) rfl hf
  exact ⟨f, hf, v, w, hv, hw, hhits⟩

theorem formFeed_cuts_comment :
    PlainScript formFeedRemark ∧
      ∃ f, format { splitDeclarations := false } formFeedRemark = .ok f ∧
        (sourceLines formFeedRemark).flatMap lineLiterals = ["'a\x0cb=1".toList] ∧
        (sourceLines f.text).flatMap lineLiterals = ["'a".toList] := by
  obtain ⟨f, hf, htext⟩ := format_formFeedRemark
  refine ⟨plainScript_formFeedRemark, f, hf, by decide, ?_⟩
  rw [htext]
  decide

end VbTidy
