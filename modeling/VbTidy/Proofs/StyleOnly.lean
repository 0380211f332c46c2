import VbTidy.Proofs.Restyled
import VbTidy.Proofs.Unfenced

/-
A style changes style only. A document is formatted with two settings that agree on whether
declarations are split, whatever their indents and letter cases are. Main statement: unless a word
of the code is a keyword by an unusual letter only, both runs fail for the same reason, or both
succeed with the same counts and with texts that differ in spaces, tabs and letter case alone
(`runs_differ_in_style_only`).
-/
namespace VbTidy

/-! ## The lines as one text -/

section
variable {newline : Text} (hfree : '\x00' ∉ newline) (hhard : Hard newline)
include hfree hhard

theorem Level.join {a a' b b' : Text} (ha : Level 0 a a') (hb : Level 0 b b') :
    Level 0 (a ++ (newline ++ b)) (a' ++ (newline ++ b')) where
  shape hn := by
    have hfirst : ∀ z, Hard (firstPart (newline ++ z)) := by
      intro z
      rw [firstPart_append hfree]
      exact hhard.append_right _
    apply shape_append_hard (ha.shape hn) _ (hfirst b) (hfirst b')
    apply shape_append rfl (hb.shape hn)
    intro _
    rw [lastPart_free hfree, (hhard.append_right _).ofName?, (hhard.append_right _).ofName?]
  closed hn :=
    ⟨(ha.closed hn).1.join (hb.closed hn).1 hfree hhard,
      (ha.closed hn).2.join (hb.closed hn).2 hfree hhard⟩

theorem level_joinLines {lines lines' : List Text} (h : List.Forall₂ (Level 0) lines lines') :
    Level 0 (joinLines newline lines) (joinLines newline lines') := by
  induction h with
  | nil => exact ⟨fun _ => rfl, fun _ => ⟨.of_free (by simp), .of_free (by simp)⟩⟩
  | cons hl hmore ih =>
    cases hmore with
    | nil => simpa using hl
    | cons hl' hmore =>
      rw [joinLines_cons_cons, joinLines_cons_cons]
      exact hl.join hfree hhard ih

theorem level_closeLines {lines lines' : List Text} (h : List.Forall₂ (Level 0) lines lines')
    (finalNewline : Bool) :
    Level 0 (closeLines newline finalNewline lines) (closeLines newline finalNewline lines') := by
  have hempty : lines.isEmpty = lines'.isEmpty := by cases h <;> rfl
  have hjoined := level_joinLines hfree hhard h
  rw [closeLines, closeLines, hempty]
  split
  · have hnil : Level 0 [] [] :=
      ⟨fun _ => rfl, fun _ => ⟨.of_free (by simp), .of_free (by simp)⟩⟩
    have := hjoined.join hfree hhard hnil
    rwa [List.append_nil] at this
  · rwa [List.append_nil, List.append_nil]

end

theorem newlineOf_hard (raw : Text) : '\x00' ∉ newlineOf raw ∧ Hard (newlineOf raw) := by
  rw [newlineOf]
  split
  · exact ⟨by decide, hard_of_mem (c := '\n') (by decide) (by decide)⟩
  · exact ⟨by decide, hard_of_mem (c := '\n') (by decide) (by decide)⟩

theorem indentUnit_ne_nil {settings : Settings} {unit : Text}
    (h : settings.indentUnit = .ok unit) : unit ≠ [] := by
  unfold Settings.indentUnit at h
  split at h
  · cases h
    simp
  · split at h
    · cases h
    · split at h
      · cases h
      · rename_i hsize
        split at h
        · cases h
        · split at h
          · cases h
          · cases h
            have : settings.indentSize.toNat ≠ 0 := by omega
            simpa using this

theorem Settings.unit_ne_nil {settings : Settings} {style : Style}
    (h : settings.style = .ok style) : style.unit ≠ [] := by
  unfold Settings.style at h
  cases hu : settings.indentUnit with
  | error e =>
    rw [hu] at h
    cases h
  | ok unit =>
    rw [hu, ok_bind] at h
    cases hc : LetterCase.ofName settings.letterCase with
    | error e =>
      rw [hc] at h
      cases h
    | ok case =>
      rw [hc] at h
      cases h
      exact indentUnit_ne_nil hu

/-! ## Two runs -/

/-- Two settings lead to the same result, style apart. -/
def SameButStyle (f f' : Formatted) : Prop :=
  f.stats = f'.stats ∧ packed f.text = packed f'.text

section
variable {settings settings' : Settings} {style style' : Style} {raw : Text}
  (hnul : '\x00' ∉ raw) (hstyle : settings.style = .ok style)
  (hstyle' : settings'.style = .ok style')
  (hsplit : settings.splitDeclarations = settings'.splitDeclarations)
include hnul hstyle hstyle' hsplit

theorem sameOutcome_format {recased recased' : List Text}
    (hr : recase style.letterCase (spacedLines style raw) = .ok recased)
    (hr' : recase style'.letterCase (spacedLines style' raw) = .ok recased') :
    SameOutcome SameButStyle (format settings raw) (format settings' raw) := by
  obtain ⟨hu, hs⟩ := Settings.style_ok hstyle
  obtain ⟨hu', hs'⟩ := Settings.style_ok hstyle'
  obtain ⟨hfree, hhard⟩ := newlineOf_hard raw
  have hwork := sameOutcome_workLines hnul (by rw [hs, hs', hsplit]) hu
    (Settings.unit_ne_nil hstyle) hu' (Settings.unit_ne_nil hstyle') hr hr'
  rw [format_outcome hstyle, format_outcome hstyle']
  split
  · refine hwork.bind fun w w' hw => ?_
    have hlevel := level_closeLines hfree hhard hw.lines (Lifting.result raw).finalNewline
    refine (sameOutcome_putBack hnul hfree hhard hlevel).bind fun t t' ht => .ok ⟨?_, ht⟩
    simp only [hw.declarationsSplit, hw.maxDepth, hw.assignmentBlocks, hw.remarkBlocks]
  · exact .error _

/-- Whatever the indents and the letter cases are, the two runs fail for the same reason, or give
the same counts and the same text with the same line ends, spaces, tabs and letter case apart. -/
theorem runs_differ_in_style_only
    (hkey : ∀ word, format settings raw ≠ .error (.strangeKeyword word))
    (hkey' : ∀ word, format settings' raw ≠ .error (.strangeKeyword word)) :
    (∃ e, format settings raw = .error e ∧ format settings' raw = .error e) ∨
    ∃ f f', format settings raw = .ok f ∧ format settings' raw = .ok f' ∧
      f.stats = f'.stats ∧ unspaced f.text = unspaced f'.text ∧
      f.text.filter isLineEnd = f'.text.filter isLineEnd := by
  by_cases heven : (Lifting.delimiter raw).rest.length % 2 = 0
  case neg =>
    -- The delimiters of comments are counted before any style is looked at.
    refine .inl ⟨.oddDelimiters (Lifting.delimiter raw).rest.length, ?_, ?_⟩
    · rw [format_outcome hstyle, if_neg heven]
    · rw [format_outcome hstyle', if_neg heven]
  case pos =>
    have hrecase : ∀ {settings : Settings} {style : Style}, settings.style = .ok style →
        (∀ word, format settings raw ≠ .error (.strangeKeyword word)) →
        ∃ recased, recase style.letterCase (spacedLines style raw) = .ok recased := by
      intro settings style hstyle hkey
      cases hr : recase style.letterCase (spacedLines style raw) with
      | ok recased => exact ⟨recased, rfl⟩
      | error e =>
        obtain ⟨hcase, hholds, _⟩ := recase_error hr
        obtain ⟨word, hword⟩ := format_strange hstyle heven ⟨hcase, hholds⟩
        exact absurd hword (hkey word)
    obtain ⟨recased, hr⟩ := hrecase hstyle hkey
    obtain ⟨recased', hr'⟩ := hrecase hstyle' hkey'
    have hsame := sameOutcome_format hnul hstyle hstyle' hsplit hr hr'
    refine hsame.cases.imp_right fun ⟨f, f', hf, hf', hstats, htext⟩ => ?_
    refine ⟨f, f', hf, hf', hstats, unspaced_of_packed htext, ?_⟩
    rw [← lineEnds_packed, ← lineEnds_packed f'.text, htext]

end

/-- A block in markup, with equals signs and comments to align. -/
def blockInMarkup : Text :=
  "<%if a then\nx=1'c\nyy=2'd\nend if%>".toList

/-- An indent of one tab and keywords in capitals. -/
def tabsAndCapitals : Settings :=
  { indentStyle := "tabs".toList, letterCase := "upper".toList }

theorem blockInMarkup_texts :
    (format {} blockInMarkup).map Formatted.text =
      .ok "<% If a Then\n    x  = 1 'c\n    yy = 2 'd\nEnd If %>".toList ∧
    (format tabsAndCapitals blockInMarkup).map Formatted.text =
      .ok "<% IF a THEN\n\tx  = 1 'c\n\tyy = 2 'd\nEND IF %>".toList := by
  decide +kernel

theorem blockInMarkup_in_two_styles :
    ∃ f f', format {} blockInMarkup = .ok f ∧ format tabsAndCapitals blockInMarkup = .ok f' ∧
      f.text ≠ f'.text ∧ f.stats = f'.stats ∧ unspaced f.text = unspaced f'.text ∧
      f.text.filter isLineEnd = f'.text.filter isLineEnd := by
  obtain ⟨f, hf, htext⟩ := ok_of_map blockInMarkup_texts.1
  obtain ⟨f', hf', htext'⟩ := ok_of_map blockInMarkup_texts.2
  have hkey : ∀ {settings : Settings} {f : Formatted}, format settings blockInMarkup = .ok f →
      ∀ word, format settings blockInMarkup ≠ .error (.strangeKeyword word) := by
    intro settings f h word
    rw [h]
    simp
  obtain ⟨e, he, _⟩ | ⟨g, g', hg, hg', h⟩ :=
    @runs_differ_in_style_only {} tabsAndCapitals _ _ blockInMarkup (by decide) rfl rfl rfl
      (hkey hf) (hkey hf')
  · rw [hf] at he
    cases he
  · rw [hf] at hg
    rw [hf'] at hg'
    cases hg
    cases hg'
    refine ⟨f, f', hf, hf', ?_, h⟩
    rw [htext, htext']
    decide

end VbTidy
