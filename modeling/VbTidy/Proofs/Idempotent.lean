import VbTidy.Proofs.Directory
import VbTidy.Proofs.Legible
import VbTidy.Proofs.Single

/-
Formatting a formatted script. A legible script that comes through is printed from lines that are put
aside from it again (`lift_again`), and the passes leave these lines as they are. So a second run with
the same settings gives the text that it was given, if no declaration of the script is split, as the
settings ask for that (`format_again`) or as each line declares one name at most
(`format_single_again`).
-/
namespace VbTidy

/-! ## Plain scripts without regard to letter case -/

/-- What plain scripts do without: delimiters of markup and of client comments, and the start of a
script tag. -/
def foreignParts : List Text :=
  ["<%".toList, "%>".toList, "<!--".toList, "-->".toList, "<scr".toList]

theorem hasPart_of_squeezed {part t : Text} (hpart : squeezed part = part)
    (h : hasPart part (squeezed t) = false) : hasPart part t = false := by
  rw [← Bool.not_eq_true, hasPart_iff] at h ⊢
  rintro ⟨a, b, rfl⟩
  refine h ⟨squeezed a, squeezed b, ?_⟩
  rw [squeezed_append, squeezed_append, hpart]

theorem plainScript_of_squeezed {t : Text} (hnul : '\x00' ∉ t)
    (h : ∀ part ∈ foreignParts, hasPart part (squeezed t) = false) :
    PlainScript t ∧ fenceScripts t = t := by
  have hpart : ∀ part ∈ foreignParts, squeezed part = part := by decide
  have key := fun part hmem => hasPart_of_squeezed (hpart part hmem) (h part hmem)
  exact ⟨⟨hnul, key _ (by decide), key _ (by decide), key _ (by decide), key _ (by decide)⟩,
    fenceScripts_of_squeezed (h _ (by decide))⟩

/-- A script that reads the same after it was formatted. It is plain without regard to white space and
letter case, leaves no string open, and among the words that are left of its code there is neither
Rem nor an error phrase. -/
structure Legible (raw : Text) : Prop where
  nul : '\x00' ∉ raw
  plain : ∀ part ∈ foreignParts, hasPart part (squeezed raw) = false
  closed : ∀ row ∈ splitLines raw, Even ((splitRemark row).1.count '"')
  rem : ∀ row ∈ splitLines raw, "rem".toList ∉ lineWords (liftedLine row)
  phrase : ∀ row ∈ splitLines raw, ¬ HasPhrase (liftedLine row)

/-! ## Line breaks -/

theorem endsWith_newline {newline t : Text} (hn : newline = ['\n'] ∨ newline = ['\r', '\n']) :
    endsWith ['\n'] (t ++ newline) = true := by
  rw [endsWith, List.isSuffixOf_iff_suffix]
  rcases hn with rfl | rfl
  · exact List.suffix_append t _
  · exact ⟨t ++ ['\r'], by simp⟩

theorem mem_closeLines {newline : Text} {finalNewline : Bool} {lines : List Text} {c : Char}
    (h : c ∈ closeLines newline finalNewline lines) : c ∈ newline ∨ ∃ l ∈ lines, c ∈ l := by
  induction lines with
  | nil =>
    rw [closeLines_nil] at h
    cases h
  | cons l lines ih =>
    cases lines with
    | nil =>
      rw [closeLines_singleton] at h
      rcases List.mem_append.mp h with h | h
      · exact .inr ⟨l, List.mem_cons_self, h⟩
      · split at h
        · exact .inl h
        · cases h
    | cons l' lines =>
      rw [closeLines_cons, List.mem_append, List.mem_append] at h
      rcases h with h | h | h
      · exact .inr ⟨l, List.mem_cons_self, h⟩
      · exact .inl h
      · exact (ih h).imp_right fun ⟨m, hm, hc⟩ => ⟨m, List.mem_cons_of_mem l hm, hc⟩

/-- Without a line break at the end a text ends as its last line does. -/
theorem getLast_closeLines (newline : Text) {lines : List Text} {last : Text}
    (hlast : lines.getLast? = some last) (hne : last ≠ []) :
    (closeLines newline false lines).getLast? = last.getLast? := by
  induction lines with
  | nil => cases hlast
  | cons l lines ih =>
    cases lines with
    | nil =>
      obtain rfl : l = last := Option.some.inj hlast
      rw [closeLines_singleton, if_neg (by decide), List.append_nil]
    | cons l' lines =>
      rw [List.getLast?_cons_cons] at hlast
      have hmore : closeLines newline false (l' :: lines) ≠ [] := by
        intro hnil
        have := ih hlast
        rw [hnil, List.getLast?_nil, eq_comm, List.getLast?_eq_none_iff] at this
        exact hne this
      rw [closeLines_cons, ← List.append_assoc, List.getLast?_append_of_ne_nil _ hmore, ih hlast]

theorem newline_infix_closeLines {newline : Text} {finalNewline : Bool} {lines front : List Text}
    {last : Text} (hlines : lines = front ++ [last])
    (hmore : ¬ (front = [] ∧ finalNewline = false)) :
    newline <:+: closeLines newline finalNewline lines := by
  cases finalNewline with
  | true =>
    rw [closeLines, if_pos (by simp [hlines])]
    exact (List.suffix_append _ _).isInfix
  | false =>
    cases front with
    | nil => exact absurd ⟨rfl, rfl⟩ hmore
    | cons l front =>
      obtain ⟨l', ls, hls⟩ := List.exists_cons_of_ne_nil (l := front ++ [last]) (by simp)
      rw [hlines, List.cons_append, hls, closeLines_cons]
      exact ⟨l, _, by rw [List.append_assoc]⟩

/-- Whether a text printed from lines ends with a line break can be told from the text. -/
theorem endsWith_closeLines {newline : Text} (hn : newline = ['\n'] ∨ newline = ['\r', '\n'])
    {finalNewline : Bool} {lines : List Text} {last : Text} (hend : lines.getLast? = some last)
    (hne : last ≠ []) (hfree : '\n' ∉ last) :
    endsWith ['\n'] (closeLines newline finalNewline lines) = finalNewline := by
  cases finalNewline with
  | true =>
    have hlines : lines ≠ [] := by
      rintro rfl
      cases hend
    rw [closeLines, if_pos (by simp [hlines])]
    exact endsWith_newline hn
  | false =>
    rw [← Bool.not_eq_true, endsWith, List.isSuffixOf_iff_suffix]
    rintro ⟨t, ht⟩
    have hgot := getLast_closeLines newline hend hne
    rw [← ht, List.getLast?_concat, eq_comm] at hgot
    exact hfree (List.mem_of_getLast? hgot)

/-- Without a carriage return in the lines a text printed from them has the line break of old. -/
theorem newlineOf_closeLines_newline {finalNewline : Bool} {lines : List Text}
    (hfree : ∀ l ∈ lines, '\r' ∉ l) :
    newlineOf (closeLines ['\n'] finalNewline lines) = ['\n'] := by
  have hno : hasPart ['\r', '\n'] (closeLines ['\n'] finalNewline lines) = false := by
    rw [← Bool.not_eq_true, hasPart_iff]
    intro hpart
    rcases mem_closeLines (hpart.subset List.mem_cons_self) with hmem | ⟨l, hl, hmem⟩
    · revert hmem
      decide
    · exact hfree l hl hmem
  rw [newlineOf, hno]
  rfl

/-- A text printed from lines is printed from them with the line breaks that it has. -/
theorem closeLines_again {newline : Text} (hn : newline = ['\n'] ∨ newline = ['\r', '\n'])
    {finalNewline : Bool} {lines : List Text} (h : ∀ l ∈ lines, Unbroken l)
    (hlast : lines.getLast? ≠ some []) :
    closeLines (newlineOf (closeLines newline finalNewline lines))
      (endsWith ['\n'] (closeLines newline finalNewline lines)) lines =
        closeLines newline finalNewline lines := by
  have hbreaks : ∀ c ∈ ['\r', '\n'], isLineEnd c = true := by decide
  have hfree : ∀ c ∈ ['\r', '\n'], ∀ l ∈ lines, c ∉ l := by
    intro c hc l hl hmem
    have := h l hl c hmem
    rw [hbreaks c hc] at this
    cases this
  rcases List.eq_nil_or_concat lines with rfl | ⟨front, last, hlines⟩
  · rw [closeLines_nil, closeLines_nil]
  · rw [List.concat_eq_append] at hlines
    have hend : lines.getLast? = some last := by rw [hlines, List.getLast?_concat]
    have hne : last ≠ [] := fun hnil => hlast (by rw [hend, hnil])
    rw [endsWith_closeLines hn hend hne (hfree '\n' (by decide) last (List.mem_of_getLast? hend))]
    rcases hn with rfl | rfl
    · rw [newlineOf_closeLines_newline (hfree '\r' (by decide))]
    · by_cases hone : front = [] ∧ finalNewline = false
      · -- the only line has no line break
        obtain ⟨rfl, rfl⟩ := hone
        rw [hlines, List.nil_append, closeLines_singleton, closeLines_singleton]
        rfl
      · rw [newlineOf, if_pos (hasPart_iff.mpr (newline_infix_closeLines hlines hone))]

/-! ## Gaps -/

/-- Lines have no NUL between their tokens if they have none once they are filled. -/
theorem nul_free_gaps_of_filled {k : Kind} {lines ls : List Text}
    (hlen : tokensIn k lines = ls.length) (h : ∀ y ∈ fillPieces k lines ls, '\x00' ∉ y) :
    ∀ line ∈ lines, ∀ g ∈ (cutTokens k line).gaps, '\x00' ∉ g := by
  induction lines generalizing ls with
  | nil =>
    intro line hline
    cases hline
  | cons first lines ih =>
    have hcount : (cutTokens k first).rest.length + tokensIn k lines = ls.length := hlen
    intro line hline
    rcases List.mem_cons.mp hline with rfl | hline
    · have hfill := h _ List.mem_cons_self
      rw [← Weave.fillWith_take] at hfill
      exact nul_free_gaps (by rw [List.length_take]; omega) (List.count_eq_zero.mpr hfill)
    · exact ih (by rw [List.length_drop]; omega)
        (fun y hy => h y (List.mem_cons_of_mem _ hy)) line hline

theorem flatten_filter {p : Text → Bool} {f : Text → List Text} {rows : List Text}
    (h : ∀ row ∈ rows, ¬ p row → f row = []) :
    ((rows.filter p).map f).flatten = rows.flatMap f := by
  induction rows with
  | nil => rfl
  | cons row rows ih =>
    have hmore := ih fun r hr => h r (List.mem_cons_of_mem row hr)
    rw [List.flatMap_cons, ← hmore]
    by_cases hp : p row
    · rw [List.filter_cons_of_pos hp, List.map_cons, List.flatten_cons]
    · rw [List.filter_cons_of_neg hp, h row List.mem_cons_self hp, List.nil_append]

theorem inky_liftedLines (rows : List Text) : inky (rows.map liftedLine) =
    (rows.filter fun row => trim (liftedLine row) ≠ []).map liftedLine := by
  rw [inky, List.filter_map, Function.comp_def]

/-- A line that is cut at its comment again is split there. -/
theorem splitRemark_of_cutAgain {line : Text} {own : List Text}
    (h : CutAgain .remark cutRemark line own) :
    (splitRemark ((cutTokens .remark line).fillWith own)).1 = (cutTokens .remark line).head ∧
      ((splitRemark ((cutTokens .remark line).fillWith own)).2 = [] ∨
        (splitRemark ((cutTokens .remark line).fillWith own)).2 ∈ own) := by
  have hhits := h.hits
  have hcut := h.cut_eq
  rcases cutRemark_eq ((cutTokens .remark line).fillWith own) with ⟨heq, hnone⟩ | ⟨heq, _⟩
  · rw [heq] at hcut
    exact ⟨congrArg Weave.head hcut, .inl hnone⟩
  · rw [heq] at hcut hhits
    refine ⟨congrArg Weave.head hcut, .inr ?_⟩
    have hmem : ∀ c, c ∈ [(splitRemark ((cutTokens .remark line).fillWith own)).2] → c ∈ own :=
      fun c hc => by
        rw [← hhits]
        exact hc
    exact hmem _ (List.mem_singleton_self _)

/-- A line that is ready, with its phrases and its comment in place, is cut at its strings. -/
theorem Ready.cutAgain_string {w : Text} {comment own : List Text} (h : Ready w)
    (hcut : CutAgain .remark cutRemark (phrased w) comment)
    (hcomment : ∀ l ∈ comment, '\x00' ∉ l)
    (hlen : own.length =
      (cutTokens .string ((cutTokens .remark (phrased w)).fillWith comment)).rest.length)
    (hown : ∀ s ∈ own, QuotedString s)
    (hfree : ∀ g ∈ (cutTokens .string ((cutTokens .remark (phrased w)).fillWith comment)).gaps,
      '\x00' ∉ g) :
    CutAgain .string cutStrings ((cutTokens .remark (phrased w)).fillWith comment) own := by
  obtain ⟨hcode, hbehind⟩ := splitRemark_of_cutAgain hcut
  refine VbTidy.cutAgain_string hlen hown hfree (fun hquote => ?_) fun hnul => ?_
  · -- the code is part of the line with its phrases
    rw [hcode] at hquote
    have hsource : (cutTokens .remark (phrased w)).source = phrased w := Pattern.source_weave _ _
    have hmem : '"' ∈ phrased w := by
      rw [← hsource]
      exact List.mem_append_left _ hquote
    exact (h.signs_phrased _ hmem).1 rfl
  · rcases hbehind with hnone | hmem
    · rw [hnone] at hnul
      cases hnul
    · exact hcomment _ hmem hnul

/-- The error phrases that are put aside are all written alike. -/
theorem phrase_shelf {raw l : Text} (hl : l ∈ (Lifting.result raw).shelves.get .resume) :
    l = resumePhrase := by
  rw [shelves_eq, if_pos rfl] at hl
  obtain ⟨_, _, rfl⟩ := List.mem_map.mp hl
  rfl

/-- The strings that are put aside of a plain script are strings on one line. -/
theorem PlainScript.quotedString {raw l : Text} (h : PlainScript raw)
    (hfence : fenceScripts raw = raw) (hl : l ∈ (Lifting.result raw).shelves.get .string) :
    QuotedString l := by
  have hline := (h.literal hfence hl).2
  rw [h.string_shelf hfence] at hl
  obtain ⟨line, _, hl⟩ := List.mem_flatMap.mp hl
  rw [cutStrings_eq, Weave.hits_append] at hl
  have hl' : l ∈ ((Pattern.ofRest dropString?).weave (splitRemark line).1).hits := by
    simpa [Weave.hits] using hl
  obtain ⟨body, rfl, hbody⟩ := hit_string hl'
  exact ⟨body, (hline.string hbody).1, rfl⟩

/-! ## The second run -/

section
variable {settings : Settings} {style : Style} {raw : Text} {f : Formatted} (h : Legible raw)
  (hstyle : settings.style = .ok style)
  (hsingle : statements style (Lifting.result raw).lines = (Lifting.result raw).lines)
  (hok : format settings raw = .ok f)
include h

theorem Legible.plainScript : PlainScript raw :=
  (plainScript_of_squeezed h.nul h.plain).1

theorem Legible.fence : fenceScripts raw = raw :=
  (plainScript_of_squeezed h.nul h.plain).2

include hstyle hok

theorem Legible.not_astray : ¬ Astray style raw := fun hastray =>
  not_ok_of_astray h.nul hstyle h.fence hastray f hok

include hsingle

theorem Legible.squeezed_text : squeezed f.text = squeezed raw := by
  obtain ⟨style', worked, hstyle', _, hwork, hm, _, htext⟩ := format_ok hok
  obtain rfl : style' = style := Except.ok.inj (hstyle'.symm.trans hstyle)
  obtain ⟨hu, _⟩ := Settings.style_ok hstyle
  have ht : squeezed (workedText raw worked) =
      squeezed (Lifting.mask .resume ((liftCut raw).get .resume)) := by
    rw [squeezed_workedText, squeezed_workLines hu hwork, hsingle, squeezed_liftedLines]
  have hback := (backText_faithful h.nul h.fence hm ht).2
  rw [unfenceScripts_of_nul_free _ (nul_free_of_squeezed hback h.nul)] at htext
  rw [htext, hback]

variable {worked : Worked}
  (hwork : (workLines style (Lifting.result raw).shelves (Lifting.result raw).lines).outcome =
    .ok worked)
include hwork

/-- The lines that the passes leave have come of the lines of the script, blank ones apart. -/
theorem Legible.sameLines :
    List.Forall₂ (fun row line => SameLine (liftedLine row) line)
      ((splitLines raw).filter fun row => trim (liftedLine row) ≠ []) (inky worked.lines) := by
  obtain ⟨hu, _⟩ := Settings.style_ok hstyle
  have hsame := sameLine_workLines h.nul hu (h.not_astray hstyle hok) hwork
  have hlines : (Lifting.result raw).lines = (splitLines raw).map liftedLine :=
    h.plainScript.lines_eq h.fence
  rw [hsingle, hlines, inky_liftedLines, List.forall₂_map_left_iff] at hsame
  exact hsame

omit hsingle in
theorem Legible.clear_workLines : ∀ line ∈ worked.lines, Clear line := by
  obtain ⟨hu, _⟩ := Settings.style_ok hstyle
  obtain ⟨recased, assigned, hr, ha, hm⟩ := workLines_ok hwork
  exact (clear_lines h.nul hu (h.not_astray hstyle hok) hr ha hm).2.2

/-- Nothing more would be put aside off the lines that the passes leave. -/
theorem Legible.ready_workLines : ∀ line ∈ worked.lines, Ready line := by
  intro line hline
  have hclear := h.clear_workLines hstyle hok hwork line hline
  by_cases hblank : trim line = []
  · exact ready_blank hclear hblank
  · have hinky : line ∈ inky worked.lines := List.mem_filter.mpr ⟨hline, by simpa using hblank⟩
    have hrows : ∀ line ∈ inky worked.lines,
        ∃ row ∈ splitLines raw, SameLine (liftedLine row) line :=
      forall_of_forall₂ (fun row line (hrow : row ∈ splitLines raw) hsame => ⟨row, hrow, hsame⟩)
        (h.sameLines hstyle hsingle hok hwork) fun row hrow => List.mem_of_mem_filter hrow
    obtain ⟨row, hmem, hsame⟩ := hrows line hinky
    exact ready_liftedLine (h.plainScript.onLine hmem) hclear hsame (h.closed row hmem)
      (h.rem row hmem) (h.phrase row hmem)

/-- The comments of a script are brought by the lines that have come of its lines. -/
theorem Legible.brings_workLines : ∃ owns, List.Forall₂ Brings (inky worked.lines) owns ∧
    owns.flatten = (Lifting.result raw).shelves.get .remark := by
  have hrows := List.forall₂_and_left _ _ |>.mpr
    ⟨fun row hrow => List.mem_of_mem_filter hrow, h.sameLines hstyle hsingle hok hwork⟩
  have hlines := List.forall₂_and_left _ _ |>.mpr
    ⟨fun line hline => List.mem_of_mem_filter hline, hrows.flip⟩
  refine ⟨((splitLines raw).filter fun row => trim (liftedLine row) ≠ []).map ownRemark, ?_, ?_⟩
  · rw [List.forall₂_map_right_iff]
    refine hlines.imp fun line row ⟨hline, hrow, hsame⟩ => ?_
    exact brings_liftedLine (h.plainScript.onLine hrow)
      (h.clear_workLines hstyle hok hwork line hline) hsame
  · rw [h.plainScript.remark_shelf h.fence, flatten_filter]
    · rfl
    · exact fun row hrow hblank => ownRemark_blank (h.plainScript.onLine hrow)
        (by simpa using hblank)

/-- The lines that the passes leave, filled with what was put aside, are cut where they were
filled. -/
theorem Legible.linesAgain (htally : Tally (Lifting.result raw).shelves plainKinds worked.lines)
    (htext : splitLines f.text = printed (Lifting.result raw).shelves plainKinds worked.lines)
    (hplain : PlainScript f.text) :
    LinesAgain .resume cutResume worked.lines ((Lifting.result raw).shelves.get .resume) ∧
      LinesAgain .remark cutRemark
        (fillPieces .resume worked.lines ((Lifting.result raw).shelves.get .resume))
        ((Lifting.result raw).shelves.get .remark) ∧
      LinesAgain .string cutStrings
        (fillPieces .remark
          (fillPieces .resume worked.lines ((Lifting.result raw).shelves.get .resume))
          ((Lifting.result raw).shelves.get .remark))
        ((Lifting.result raw).shelves.get .string) := by
  have hready := h.ready_workLines hstyle hsingle hok hwork
  obtain ⟨owns, hbrings, howns⟩ := h.brings_workLines hstyle hsingle hok hwork
  obtain ⟨hresumes, hremarks, hstrings, _⟩ := htally
  have hfilled := fillPieces_phrases (fun l hl => phrase_shelf hl) (Nat.le_of_eq hresumes)
  have hremark : LinesAgain .remark cutRemark
      (fillPieces .resume worked.lines ((Lifting.result raw).shelves.get .resume))
      ((Lifting.result raw).shelves.get .remark) := by
    rw [hfilled, ← howns]
    exact linesAgain_remark hready hbrings
  refine ⟨linesAgain_of_tally hresumes fun line hline own hown hlen =>
    (hready line hline).cutAgain_resume hlen fun l hl => phrase_shelf (hown hl), hremark, ?_⟩
  refine linesAgain_of_tally hstrings fun line hline own hown hlen => ?_
  have hfree := nul_free_gaps_of_filled hstrings
    (fun y hy hnul => (hplain.onLine (htext ▸ hy) _ hnul).1 rfl) line hline
  obtain ⟨x, hx, comment, hcomment, hcut, rfl⟩ := hremark.of_mem hline
  rw [hfilled] at hx
  obtain ⟨w, hw, rfl⟩ := List.mem_map.mp hx
  refine (hready w hw).cutAgain_string hcut (fun l hl hnul => ?_) hlen (fun l hl => ?_) hfree
  · exact ((h.plainScript.literal h.fence (hcomment hl)).2 _ hnul).1 rfl
  · exact h.plainScript.quotedString h.fence (hown hl)

end

section
variable {settings : Settings} {style : Style} {raw : Text} {f : Formatted} (h : Legible raw)
  (hstyle : settings.style = .ok style)
  (hsingle : statements style (Lifting.result raw).lines = (Lifting.result raw).lines)
  (hok : format settings raw = .ok f)
include h hstyle hsingle hok

/-- A formatted script is plain. -/
theorem Legible.plainScript_text : PlainScript f.text ∧ fenceScripts f.text = f.text := by
  have hsq := h.squeezed_text hstyle hsingle hok
  exact plainScript_of_squeezed (nul_free_of_squeezed hsq h.nul) (hsq ▸ h.plain)

/-- The lines that the passes leave and the literals are put aside again from a formatted script. -/
theorem Legible.lift_again : ∃ worked,
    (workLines style (Lifting.result raw).shelves (Lifting.result raw).lines).outcome = .ok worked ∧
      (Lifting.result f.text).lines = worked.lines ∧
      (Lifting.result f.text).shelves = (Lifting.result raw).shelves := by
  obtain ⟨worked, hwork, htext, htally⟩ := h.plainScript.splitLines_text h.fence hstyle hok
  obtain ⟨hplain, hfence⟩ := h.plainScript_text hstyle hsingle hok
  obtain ⟨hresume, hremark, hstring⟩ := h.linesAgain hstyle hsingle hok hwork htally htext hplain
  refine ⟨worked, hwork, lift_printed hplain hfence htext (h.plainScript.markup_shelf h.fence)
    (h.plainScript.delimiter_shelf h.fence) (fun l hl => phrase_shelf hl) hresume hremark hstring⟩

/-- A formatted script is formatted to itself, if no statement of the script is split. -/
theorem Legible.text_again :
    ∃ g, format settings f.text = .ok g ∧ g.text = f.text ∧ g.changed = false := by
  obtain ⟨hu, _⟩ := Settings.style_ok hstyle
  have hclear := h.not_astray hstyle hok
  obtain ⟨hplain, hfence⟩ := h.plainScript_text hstyle hsingle hok
  obtain ⟨worked, hwork, hlines, hshelves⟩ := h.lift_again hstyle hsingle hok
  have hkept := single_workLines h.nul hu hclear hwork
  obtain ⟨again, hagain, hleft, _⟩ := workLines_again h.nul hu hclear hwork hkept
  rw [← hshelves, ← hlines] at hagain
  -- the second run gives a text, as its words are recased and nothing in it stands astray
  have hruns : ∃ g, format settings f.text = .ok g := by
    obtain ⟨recased, _, hrecase, _, _⟩ := workLines_ok hagain
    refine (hplain.ok_iff hfence hstyle).mpr ⟨⟨recased, hrecase⟩, fun k l hl => ?_⟩
    rw [spacedLines, hlines, hkept] at hl
    exact clear_again h.nul hu hclear hwork l hl k
  obtain ⟨g, hg⟩ := hruns
  have htext : g.text = f.text := by
    obtain ⟨again', hwork₂, htext₂, _⟩ := hplain.text_eq hfence hstyle hg
    obtain rfl : again' = again := Except.ok.inj (hwork₂.symm.trans hagain)
    obtain ⟨worked₁, hwork₁, htext₁, htally, _⟩ := h.plainScript.text_eq h.fence hstyle hok
    obtain rfl : worked₁ = worked := Except.ok.inj (hwork₁.symm.trans hwork)
    rw [hshelves, hleft] at htext₂
    have hliteral := fun k l (hl : l ∈ (Lifting.result raw).shelves.get k) =>
      h.plainScript.literal h.fence hl
    have hunbroken :
        ∀ l ∈ printed (Lifting.result raw).shelves plainKinds worked₁.lines, Unbroken l :=
      unbroken_printed (unbroken_workLines hu hwork) fun k l hl c hc => ((hliteral k l hl).2 c hc).2
    have hlast := last_printed (fun k l hl => (hliteral k l hl).1) htally (last_workLines hwork)
    rw [htext₂, htext₁]
    exact closeLines_again (newlineOf_cases raw) hunbroken hlast
  exact ⟨g, hg, htext, by rw [format_changed hg, htext, bne_self_eq_false]⟩

end

/-- A legible script of whose lines each declares one name at most is formatted once and for all,
whatever the settings are. -/
theorem format_single_again {settings : Settings} {raw : Text} {f : Formatted} (h : Legible raw)
    (hone : ∀ row ∈ splitLines raw, declaredCount (liftedLine row) ≤ 1)
    (hok : format settings raw = .ok f) :
    ∃ g, format settings f.text = .ok g ∧ g.text = f.text ∧ g.changed = false := by
  obtain ⟨style, worked, hstyle, _, _, _⟩ := format_ok hok
  refine h.text_again hstyle ?_ hok
  rw [h.plainScript.lines_eq h.fence]
  refine statements_of_single fun l hl => ?_
  obtain ⟨row, hrow, rfl⟩ := List.mem_map.mp hl
  exact hone row hrow

/-- Formatting a formatted script changes nothing. When a legible script comes through with its
declarations left together, its text comes through again with the same settings, and the second run
gives the text that it was given and tells that nothing has changed. -/
theorem format_again {settings : Settings} {raw : Text} {f : Formatted} (h : Legible raw)
    (hsplit : settings.splitDeclarations = false) (hok : format settings raw = .ok f) :
    ∃ g, format settings f.text = .ok g ∧ g.text = f.text ∧ g.changed = false := by
  obtain ⟨style, worked, hstyle, _, _, _⟩ := format_ok hok
  obtain ⟨_, hkeep⟩ := Settings.style_ok hstyle
  refine h.text_again hstyle ?_ hok
  rw [statements, hkeep, hsplit]
  rfl

/-- A quote in a string, a comment and a block to be indented. -/
def plainOrder : Text :=
  "if a=\"it's\" then 'one\nb=2".toList

theorem legible_plainOrder : Legible plainOrder := by
  refine ⟨by decide, by decide, ?_, ?_, ?_⟩ <;> decide +kernel

theorem plainOrder_again : ∃ f g, format { splitDeclarations := false } plainOrder = .ok f ∧
    f.text ≠ plainOrder ∧ format { splitDeclarations := false } f.text = .ok g ∧
      g.text = f.text ∧ g.changed = false := by
  have hsome : ((format { splitDeclarations := false } plainOrder).toOption.any
      fun f => f.text != plainOrder) = true := by decide +kernel
  cases hok : format { splitDeclarations := false } plainOrder with
  | error e =>
    rw [hok] at hsome
    cases hsome
  | ok f =>
    rw [hok] at hsome
    obtain ⟨g, hg, htext, hchanged⟩ := format_again legible_plainOrder rfl hok
    exact ⟨f, g, rfl, bne_iff_ne.mp hsome, hg, htext, hchanged⟩

end VbTidy
