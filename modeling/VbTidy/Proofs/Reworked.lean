import VbTidy.Proofs.Aligned
import VbTidy.Proofs.Separated
import VbTidy.Proofs.Spelling

/-
The passes for a second time. Lines that all passes leave are spaced to the rows that were laid out,
since what aligning and indenting put in front of an equals sign, a comment or a row is taken back
(`spaceLine_moves`, `spaceLine_row`); the words of these rows are written as they are, and the
layout of a layout is the same. So aligning meets the lines that it met before, and the passes leave
the lines as they are (`workLines_again`).
-/
namespace VbTidy

/-! ## Spacing takes back what the other passes put in -/

theorem spaceLine_congr {l l' : Text} (h : trim l = trim l') : spaceLine l = spaceLine l' := by
  rw [spaceLine, spaceLine, h]

/-- A line that is spaced has no white space at its ends. -/
theorem trim_spaceLine (line : Text) : trim (spaceLine line) = spaceLine line := by
  rcases line_cases line with h | ⟨x, h, hx⟩ | ⟨hne, h⟩
  · rw [spaceLine_bare h, trim_twice]
  · obtain ⟨c, d, hfrom, hc, hd⟩ := fromTo_trim (trim_before_remark h hx)
    obtain ⟨hline, _⟩ :=
      trim_spaced_remark (hfrom.respaced (isBlank_of_ink hc) (isBlank_of_ink hd)) hc hd
    rw [spaceLine_remark h hx, hline]
    simp
  · obtain ⟨c, d, hfrom, hc, hd⟩ := fromTo_trim hne
    rw [spaceLine_code hne h]
    exact (hfrom.respaced (isBlank_of_ink hc) (isBlank_of_ink hd)).trim hc hd

/-- Where an equals sign or a comment has moved to does not matter. -/
theorem spaceLine_moves {m : Marker} (hm : m = assignmentMarker ∨ m = remarkMarker) {l l' : Text}
    (h : Clear l) (hl : m.Moves l l') : spaceLine l' = spaceLine l := by
  rcases hl with rfl | ⟨cut, n, hcut, rfl⟩
  · rfl
  · rcases hm with rfl | rfl
    · obtain ⟨a, b, rfl, _, hshift⟩ := assignment_shift (n := n) hcut
      rw [hshift, spaceLine_equals fun c hc => ?_]
      rw [List.eq_of_mem_replicate hc]
      rfl
    · obtain ⟨x, y, rfl, hfirst, _, hshift⟩ := remark_shift (n := n) hcut
      obtain ⟨_, rfl⟩ := comment_of_first h.settled.toOrderly (h.clear .remark) hfirst
      rw [hshift, List.append_nil, spaceLine_comment (spaces_replicate (n + 1))]

/-- What comes of lines that are moved is spaced to the lines. -/
theorem map_spaceLine_moves {m : Marker} (hm : m = assignmentMarker ∨ m = remarkMarker)
    {lines out : List Text} (hclear : ∀ l ∈ lines, Clear l) (h : List.Forall₂ m.Moves lines out) :
    out.map spaceLine = lines.map spaceLine := by
  induction h with
  | nil => rfl
  | cons hl _ ih =>
    rw [List.map_cons, List.map_cons, spaceLine_moves hm (hclear _ List.mem_cons_self) hl,
      ih fun l hl => hclear l (List.mem_cons_of_mem _ hl)]

/-! ## Lines in order -/

/-- A line that spacing and recasing leave as it is. -/
structure InOrder (case : LetterCase) (l : Text) : Prop where
  spaced : spaceLine l = l
  cased : case = .unchanged ∨ recaseLine case l = .ok l

theorem inOrder_nil (case : LetterCase) : InOrder case [] where
  spaced := rfl
  cased := .inr rfl

theorem recase_inOrder {case : LetterCase} {lines : List Text} (h : ∀ l ∈ lines, InOrder case l) :
    recase case lines = .ok lines := by
  by_cases hcase : case = .unchanged
  · rw [hcase]
    rfl
  · rw [recase_eq hcase]
    induction lines with
    | nil => rfl
    | cons l lines ih =>
      have hl := (h l List.mem_cons_self).cased.resolve_left hcase
      rw [List.mapM_cons, hl, ok_bind, ih fun l' hl' => h l' (List.mem_cons_of_mem l hl'), ok_bind]
      rfl

/-- What spacing and recasing make of lines is in order. -/
theorem inOrder_recase {case : LetterCase} {lines recased : List Text}
    (hs : ∀ l ∈ lines, Sound 0 (spaceLine l))
    (h : recase case (lines.map spaceLine) = .ok recased) : ∀ l ∈ recased, InOrder case l := by
  by_cases hcase : case = .unchanged
  · rw [hcase] at h
    rw [← Except.ok.inj h]
    intro l hl
    obtain ⟨line, _, rfl⟩ := List.mem_map.mp hl
    exact ⟨spaceLine_twice line, .inl hcase⟩
  · rw [recase_eq hcase] at h
    have hstep : ∀ l l', (∃ line ∈ lines, spaceLine line = l) → recaseLine case l = .ok l' →
        InOrder case l' := by
      rintro _ l' ⟨line, hline, rfl⟩ hl
      refine ⟨spaceLine_recaseLine (hs line hline) hl, .inr ?_⟩
      -- written in the same letter case again it is the same
      obtain ⟨out, hout, hagain⟩ := (overrides_recaseLine case case).ok hl
      obtain rfl := Except.ok.inj (hl.symm.trans hagain)
      exact hout
    exact forall_of_forall₂ hstep (mapM_ok_forall₂ h) fun l hl => List.mem_map.mp hl

section
variable {unit : Text} (hu : ∀ c ∈ unit, isBlank c = true) {case : LetterCase} {rows : List Text}
  (h : ∀ l ∈ rows, InOrder case l)
include hu h

/-- Without the white space in front of it a row that was laid out is in order. -/
theorem inOrder_trim {l : Text} (hl : l ∈ layOut unit (nest rows)) : InOrder case (trim l) := by
  rcases of_mem_layOut hu hl with rfl | ⟨r, hr, s, hs, rfl⟩
  · exact inOrder_nil case
  · have htrim : trim (s ++ trim r) = r := by
      have hdrop : trim (s ++ trim r) = trim (trim r) := by
        rw [← trim_dropSpaces, List.dropWhile_append_of_pos hs, trim_dropSpaces]
      rw [hdrop, trim_twice, ← (h r hr).spaced, trim_spaceLine]
    rw [htrim]
    exact h r hr

theorem spaceLine_layOut :
    (layOut unit (nest rows)).map spaceLine = (layOut unit (nest rows)).map trim := by
  apply List.map_congr_left
  intro l hl
  rw [← (inOrder_trim hu h hl).spaced]
  exact spaceLine_congr (trim_twice l).symm

end

/-! ## All passes -/

theorem nestFrom_trim (depth : Nat) (lines : List Text) :
    nestFrom depth (lines.map trim) = nestFrom depth lines := by
  induction lines generalizing depth with
  | nil => rfl
  | cons l lines ih =>
    rw [List.map_cons, nestFrom, nestFrom, rowAt_congr (trim_twice l), ih]

/-- Lines that are laid out, without the white space at their ends, are laid out as they were. -/
theorem layOut_trim {unit : Text} (hu : ∀ c ∈ unit, isSpace c = true) (rows : List Text) :
    nest ((layOut unit (nest rows)).map trim) = nest (layOut unit (nest rows)) ∧
      layOut unit (nest ((layOut unit (nest rows)).map trim)) = layOut unit (nest rows) := by
  have hnest : nest ((layOut unit (nest rows)).map trim) = nest (layOut unit (nest rows)) := by
    rw [nest, nestFrom_trim]
    rfl
  obtain ⟨_, _, _, _, hagain⟩ := indentLines_settled hu rows
  refine ⟨hnest, ?_⟩
  rw [hnest]
  exact hagain

/-- What the passes leave is spaced to the rows that were laid out, and these are in order. -/
theorem spaced_again {style : Style} {raw : Text} {recased assigned out : List Text}
    (hnul : '\x00' ∉ raw) (hu : ∀ c ∈ style.unit, isBlank c = true) (hclear : ¬ Astray style raw)
    (hr : recase style.letterCase (spacedLines style raw) = .ok recased)
    (ha : assignmentMarker.align (Lifting.result raw).shelves (layOut style.unit (nest recased)) =
      .ok assigned)
    (hout : remarkMarker.align (Lifting.result raw).shelves assigned = .ok out) :
    out.map spaceLine = (layOut style.unit (nest recased)).map trim ∧
      ∀ l ∈ (layOut style.unit (nest recased)).map trim,
        InOrder style.letterCase l ∧ ∀ k, ¬ Stray k l := by
  obtain ⟨hlaid, hassigned, _⟩ := clear_lines hnul hu hclear hr ha hout
  have hsound : ∀ l ∈ statements style (Lifting.result raw).lines, Sound 0 (spaceLine l) :=
    fun l hl => ((settled_spacedLines hnul style).1 _ (List.mem_map_of_mem hl)).sound
  have hrows := inOrder_recase hsound hr
  constructor
  · rw [map_spaceLine_moves (.inr rfl) hassigned (align_moves hout),
      map_spaceLine_moves (.inl rfl) hlaid (align_moves ha), spaceLine_layOut hu hrows]
  · intro l hl
    obtain ⟨row, hrow, rfl⟩ := List.mem_map.mp hl
    refine ⟨inOrder_trim hu hrows hrow, fun k hs => ?_⟩
    exact (hlaid row hrow).clear k ((stray_trim (hlaid row hrow).settled.sound).mp hs)

section
variable {style : Style} {raw : Text} {worked : Worked} (hnul : '\x00' ∉ raw)
  (hu : ∀ c ∈ style.unit, isBlank c = true) (hclear : ¬ Astray style raw)
  (hwork : (workLines style (Lifting.result raw).shelves (Lifting.result raw).lines).outcome =
    .ok worked)
include hnul hu hclear hwork

/-- Spaced again the lines that the passes leave have nothing astray. -/
theorem clear_again : ∀ l ∈ worked.lines.map spaceLine, ∀ k, ¬ Stray k l := by
  obtain ⟨recased, assigned, hr, ha, hm⟩ := workLines_ok hwork
  obtain ⟨hspaced, hlaid⟩ := spaced_again hnul hu hclear hr ha hm
  rw [hspaced]
  exact fun l hl => (hlaid l hl).2

/-- The passes leave the lines that they have left as they are, given that no statement is split. -/
theorem workLines_again (hsingle : statements style worked.lines = worked.lines) :
    ∃ again, (workLines style (Lifting.result raw).shelves worked.lines).outcome = .ok again ∧
      again.lines = worked.lines ∧ again.assignmentBlocks = worked.assignmentBlocks ∧
      again.remarkBlocks = worked.remarkBlocks := by
  obtain ⟨recased, assigned, hr, ha, hm⟩ := workLines_ok hwork
  obtain ⟨hspaced, hlaid⟩ := spaced_again hnul hu hclear hr ha hm
  have hcased := recase_inOrder fun l hl => (hlaid l hl).1
  obtain ⟨_, hagain⟩ := layOut_trim (fun c hc => isSpace_of_isBlank (hu c hc)) recased
  have hrecase : recase style.letterCase ((statements style worked.lines).map spaceLine) =
      .ok ((layOut style.unit (nest recased)).map trim) := by
    rw [hsingle, hspaced, hcased]
  have hrun : ∃ again, (workLines style (Lifting.result raw).shelves worked.lines).outcome =
      .ok again ∧ again.lines = worked.lines := by
    rw [workLines_outcome, hrecase, ok_bind]
    dsimp only
    rw [hagain, ha, ok_bind, hm, ok_bind]
    exact ⟨_, rfl, rfl⟩
  obtain ⟨again, hout, hlines⟩ := hrun
  obtain ⟨_, _, hequals, hremarks, _⟩ := worked_of_indented hwork hr
  obtain ⟨_, _, hequals', hremarks', _⟩ := worked_of_indented hout hrecase
  rw [hagain] at hequals' hremarks'
  exact ⟨again, hout, hlines, hequals'.trans hequals.symm, hremarks'.trans hremarks.symm⟩

end

end VbTidy
