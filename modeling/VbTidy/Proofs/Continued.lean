import VbTidy.Proofs.Twins

/-
Lines that are continued. A statement goes on behind a line that ends with a blank and an
underscore, so no blank line may come between that line and the next. The layout looks at each line
by itself: it sets a blank line behind what closes a block and before what opens one, continued or
not.

What is proved:
  1. `indentLines_continued`: the layout of a continued line and the line after it. Both come out in
     place, and between them stands one blank line if the first closes a block or the second opens
     one, and nothing otherwise.
  2. `continuedLoop_parted`: a condition that goes on behind the end of a loop is cut off from it.
-/
namespace VbTidy

/-- A line that ends with a blank and the mark of continuation. -/
def Continued (line : Text) : Prop :=
  ∃ t c, isBlank c = true ∧ trim line = t ++ [c, '_']

/-- The row of a line that stands behind others. -/
def rowBehind (lines : List Text) (line : Text) : Row :=
  (rowAt (openDepth lines) line).1

/-- The lines between two rows in a layout: a blank one behind the end or before the start of a
block. -/
def gapBetween (r s : Row) : List Text :=
  if r.shift.block < 0 ∨ 0 < s.shift.block then [[]] else []

/-- The rows with text, indented. -/
def printedRows (unit : Text) (rows : List Row) : List Text :=
  (rows.filter (!·.text.isEmpty)).map (indented unit)

/-! ## Rows -/

theorem nestFrom_append (depth : Nat) (xs ys : List Text) :
    nestFrom depth (xs ++ ys) =
      ((nestFrom depth xs).1 ++ (nestFrom (nestFrom depth xs).2 ys).1,
        (nestFrom (nestFrom depth xs).2 ys).2) := by
  induction xs generalizing depth with
  | nil => rfl
  | cons x xs ih => simp [nestFrom, ih]

theorem openDepth_concat (lines : List Text) (line : Text) :
    openDepth (lines ++ [line]) = (rowAt (openDepth lines) line).2 := by
  rw [openDepth, nestFrom_append]
  rfl

theorem nest_two (pre post : List Text) (a b : Text) :
    nest (pre ++ a :: b :: post) =
      nest pre ++ rowBehind pre a :: rowBehind (pre ++ [a]) b ::
        (nestFrom (openDepth (pre ++ [a, b])) post).1 := by
  have hab : pre ++ [a, b] = (pre ++ [a]) ++ [b] := by simp
  rw [hab, openDepth_concat, rowBehind, rowBehind, openDepth_concat, nest, nestFrom_append]
  rfl

theorem text_rowBehind (lines : List Text) (line : Text) : (rowBehind lines line).text = trim line :=
  text_rowAt _ _

theorem indented_ne_nil {unit : Text} {r : Row} (h : r.text ≠ []) : indented unit r ≠ [] := by
  rw [indented]
  split
  · exact h
  · simp [h]

/-- A continued line is no comment, however it is indented. -/
theorem Continued.trim_indented {line : Text} (h : Continued line) (unit : Text)
    (lines : List Text) : trim (indented unit (rowBehind lines line)) ≠ Kind.remark.token := by
  obtain ⟨t, c, _, htext⟩ := h
  have hlast : (indented unit (rowBehind lines line)).getLast? = some '_' := by
    rw [indented, text_rowBehind, htext]
    split <;> simp
  intro htoken
  obtain ⟨s₁, s₂, heq, _, hs₂⟩ := trim_split (indented unit (rowBehind lines line))
  rw [htoken] at heq
  rw [heq, List.getLast?_append, List.getLast?_append] at hlast
  cases hs : s₂.getLast? with
  | none =>
    have hend : Kind.remark.token.getLast? = some '\x00' := by decide
    rw [hs, hend] at hlast
    cases hlast
  | some d =>
    rw [hs] at hlast
    obtain rfl : d = '_' := by simpa using hlast
    exact absurd (hs₂ _ (List.mem_of_getLast? hs)) (by decide)

/-! ## Tidying -/

theorem addLine_text {line : Text} (hline : line ≠ []) (above : List Text) :
    ∃ above', addLine above line = line :: above' ∧
      above'.filter (!·.isEmpty) = above.filter (!·.isEmpty) := by
  have hfilter := filter_addLine above line
  by_cases hblank : ∃ comment rest, above = [] :: comment :: rest
  · obtain ⟨comment, rest, rfl⟩ := hblank
    rw [addLine_behind_blank hline]
    split
    · exact ⟨_, rfl, by simp⟩
    · exact ⟨_, rfl, rfl⟩
  · rw [addLine_code hline fun comment rest h => hblank ⟨comment, rest, h⟩]
    exact ⟨above, rfl, rfl⟩

/-- Neither a line that is not blank nor what stands above it changes any more. -/
theorem foldl_addLine_kept {x : Text} (hx : x ≠ []) (lines below above : List Text) :
    ∃ more, lines.foldl addLine (below ++ x :: above) = more ++ x :: above := by
  induction lines generalizing below with
  | nil => exact ⟨below, rfl⟩
  | cons line lines ih =>
    have hstep : ∃ more, addLine (below ++ x :: above) line = more ++ x :: above := by
      by_cases hline : line = []
      · rw [hline, addLine_nil]
        split
        · exact ⟨below, rfl⟩
        · exact ⟨[] :: below, rfl⟩
      · match below with
        | [] :: comment :: more =>
          rw [List.cons_append, List.cons_append, addLine_behind_blank hline]
          split
          · exact ⟨line :: comment :: more, rfl⟩
          · exact ⟨line :: [] :: comment :: more, rfl⟩
        | [[]] =>
          rw [List.cons_append, List.nil_append, addLine_behind_blank hline]
          split
          · exact ⟨[line], rfl⟩
          · exact ⟨[line, []], rfl⟩
        | [] => exact ⟨[line], addLine_code hline fun _ _ h => hx (List.cons.inj h).1⟩
        | (c :: t) :: more =>
          exact ⟨line :: (c :: t) :: more, addLine_code hline fun _ _ h => by simp at h⟩
    obtain ⟨more, hmore⟩ := hstep
    rw [List.foldl_cons, hmore]
    exact ih more

/-- Blank lines behind a line come to one, or to none where there are none. -/
theorem foldl_addLine_blanks {x : Text} (hx : x ≠ []) (n : Nat) (above : List Text) :
    (List.replicate n []).foldl addLine (x :: above) =
      (if n = 0 then [] else [[]]) ++ x :: above := by
  have hone : addLine (x :: above) [] = [] :: x :: above := by
    rw [addLine_nil, if_neg]
    simpa using hx
  cases n with
  | zero => rfl
  | succ n =>
    rw [List.replicate_succ, List.foldl_cons, hone, if_neg (Nat.succ_ne_zero n)]
    induction n with
    | zero => rfl
    | succ n ih =>
      rw [List.replicate_succ, List.foldl_cons, addLine_nil, if_pos (by simp)]
      exact ih

/-- A line that is no comment, what comes behind it up to the next line with text, and that line. -/
theorem foldl_addLine_pair {x y : Text} (hx : x ≠ []) (hy : y ≠ [])
    (hcomment : trim x ≠ Kind.remark.token) (n : Nat) (above : List Text) :
    addLine ((List.replicate n []).foldl addLine (x :: above)) y =
      y :: ((if n = 0 then [] else [[]]) ++ x :: above) := by
  rw [foldl_addLine_blanks hx]
  split
  · exact addLine_code hy fun _ _ h => hx (List.cons.inj h).1
  · rw [List.cons_append, List.nil_append, addLine_behind_blank hy, if_neg]
    simp [hcomment]

theorem filter_spread (unit : Text) (rows : List Row) :
    (rows.flatMap (spread unit)).filter (!·.isEmpty) = printedRows unit rows := by
  induction rows with
  | nil => rfl
  | cons r rows ih =>
    rw [List.flatMap_cons, List.filter_append, ih, printedRows, printedRows, spread]
    by_cases ht : r.text = []
    · simp [ht]
    · have hline := @indented_ne_nil unit r ht
      rw [if_neg (by simpa using ht), List.filter_cons_of_pos (by simpa using ht)]
      split <;> split <;> simp [hline]

/-! ## The layout of a continued line -/

theorem spread_eq {unit : Text} {r : Row} (h : r.text ≠ []) :
    spread unit r = List.replicate (if 0 < r.shift.block then 1 else 0) [] ++
      indented unit r :: List.replicate (if r.shift.block < 0 then 1 else 0) [] := by
  rw [spread, if_neg (by simpa using h)]
  split <;> split <;> rfl

/-- Two rows with text and no row between them, the first no comment. -/
theorem layOut_pair {unit : Text} {r s : Row} (rows more : List Row) (hr : r.text ≠ [])
    (hs : s.text ≠ []) (hcomment : trim (indented unit r) ≠ Kind.remark.token) :
    ∃ above below,
      layOut unit (rows ++ r :: s :: more) =
        above ++ indented unit r :: (gapBetween r s ++ indented unit s :: below) ∧
      above.filter (!·.isEmpty) = printedRows unit rows ∧
      below.filter (!·.isEmpty) = printedRows unit more := by
  have hx := @indented_ne_nil unit r hr
  have hy := @indented_ne_nil unit s hs
  -- the lines in front of the first row, between the two rows, and behind the second
  let front := rows.flatMap (spread unit) ++
    List.replicate (if 0 < r.shift.block then 1 else 0) []
  let blanks := (if r.shift.block < 0 then 1 else 0) + (if 0 < s.shift.block then 1 else 0)
  let rest := List.replicate (if s.shift.block < 0 then 1 else 0) [] ++
    more.flatMap (spread unit)
  have hlines : (rows ++ r :: s :: more).flatMap (spread unit) =
      front ++ indented unit r :: (List.replicate blanks [] ++ indented unit s :: rest) := by
    simp only [front, blanks, rest, List.flatMap_append, List.flatMap_cons, spread_eq hr,
      spread_eq hs, List.replicate_add, List.append_assoc, List.cons_append]
  have hgap : (if blanks = 0 then [] else [[]]) = gapBetween r s := by
    simp only [blanks, gapBetween]
    split <;> split <;> simp_all
  obtain ⟨above, habove, hfilter⟩ := addLine_text hx (front.foldl addLine [])
  obtain ⟨below, hbelow⟩ :=
    foldl_addLine_kept hy rest [] (gapBetween r s ++ indented unit r :: above)
  rw [List.nil_append] at hbelow
  have hfold : ((rows ++ r :: s :: more).flatMap (spread unit)).foldl addLine [] =
      below ++ indented unit s :: (gapBetween r s ++ indented unit r :: above) := by
    rw [hlines, List.foldl_append, List.foldl_cons, habove, List.foldl_append, List.foldl_cons,
      foldl_addLine_pair hx hy hcomment, hgap]
    exact hbelow
  have hmore := filter_foldl_addLine rest (indented unit s :: (gapBetween r s ++
    indented unit r :: above))
  rw [hbelow, List.filter_append, List.filter_append,
    List.append_left_inj] at hmore
  refine ⟨above.reverse, (below.dropWhile (·.isEmpty)).reverse, ?_, ?_, ?_⟩
  · rw [layOut, tidyBlankLines, hfold, dropWhile_cut (by simpa using hy)]
    have hreverse : (gapBetween r s).reverse = gapBetween r s := by
      rw [gapBetween]
      split <;> rfl
    simp [hreverse]
  · rw [List.filter_reverse, hfilter, filter_foldl_addLine, List.append_nil, List.filter_reverse,
      List.reverse_reverse, List.filter_append, filter_spread]
    simp
  · rw [List.filter_reverse, filter_dropWhile_blank, hmore, List.filter_reverse,
      List.reverse_reverse, List.filter_append, filter_spread]
    simp

/-- A continued line and the line after it come out one behind the other, with a blank line between
them exactly if the first closes a block or the second opens one. The lines before them come out
before them, and the lines after them after them, all in order. -/
theorem indentLines_continued {unit a b : Text} (pre post : List Text) (ha : Continued a)
    (hb : trim b ≠ []) :
    ∃ above below,
      indentLines unit (pre ++ a :: b :: post) =
        above ++ indented unit (rowBehind pre a) ::
          (gapBetween (rowBehind pre a) (rowBehind (pre ++ [a]) b) ++
            indented unit (rowBehind (pre ++ [a]) b) :: below) ∧
      above.filter (!·.isEmpty) = printedRows unit (nest pre) ∧
      below.filter (!·.isEmpty) =
        printedRows unit (nestFrom (openDepth (pre ++ [a, b])) post).1 := by
  have hcomment := ha.trim_indented unit pre
  obtain ⟨t, c, _, htext⟩ := ha
  rw [indentLines, nest_two]
  refine layOut_pair _ _ ?_ ?_ hcomment
  · rw [text_rowBehind, htext]
    simp
  · rw [text_rowBehind]
    exact hb

/-- The start of a block whose condition goes on keeps the rest of it. -/
theorem continuedCondition_together :
    Continued "If a And _".toList ∧ trim "b Then".toList ≠ [] ∧
      ["If a And _".toList, " b Then".toList] <:+:
        indentLines [' '] (["x = 1", "If a And _", "b Then", "y = 2"].map String.toList) := by
  have ha : Continued "If a And _".toList := ⟨"If a And".toList, ' ', by decide, by decide⟩
  have hb : trim "b Then".toList ≠ [] := by decide
  obtain ⟨above, below, heq, _⟩ :=
    @indentLines_continued [' '] _ _ ["x = 1".toList] ["y = 2".toList] ha hb
  have hgap : gapBetween (rowBehind ["x = 1".toList] "If a And _".toList)
      (rowBehind ["x = 1".toList, "If a And _".toList] "b Then".toList) = [] := by decide +kernel
  have hfirst : indented [' '] (rowBehind ["x = 1".toList] "If a And _".toList) =
      "If a And _".toList := by decide +kernel
  have hsecond : indented [' '] (rowBehind ["x = 1".toList, "If a And _".toList] "b Then".toList) =
      " b Then".toList := by decide +kernel
  refine ⟨ha, hb, above, below, ?_⟩
  simp only [List.cons_append, List.nil_append, hgap, hfirst, hsecond] at heq
  simpa using heq.symm

/-- A loop whose condition goes on behind the line that ends it. -/
def continuedLoop : List Text :=
  ["Do", "x = x + 1", "Loop While x < 10 And _", "y < 5"].map String.toList

/-- The end of the loop and the rest of its condition do not stay together. -/
theorem continuedLoop_parted :
    Continued "Loop While x < 10 And _".toList ∧ trim "y < 5".toList ≠ [] ∧
      ["Loop While x < 10 And _".toList, "y < 5".toList] <:+: continuedLoop ∧
      indentLines "    ".toList continuedLoop =
        ["Do", "    x = x + 1", "Loop While x < 10 And _", "", "y < 5"].map String.toList ∧
      ¬ ["Loop While x < 10 And _".toList, "y < 5".toList] <:+:
        indentLines "    ".toList continuedLoop := by
  have hlaid : indentLines "    ".toList continuedLoop =
      ["Do", "    x = x + 1", "Loop While x < 10 And _", "", "y < 5"].map String.toList := by
    decide
  refine ⟨⟨"Loop While x < 10 And".toList, ' ', by decide, by decide⟩, by decide, by decide,
    hlaid, ?_⟩
  rw [hlaid]
  decide

end VbTidy
