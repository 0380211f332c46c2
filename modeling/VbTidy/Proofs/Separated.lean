import VbTidy.Proofs.Continued
import VbTidy.Proofs.Respaced

/-
The layout by its rows. Tidying pushes lines one by one behind those that it has, takes a blank line
back when a comment meets its procedure, and drops what is blank at the end. What comes out can be
said without all that: the rows with text, indented, and between each two of them a blank line or
none, which the two rows and the lines between them decide (`layOut_eq`).

What is proved:
  1. `layOut_eq`: the layout is the rows set apart. The invariant of the fold is that a text stands
     on top of the lines so far, below at most one blank line.
  2. `nestFrom_setApart`: the lines of a layout have the rows they were made from, blank ones aside,
     so they are set apart as before.
  3. `indentLines_settled`: what the layout of any lines is, and that laying out again changes
     nothing.
-/
namespace VbTidy

/-- A blank line, if it is asked for. -/
def blankIf (b : Bool) : List Text :=
  if b then [[]] else []

/-- Whether a row is just a comment, and the row below it declares the procedure it belongs to. -/
def attached (r s : Row) : Bool :=
  r.text == Kind.remark.token && declaresProcedure s.text

/-- The lines between a row and the next one with text: a blank line where one stood, behind the end
and before the start of a block, but none between a comment and its procedure. -/
def separator (blank : Bool) (r s : Row) : List Text :=
  blankIf ((blank || r.shift.block < 0 || 0 < s.shift.block) && !attached r s)

/-- Rows with text, indented and set apart, below a row with text if there is one. -/
def setApart (unit : Text) : Option Row → Bool → List Row → List Text
  | _, _, [] => []
  | above, blank, r :: rows =>
    if r.text.isEmpty then setApart unit above true rows
    else above.elim [] (separator blank · r) ++ indented unit r :: setApart unit (some r) false rows

section
variable {unit : Text} {above : Option Row} {blank : Bool}

theorem setApart_blank {r : Row} (h : r.text = []) (rows : List Row) :
    setApart unit above blank (r :: rows) = setApart unit above true rows := by
  rw [setApart, if_pos (by simp [h])]

theorem setApart_row {r : Row} (h : r.text ≠ []) (rows : List Row) :
    setApart unit above blank (r :: rows) =
      above.elim [] (separator blank · r) ++ indented unit r :: setApart unit (some r) false rows := by
  rw [setApart, if_neg (by simpa using h)]

end

/-! ## Indented rows -/

/-- A row without white space at the ends of its text. -/
def Trimmed (r : Row) : Prop :=
  trim r.text = r.text

theorem trimmed_rowAt (depth : Nat) (line : Text) : Trimmed (rowAt depth line).1 := by
  rw [Trimmed, text_rowAt, trim_twice]

theorem trimmed_nestFrom {depth : Nat} {lines : List Text} :
    ∀ r ∈ (nestFrom depth lines).1, Trimmed r := by
  induction lines generalizing depth with
  | nil => intro r hr; cases hr
  | cons line lines ih =>
    intro r hr
    rcases List.mem_cons.mp hr with rfl | hr
    · exact trimmed_rowAt depth line
    · exact ih r hr

theorem dropWhile_trimmed {r : Row} (h : Trimmed r) : r.text.dropWhile isSpace = r.text := by
  by_cases hr : r.text = []
  · rw [hr]
    rfl
  · rw [← h] at hr
    obtain ⟨c, d, hfrom, hc, _⟩ := fromTo_trim hr
    rw [h] at hfrom
    obtain ⟨t, ht⟩ := List.head?_eq_some_iff.mp hfrom.1
    rw [ht, List.dropWhile_cons, if_neg (by simp [hc])]

section
variable {unit : Text} (hunit : ∀ c ∈ unit, isSpace c = true)
include hunit

theorem dropWhile_indented {r : Row} (h : Trimmed r) :
    (indented unit r).dropWhile isSpace = r.text := by
  obtain ⟨s, hs, heq⟩ := indented_eq hunit r
  rw [heq, List.dropWhile_append_of_pos hs, dropWhile_trimmed h]

theorem trim_indented {r : Row} (h : Trimmed r) : trim (indented unit r) = r.text := by
  have htext : dropEnd isSpace (r.text.dropWhile isSpace) = r.text := h
  rw [dropWhile_trimmed h] at htext
  rw [trim, trimBy, dropWhile_indented hunit h, htext]

end

/-! ## Tidying -/

theorem foldl_addLine_blankIf {x : Text} (hx : x ≠ []) (b b' : Bool) (above : List Text) :
    (blankIf b').foldl addLine (blankIf b ++ x :: above) = blankIf (b || b') ++ x :: above := by
  cases b' with
  | false => rw [Bool.or_false]; rfl
  | true =>
    show addLine (blankIf b ++ x :: above) [] = _
    rw [Bool.or_true, addLine_nil]
    cases b with
    | true => rfl
    | false => exact if_neg (by simpa [blankIf] using hx)

theorem spread_blankIf {unit : Text} {r : Row} (h : r.text ≠ []) :
    spread unit r =
      blankIf (0 < r.shift.block) ++ indented unit r :: blankIf (r.shift.block < 0) := by
  rw [spread, if_neg (by simpa using h), blankIf, blankIf]
  simp

theorem reverse_separator (blank : Bool) (r s : Row) :
    (separator blank r s).reverse = separator blank r s := by
  rw [separator, blankIf]
  split <;> rfl

section
variable {unit : Text} (hunit : ∀ c ∈ unit, isSpace c = true)
include hunit

/-- A row comes to stand below another, with what separates the two in between. -/
theorem addLine_row {r s : Row} (hr : Trimmed r) (hs : Trimmed s) (hrne : r.text ≠ [])
    (hsne : s.text ≠ []) (blank : Bool) (above : List Text) :
    addLine (blankIf (blank || r.shift.block < 0 || 0 < s.shift.block) ++ indented unit r :: above)
        (indented unit s) =
      indented unit s :: (separator blank r s ++ indented unit r :: above) := by
  have hx := @indented_ne_nil unit r hrne
  have hy := @indented_ne_nil unit s hsne
  rw [separator]
  cases blank || r.shift.block < 0 || 0 < s.shift.block with
  | false => exact addLine_code hy fun _ _ h => hx (List.cons.inj h).1
  | true =>
    have hattached : (trim (indented unit r) == Kind.remark.token &&
        declaresProcedure ((indented unit s).dropWhile isSpace)) = attached r s := by
      rw [trim_indented hunit hr, dropWhile_indented hunit hs, attached]
    show addLine ([] :: indented unit r :: above) _ = _
    rw [addLine_behind_blank hy, hattached]
    cases attached r s <;> rfl

/-- The lines below a row with text: at most one blank line stands on top of it when they are
reached. -/
theorem foldl_addLine_below {rows : List Row} (hrows : ∀ r ∈ rows, Trimmed r) {r : Row}
    (hr : Trimmed r) (hne : r.text ≠ []) (blank : Bool) (above : List Text) :
    (((rows.flatMap (spread unit)).foldl addLine
        (blankIf (blank || r.shift.block < 0) ++ indented unit r :: above)).dropWhile
          (·.isEmpty)).reverse =
      (indented unit r :: above).reverse ++ setApart unit (some r) blank rows := by
  have hx := @indented_ne_nil unit r hne
  induction rows generalizing r blank above with
  | nil =>
    have hdrop : (blankIf (blank || r.shift.block < 0) ++ indented unit r :: above).dropWhile
        (·.isEmpty) = indented unit r :: above := by
      cases blank || decide (r.shift.block < 0) <;> simp [blankIf, hx]
    rw [List.flatMap_nil, List.foldl_nil, hdrop, setApart, List.append_nil]
  | cons s rows ih =>
    have hmore : ∀ r ∈ rows, Trimmed r := fun q hq => hrows q (List.mem_cons_of_mem _ hq)
    rw [List.flatMap_cons, List.foldl_append]
    by_cases hs : s.text = []
    · -- a blank line on top, whether there was one or not
      have hspread : spread unit s = blankIf true := by rw [spread, hs]; rfl
      have hbelow := ih hmore hr hne true above hx
      rw [Bool.true_or] at hbelow
      rw [hspread, foldl_addLine_blankIf hx, Bool.or_true, hbelow, setApart_blank hs]
    · -- the row comes on top, and below it what separates it from the row above stays for good
      have hsTrimmed := hrows s List.mem_cons_self
      have hy := @indented_ne_nil unit s hs
      have hbelow := ih hmore hsTrimmed hs false (separator blank r s ++ indented unit r :: above) hy
      have hpushed : (spread unit s).foldl addLine
            (blankIf (blank || r.shift.block < 0) ++ indented unit r :: above) =
          blankIf (false || s.shift.block < 0) ++ indented unit s ::
            (separator blank r s ++ indented unit r :: above) := by
        rw [spread_blankIf hs, List.foldl_append, List.foldl_cons, foldl_addLine_blankIf hx,
          addLine_row hunit hr hsTrimmed hne hs]
        exact foldl_addLine_blankIf hy false _ _
      rw [hpushed, hbelow, setApart_row hs]
      simp [reverse_separator]

/-- The layout of rows is the rows set apart. -/
theorem layOut_eq {rows : List Row} (hrows : ∀ r ∈ rows, Trimmed r) :
    layOut unit rows = setApart unit none false rows := by
  have key : ∀ blank, (((rows.flatMap (spread unit)).foldl addLine []).dropWhile
      (·.isEmpty)).reverse = setApart unit none blank rows := by
    induction rows with
    | nil => exact fun _ => rfl
    | cons r rows ih =>
      intro blank
      have hmore : ∀ r ∈ rows, Trimmed r := fun q hq => hrows q (List.mem_cons_of_mem _ hq)
      rw [List.flatMap_cons, List.foldl_append]
      by_cases hr : r.text = []
      · have hspread : spread unit r = [[]] := by rw [spread, hr]; rfl
        rw [hspread, setApart_blank hr]
        exact ih hmore true
      · have hx := @indented_ne_nil unit r hr
        have hpushed : (spread unit r).foldl addLine [] =
            blankIf (false || r.shift.block < 0) ++ [indented unit r] := by
          have hfirst : (blankIf (0 < r.shift.block)).foldl addLine [] = [] := by
            rw [blankIf]
            split <;> rfl
          rw [spread_blankIf hr, List.foldl_append, hfirst, List.foldl_cons,
            addLine_code hx (by simp)]
          exact foldl_addLine_blankIf hx false _ []
        rw [hpushed, foldl_addLine_below hunit hmore (hrows r List.mem_cons_self) hr,
          setApart_row hr]
        rfl
  exact key false

end

/-! ## Blank lines -/

/-- No blank line stands at the top, at the bottom or behind another. -/
structure Compact (lines : List Text) : Prop where
  first : ∀ l ∈ lines.head?, trim l ≠ []
  last : ∀ l ∈ lines.getLast?, trim l ≠ []
  apart : lines.IsChain fun l m => trim l ≠ [] ∨ trim m ≠ []

theorem Compact.single {l : Text} (h : trim l ≠ []) : Compact [l] where
  first := by simpa using h
  last := by simpa using h
  apart := .singleton l

/-- A line with text comes in front, with a blank line in between or without. -/
theorem Compact.cons {l m : Text} {lines : List Text} (hl : trim l ≠ [])
    (h : Compact (m :: lines)) (b : Bool) : Compact (l :: (blankIf b ++ m :: lines)) := by
  have hm : trim m ≠ [] := h.first m rfl
  cases b with
  | false =>
    refine ⟨by simpa using hl, ?_, .cons_cons (.inl hl) h.apart⟩
    intro k hk
    exact h.last k (by simpa [blankIf] using hk)
  | true =>
    refine ⟨by simpa using hl, ?_, .cons_cons (.inl hl) (.cons_cons (.inr hm) h.apart)⟩
    intro k hk
    exact h.last k (by simpa [blankIf] using hk)

section
variable {unit : Text} (hunit : ∀ c ∈ unit, isSpace c = true)
include hunit

theorem trim_indented_ne_nil {r : Row} (h : Trimmed r) (hne : r.text ≠ []) :
    trim (indented unit r) ≠ [] := by
  rwa [trim_indented hunit h]

theorem compact_below {rows : List Row} (hrows : ∀ r ∈ rows, Trimmed r) {r : Row}
    (hr : Trimmed r) (hne : r.text ≠ []) (blank : Bool) :
    Compact (indented unit r :: setApart unit (some r) blank rows) := by
  induction rows generalizing r blank with
  | nil => exact .single (trim_indented_ne_nil hunit hr hne)
  | cons s rows ih =>
    have hmore : ∀ r ∈ rows, Trimmed r := fun q hq => hrows q (List.mem_cons_of_mem _ hq)
    by_cases hs : s.text = []
    · rw [setApart_blank hs]
      exact ih hmore hr hne true
    · rw [setApart_row hs]
      have hbelow := ih hmore (hrows s List.mem_cons_self) hs false
      exact hbelow.cons (trim_indented_ne_nil hunit hr hne) _

theorem compact_setApart {rows : List Row} (hrows : ∀ r ∈ rows, Trimmed r) (blank : Bool) :
    Compact (setApart unit none blank rows) := by
  induction rows generalizing blank with
  | nil => exact ⟨by simp [setApart], by simp [setApart], .nil⟩
  | cons r rows ih =>
    have hmore : ∀ r ∈ rows, Trimmed r := fun q hq => hrows q (List.mem_cons_of_mem _ hq)
    by_cases hr : r.text = []
    · rw [setApart_blank hr]
      exact ih hmore true
    · rw [setApart_row hr]
      exact compact_below hunit hmore (hrows r List.mem_cons_self) hr false

end

/-! ## Neighbours -/

section
variable {unit : Text}

theorem filter_blankIf (b : Bool) : (blankIf b).filter (!·.isEmpty) = [] := by
  cases b <;> rfl

theorem filter_gap (above : Option Row) (blank : Bool) (r : Row) :
    (above.elim [] (separator blank · r)).filter (!·.isEmpty) = [] := by
  cases above with
  | none => rfl
  | some a => exact filter_blankIf _

/-- The rows with text come out in order. -/
theorem filter_setApart (above : Option Row) (blank : Bool) (rows : List Row) :
    (setApart unit above blank rows).filter (!·.isEmpty) = printedRows unit rows := by
  induction rows generalizing above blank with
  | nil => rfl
  | cons r rows ih =>
    by_cases hr : r.text = []
    · rw [setApart_blank hr, ih, printedRows, printedRows, List.filter_cons_of_neg (by simp [hr])]
    · have hline := @indented_ne_nil unit r hr
      rw [setApart_row hr, List.filter_append, filter_gap, List.nil_append,
        List.filter_cons_of_pos (by simp [hline]), ih, printedRows, printedRows,
        List.filter_cons_of_pos (by simp [hr]), List.map_cons]

/-- A row with text stands below the rows above it, and what is below it is set apart from it. -/
theorem setApart_append {r : Row} (h : r.text ≠ []) (above : Option Row) (blank : Bool)
    (rows more : List Row) :
    ∃ front, setApart unit above blank (rows ++ r :: more) =
        front ++ indented unit r :: setApart unit (some r) false more ∧
      front.filter (!·.isEmpty) = printedRows unit rows := by
  have hshape : ∃ front, setApart unit above blank (rows ++ r :: more) =
      front ++ indented unit r :: setApart unit (some r) false more := by
    induction rows generalizing above blank with
    | nil => exact ⟨_, setApart_row h more⟩
    | cons s rows ih =>
      by_cases hs : s.text = []
      · rw [List.cons_append, setApart_blank hs]
        exact ih above true
      · obtain ⟨front, hfront⟩ := ih (some s) false
        refine ⟨above.elim [] (separator blank · s) ++ indented unit s :: front, ?_⟩
        rw [List.cons_append, setApart_row hs, hfront, List.append_assoc, List.cons_append]
  obtain ⟨front, hfront⟩ := hshape
  have hline := @indented_ne_nil unit r h
  have hprinted : printedRows unit (rows ++ r :: more) =
      printedRows unit rows ++ indented unit r :: printedRows unit more := by
    simp [printedRows, h]
  have hfilter := @filter_setApart unit above blank (rows ++ r :: more)
  rw [hfront, List.filter_append, List.filter_cons_of_pos (by simp [hline]), filter_setApart,
    hprinted] at hfilter
  exact ⟨front, hfront, List.append_cancel_right hfilter⟩

theorem setApart_blanks {rows : List Row} (hrows : ∀ r ∈ rows, r.text = []) (above : Option Row)
    (blank : Bool) (more : List Row) :
    setApart unit above blank (rows ++ more) = setApart unit above (blank || !rows.isEmpty) more := by
  induction rows generalizing blank with
  | nil => simp
  | cons r rows ih =>
    rw [List.cons_append, setApart_blank (hrows r List.mem_cons_self),
      ih fun q hq => hrows q (List.mem_cons_of_mem _ hq)]
    simp

/-- Two rows with text and only blank ones between them. -/
theorem setApart_neighbours {r s : Row} (hr : r.text ≠ []) (hs : s.text ≠ []) {blanks : List Row}
    (hblanks : ∀ q ∈ blanks, q.text = []) (rows more : List Row) :
    ∃ front below, setApart unit none false (rows ++ r :: (blanks ++ s :: more)) =
        front ++ indented unit r :: (separator (!blanks.isEmpty) r s ++ indented unit s :: below) ∧
      front.filter (!·.isEmpty) = printedRows unit rows ∧
      below.filter (!·.isEmpty) = printedRows unit more := by
  obtain ⟨front, hfront, hfilter⟩ :=
    @setApart_append unit r hr none false rows (blanks ++ s :: more)
  refine ⟨front, setApart unit (some s) false more, ?_, hfilter, filter_setApart _ _ _⟩
  rw [hfront, setApart_blanks hblanks, Bool.false_or, setApart_row hs]
  rfl

end

/-! ## Laying out again -/

/-- A line matters by its text only. -/
theorem rowAt_congr {line line' : Text} (h : trim line = trim line') (depth : Nat) :
    rowAt depth line = rowAt depth line' := by
  rw [rowAt, rowAt, h]

theorem rowAt_blank {line : Text} (h : trim line = []) (depth : Nat) :
    rowAt depth line = (⟨[], depth, true, .zero⟩, depth) := by
  rw [rowAt, h]
  rfl

theorem setApart_nestFrom_blankIf (unit : Text) (above : Option Row) (depth : Nat) (b : Bool)
    (lines : List Text) :
    setApart unit above false (nestFrom depth (blankIf b ++ lines)).1 =
      setApart unit above b (nestFrom depth lines).1 := by
  cases b with
  | false => rfl
  | true => exact setApart_blank rfl _

/-- A blank line that is there is set again, and none comes where there was none. -/
theorem gap_again (above : Option Row) (blank : Bool) (r : Row) :
    ∃ b, above.elim [] (separator blank · r) = blankIf b ∧
      above.elim [] (separator b · r) = blankIf b := by
  cases above with
  | none => exact ⟨false, rfl, rfl⟩
  | some a =>
    refine ⟨_, rfl, ?_⟩
    rw [Option.elim_some, separator]
    cases blank <;> cases attached a r <;> cases decide (a.shift.block < 0) <;>
      cases decide (0 < r.shift.block) <;> rfl

/-- The lines of a layout have the rows that they were made from, and these are set apart as they
were. -/
theorem nestFrom_setApart {unit : Text} (hunit : ∀ c ∈ unit, isSpace c = true) (depth : Nat)
    (above : Option Row) (blank : Bool) (lines : List Text) :
    setApart unit above false
        (nestFrom depth (setApart unit above blank (nestFrom depth lines).1)).1 =
      setApart unit above blank (nestFrom depth lines).1 := by
  induction lines generalizing depth above blank with
  | nil => rfl
  | cons line lines ih =>
    show setApart unit above false (nestFrom depth (setApart unit above blank
      ((rowAt depth line).1 :: (nestFrom (rowAt depth line).2 lines).1))).1 =
        setApart unit above blank ((rowAt depth line).1 :: (nestFrom (rowAt depth line).2 lines).1)
    by_cases hline : trim line = []
    · rw [rowAt_blank hline, setApart_blank rfl]
      exact ih depth above true
    · -- the row is read off the indented line as off the line, and the depth goes on from it alike
      have htext : (rowAt depth line).1.text = trim line := text_rowAt depth line
      have hne : (rowAt depth line).1.text ≠ [] := by rwa [htext]
      have hagain : rowAt depth (indented unit (rowAt depth line).1) = rowAt depth line := by
        apply rowAt_congr
        rw [trim_indented hunit (trimmed_rowAt depth line), htext]
      have hrows : ∀ below : List Text,
          (nestFrom depth (indented unit (rowAt depth line).1 :: below)).1 =
            (rowAt depth line).1 :: (nestFrom (rowAt depth line).2 below).1 := by
        intro below
        rw [nestFrom, hagain]
      obtain ⟨b, hgap, hgapAgain⟩ := gap_again above blank (rowAt depth line).1
      rw [setApart_row hne, hgap, setApart_nestFrom_blankIf, hrows, setApart_row hne, hgapAgain, ih]

/-! ## The layout of lines -/

/-- What stands in front of the text of a row: nothing before markup, else an indent for each level
of its depth. -/
def margin (unit : Text) (r : Row) : Text :=
  if Kind.markup.token <+: r.text then [] else (List.replicate r.depth unit).flatten

theorem indented_margin (unit : Text) (r : Row) : indented unit r = margin unit r ++ r.text := by
  rw [indented, margin]
  by_cases h : Kind.markup.token <+: r.text
  · rw [if_pos (List.isPrefixOf_iff_prefix.mpr h), if_pos h, List.nil_append]
  · rw [if_neg fun hp => h (List.isPrefixOf_iff_prefix.mp hp), if_neg h]

theorem printedRows_margin (unit : Text) (rows : List Row) :
    printedRows unit rows = (rows.filter (·.text ≠ [])).map fun r => margin unit r ++ r.text := by
  rw [printedRows]
  have hfilter : rows.filter (!·.text.isEmpty) = rows.filter (·.text ≠ []) := by
    apply List.filter_congr
    intro r _
    cases r.text <;> rfl
  rw [hfilter]
  exact List.map_congr_left fun r _ => indented_margin unit r

theorem indentLines_eq {unit : Text} (hunit : ∀ c ∈ unit, isSpace c = true) (lines : List Text) :
    indentLines unit lines = setApart unit none false (nest lines) :=
  layOut_eq hunit trimmed_nestFrom

theorem nest_behind (pre post : List Text) (line : Text) :
    nest (pre ++ line :: post) =
      nest pre ++ rowBehind pre line :: (nestFrom (openDepth (pre ++ [line])) post).1 := by
  rw [openDepth_concat, nest, nestFrom_append]
  rfl

theorem text_nestFrom_blanks {lines : List Text} (h : ∀ l ∈ lines, trim l = []) (depth : Nat) :
    ∀ r ∈ (nestFrom depth lines).1, r.text = [] := by
  induction lines generalizing depth with
  | nil => intro r hr; cases hr
  | cons line lines ih =>
    intro r hr
    rcases List.mem_cons.mp hr with rfl | hr
    · rw [text_rowAt, h line List.mem_cons_self]
    · exact ih (fun l hl => h l (List.mem_cons_of_mem _ hl)) _ r hr

section
variable {unit : Text} (hunit : ∀ c ∈ unit, isSpace c = true)
include hunit

/-- A line of a layout is empty or has text. -/
theorem text_of_mem_indentLines {lines : List Text} {l : Text} (hl : l ∈ indentLines unit lines)
    (hne : l ≠ []) : trim l ≠ [] := by
  have hmem : l ∈ (indentLines unit lines).filter (!·.isEmpty) :=
    List.mem_filter.mpr ⟨hl, by simpa using hne⟩
  rw [indentLines_eq hunit, filter_setApart] at hmem
  obtain ⟨r, hr, rfl⟩ := List.mem_map.mp hmem
  obtain ⟨hr, htext⟩ := List.mem_filter.mp hr
  exact trim_indented_ne_nil hunit (trimmed_nestFrom r hr) (by simpa using htext)

/-- Among lines of a layout those with text are those that are not empty. -/
theorem filter_text {lines part : List Text} (h : part ⊆ indentLines unit lines) :
    part.filter (trim · ≠ []) = part.filter (!·.isEmpty) := by
  apply List.filter_congr
  intro l hl
  by_cases hne : l = []
  · rw [hne]
    rfl
  · simp [hne, text_of_mem_indentLines hunit (h hl) hne]

/-- The texts of lines come out as they were. -/
theorem map_trim_indentLines (lines : List Text) :
    ((indentLines unit lines).map trim).filter (· ≠ []) = (lines.map trim).filter (· ≠ []) := by
  have htrimmed : ∀ r ∈ nest lines, Trimmed r := trimmed_nestFrom
  have hout : ((indentLines unit lines).map trim).filter (· ≠ []) =
      ((indentLines unit lines).filter (trim · ≠ [])).map trim := by
    rw [List.filter_map]
    rfl
  rw [hout, filter_text hunit (List.Subset.refl _), indentLines_eq hunit, filter_setApart,
    printedRows, List.map_map, ← text_nest, List.filter_map]
  have hfilter : (nest lines).filter (!·.text.isEmpty) =
      (nest lines).filter ((· ≠ []) ∘ Row.text) := by
    apply List.filter_congr
    intro r _
    cases hr : r.text <;> simp [hr]
  rw [hfilter]
  apply List.map_congr_left
  intro r hr
  exact trim_indented hunit (htrimmed r (List.mem_filter.mp hr).1)

end

/-- The layout of lines. Their texts come out in order, each behind its margin. No blank line stands
at the top, at the bottom or behind another. Between two lines with text and only blank ones between
them stands a blank line exactly if one stood there, or the upper line ends or the lower one starts
a block, and never between a comment and the procedure below it. And what comes out is laid out. -/
theorem indentLines_settled {unit : Text} (hunit : ∀ c ∈ unit, isSpace c = true)
    (lines : List Text) :
    ((indentLines unit lines).map trim).filter (· ≠ []) = (lines.map trim).filter (· ≠ []) ∧
    (indentLines unit lines).filter (trim · ≠ []) =
      ((nest lines).filter (·.text ≠ [])).map (fun r => margin unit r ++ r.text) ∧
    Compact (indentLines unit lines) ∧
    (∀ pre a blanks b post, lines = pre ++ a :: (blanks ++ b :: post) → trim a ≠ [] →
      trim b ≠ [] → (∀ l ∈ blanks, trim l = []) → ∃ front below,
        indentLines unit lines =
          front ++ (margin unit (rowBehind pre a) ++ trim a) ::
            (separator (!blanks.isEmpty) (rowBehind pre a) (rowBehind (pre ++ a :: blanks) b) ++
              (margin unit (rowBehind (pre ++ a :: blanks) b) ++ trim b) :: below) ∧
        front.filter (trim · ≠ []) = ((nest pre).filter (·.text ≠ [])).map
          (fun r => margin unit r ++ r.text)) ∧
    indentLines unit (indentLines unit lines) = indentLines unit lines := by
  have hlaid := indentLines_eq hunit lines
  refine ⟨map_trim_indentLines hunit lines, ?_, ?_, ?_, ?_⟩
  · rw [filter_text hunit (List.Subset.refl _), hlaid, filter_setApart, printedRows_margin]
  · rw [hlaid]
    exact compact_setApart hunit trimmed_nestFrom false
  · rintro pre a blanks b post rfl ha hb hblanks
    have hr : (rowBehind pre a).text ≠ [] := by rwa [text_rowBehind]
    have hs : (rowBehind (pre ++ a :: blanks) b).text ≠ [] := by rwa [text_rowBehind]
    have hbetween := text_nestFrom_blanks hblanks (openDepth (pre ++ [a]))
    have hrows : nest (pre ++ a :: (blanks ++ b :: post)) = nest pre ++ rowBehind pre a ::
        ((nestFrom (openDepth (pre ++ [a])) blanks).1 ++ rowBehind (pre ++ a :: blanks) b ::
          (nestFrom (openDepth (pre ++ a :: blanks ++ [b])) post).1) := by
      have hassoc : pre ++ a :: (blanks ++ b :: post) = (pre ++ a :: blanks) ++ b :: post := by simp
      rw [hassoc, nest_behind, nest_behind]
      simp
    -- a line has one row, so there is a blank row where there is a blank line
    have hempty : (nestFrom (openDepth (pre ++ [a])) blanks).1.isEmpty = blanks.isEmpty := by
      cases blanks <;> rfl
    obtain ⟨front, below, heq, hfront, _⟩ := @setApart_neighbours unit _ _ hr hs _ hbetween (nest pre)
      (nestFrom (openDepth (pre ++ a :: blanks ++ [b])) post).1
    rw [← hrows, ← hlaid, hempty, indented_margin, indented_margin, text_rowBehind,
      text_rowBehind] at heq
    have hsubset : front ⊆ indentLines unit (pre ++ a :: (blanks ++ b :: post)) := by
      rw [heq]
      exact List.subset_append_left _ _
    refine ⟨front, below, heq, ?_⟩
    rw [filter_text hunit hsubset, hfront, printedRows_margin]
  · rw [indentLines_eq hunit (indentLines unit lines), hlaid]
    exact nestFrom_setApart hunit 0 none false lines

/-- A procedure behind its comment and a blank line, with a block in it. -/
def remarkedProcedure : List Text :=
  ["x = 1", "\x00comment\x00", "", "Sub A", "If b Then", " ", "", "y = 2", "End If", "End Sub",
    ""].map String.toList

/-- The comment comes to stand on its procedure, and a second layout leaves it there. -/
theorem remarkedProcedure_settled :
    (∀ c ∈ [' ', ' '], isSpace c = true) ∧ trim Kind.remark.token ≠ [] ∧
      trim "Sub A".toList ≠ [] ∧ (∀ l ∈ [([] : Text)], trim l = []) ∧
      [Kind.remark.token, "Sub A".toList] <:+: indentLines [' ', ' '] remarkedProcedure ∧
      indentLines [' ', ' '] (indentLines [' ', ' '] remarkedProcedure) =
        indentLines [' ', ' '] remarkedProcedure := by
  have hunit : ∀ c ∈ [' ', ' '], isSpace c = true := by decide
  have hremark : trim Kind.remark.token ≠ [] := by decide
  have hsub : trim "Sub A".toList ≠ [] := by decide
  have hblank : ∀ l ∈ [([] : Text)], trim l = [] := by decide
  obtain ⟨_, _, _, hneighbours, hagain⟩ := indentLines_settled hunit remarkedProcedure
  obtain ⟨front, below, heq, _⟩ := hneighbours ["x = 1".toList] Kind.remark.token [[]]
    "Sub A".toList (["If b Then", " ", "", "y = 2", "End If", "End Sub", ""].map String.toList)
    rfl hremark hsub hblank
  have hgap : separator (!List.isEmpty [([] : Text)]) (rowBehind ["x = 1".toList] Kind.remark.token)
      (rowBehind ["x = 1".toList, Kind.remark.token, []] "Sub A".toList) = [] := by decide
  have hfirst : margin [' ', ' '] (rowBehind ["x = 1".toList] Kind.remark.token) ++
      trim Kind.remark.token = Kind.remark.token := by decide
  have hsecond : margin [' ', ' '] (rowBehind ["x = 1".toList, Kind.remark.token, []]
      "Sub A".toList) ++ trim "Sub A".toList = "Sub A".toList := by decide
  refine ⟨hunit, hremark, hsub, hblank, ⟨front, below, ?_⟩, hagain⟩
  rw [heq, hfirst]
  show _ = front ++ Kind.remark.token ::
    (separator _ _ (rowBehind ["x = 1".toList, Kind.remark.token, []] "Sub A".toList) ++
      (margin _ (rowBehind ["x = 1".toList, Kind.remark.token, []] "Sub A".toList) ++ _) :: below)
  rw [hgap, hsecond]
  simp

end VbTidy
