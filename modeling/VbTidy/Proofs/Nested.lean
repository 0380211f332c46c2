import VbTidy.Proofs.Joined
import VbTidy.Proofs.Continued
import VbTidy.Proofs.Faithful
import Mathlib.Algebra.Ring.Nat
import Mathlib.Data.List.Infix

/-
Nested blocks. What a block opens its end closes again, so lines in which blocks are nested leave
the depth as they found it, whatever stands before them, and each line in them is as deep as the
blocks around it say. Comments hold no phrase: whatever their lines are, they take the depth they
meet.

What is proved:
  1. `shiftOf_remarkOnly`: blank lines and lines of comments shift nothing.
  2. `rowAt_code`: what one line of code does to the depth, which stops at zero.
  3. `nest_nested`: the depths of nested blocks behind any lines, and the depth after them.
  4. `opens_without_its_ends`: the white space that ends a line has to go before it is looked at.
-/
namespace VbTidy

/-! ## Lines of comments -/

/-- The letters phrases are written in. -/
def smallLetters : Text :=
  "abcdefghijklmnopqrstuvwxyz".toList

/-- No letter is taken for white space or for the NUL of a token. -/
theorem sameLetter_smallLetter : ∀ l ∈ smallLetters, ∀ n ∈ 0 :: spaceCodes,
    sameLetter l (Char.ofNat n) = false := by
  decide +kernel

/-- A word of letters that does not start within the token of a comment. -/
def Foreign (w : Text) : Prop :=
  (∀ l ∈ w, l ∈ smallLetters) ∧ ∀ v ∈ Kind.remark.token.tails, dropWord? w v.dropLast = none

instance (w : Text) : Decidable (Foreign w) :=
  inferInstanceAs (Decidable (_ ∧ _))

theorem foreign_if : Foreign "if".toList := by
  decide

theorem foreign_rules : ∀ r ∈ rules, ∀ w ∈ (words r.phrase).head?, Foreign w := by
  decide +kernel

theorem Foreign.nil {w : Text} (hw : Foreign w) : dropWord? w [] = none :=
  hw.2 ['\x00'] (by decide)

theorem Foreign.space {w : Text} (hw : Foreign w) {c : Char} (hc : isSpace c = true) (t : Text) :
    dropWord? w (c :: t) = none := by
  cases w with
  | nil => exact absurd hw.nil (by simp [dropWord?])
  | cons l w =>
    have hl := sameLetter_smallLetter l (hw.1 l List.mem_cons_self) c.toNat
      (List.mem_cons_of_mem _ (mem_spaceCodes hc))
    rw [Char.ofNat_toNat] at hl
    rw [dropWord?, hl, if_neg Bool.false_ne_true]

/-- Within the token the word breaks off, at the latest at the NUL that ends it. -/
theorem Foreign.token {w : Text} (hw : Foreign w) {v : Text} (hv : v <:+ Kind.remark.token)
    (hne : v ≠ []) (t : Text) : dropWord? w (v ++ t) = none := by
  have hlast : v.getLast hne = '\x00' := by
    obtain ⟨u, hu⟩ := hv
    have hend : (u ++ v).getLast? = some '\x00' := by rw [hu]; rfl
    rwa [List.getLast?_append_of_ne_nil _ hne, List.getLast?_eq_getLast_of_ne_nil hne,
      Option.some.injEq] at hend
  have hword := hw.2 v ((List.mem_tails _ _).mpr hv)
  rw [← List.dropLast_append_getLast hne, hlast, List.append_assoc]
  show dropWord? w (v.dropLast ++ '\x00' :: t) = none
  have hnul : ∀ l ∈ w, sameLetter l '\x00' = false := fun l hl =>
    sameLetter_smallLetter l (hw.1 l hl) 0 List.mem_cons_self
  rw [dropWord?_stop hnul, hword]
  rfl

theorem dropWord?_remarkOnly {w : Text} (hw : Foreign w) {t : Text}
    (ht : isRemarkOnly t = true) : ∀ u, u <:+ t → dropWord? w u = none := by
  have hne : Kind.remark.token ≠ [] := by decide
  unfold isRemarkOnly Pattern.replace at ht
  induction t using Pattern.cut_induction hne with
  | nil =>
    intro u hu
    rw [List.suffix_nil.mp hu]
    exact hw.nil
  | hit t ih =>
    rw [Pattern.weave_hit hne, Weave.replace_pushHit, List.nil_append] at ht
    rintro u ⟨r, hr⟩
    rcases List.append_eq_append_iff.mp hr with ⟨v, hv, rfl⟩ | ⟨v, hv, rfl⟩
    · by_cases hnil : v = []
      · rw [hnil]
        exact ih ht _ (List.suffix_refl t)
      · exact hw.token ⟨r, hv.symm⟩ hnil t
    · exact ih ht _ (List.suffix_append v u)
  | miss c t hc ih =>
    rw [Pattern.weave_miss hc, Weave.replace_push, List.all_cons, Bool.and_eq_true] at ht
    intro u hu
    rcases List.suffix_cons_iff.mp hu with rfl | hu
    · exact hw.space ht.1 t
    · exact ih ht.2 u hu

theorem weave_remarkOnly {r : Rule} (hr : r ∈ rules) {t : Text} (ht : isRemarkOnly t = true) :
    r.pattern.weave t = ⟨t, []⟩ := by
  apply weave_of_none
  intro b u hu
  obtain ⟨hne, _⟩ := phrase_rules r hr
  obtain ⟨w, ws, hws⟩ := List.exists_cons_of_ne_nil hne
  have hword : dropWord? w u = none :=
    dropWord?_remarkOnly (foreign_rules r hr w (by rw [hws]; rfl)) ht u hu
  have hphrase : dropPhrase? (w :: ws) u = none := dropPhrase?_of_word hword ws
  rw [Rule.pattern, hws, phrasePattern, Pattern.wholeWords, Pattern.ofRest, hphrase]
  simp

/-- Blank lines and lines of comments shift nothing. -/
theorem shiftOf_remarkOnly {t : Text} (ht : isRemarkOnly t = true) : shiftOf t = .zero := by
  have hif : oneLineIfPattern.weave t = ⟨t, []⟩ := by
    apply weave_of_none
    intro b u hu
    rw [oneLineIfPattern, wordHere, dropWord?_remarkOnly foreign_if ht u hu, Bool.and_false,
      Bool.false_and, if_neg Bool.false_ne_true]
  have hcount : ∀ rs : List Rule, (∀ r ∈ rs, r ∈ rules) → countRules rs 0 t = 0 := by
    intro rs
    induction rs with
    | nil => exact fun _ => rfl
    | cons r rs ih =>
      intro hrs
      rw [countRules_cons, Pattern.count, Pattern.replace,
        weave_remarkOnly (hrs r List.mem_cons_self) ht, Weave.replace, List.flatMap_nil,
        List.append_nil, ih fun q hq => hrs q (List.mem_cons_of_mem _ hq), add_zero]
      exact Shift.add_none r
  rw [shiftOf, Pattern.replace, hif, Weave.replace, List.flatMap_nil, List.append_nil]
  exact hcount rules fun r hr => hr

/-! ## What one line does to the depth -/

/-- The shift of a line is that of its text, without the white space at its ends. -/
def lineShift (line : Text) : Shift :=
  shiftOf (trim line)

theorem rowAt_remarkOnly {line : Text} (h : isRemarkOnly (trim line) = true) (depth : Nat) :
    (rowAt depth line).1.depth = depth ∧ (rowAt depth line).2 = depth := by
  simp only [rowAt, h, if_true, and_self]

/-- A line of code ends blocks before it stands and starts them behind; neither takes the depth
below zero. -/
theorem rowAt_code {line : Text} (h : isRemarkOnly (trim line) = false) (depth : Nat) :
    ((rowAt depth line).1.depth : Int) =
        max 0 (max 0 (depth + min 0 (lineShift line).block) + (lineShift line).line) ∧
      ((rowAt depth line).2 : Int) =
        max 0 (depth + min 0 (lineShift line).block) + max 0 (lineShift line).block := by
  simp only [rowAt, h, lineShift, if_neg Bool.false_ne_true]
  constructor
  · split <;> omega
  · split <;> split <;> omega

theorem rowAt_still {line : Text} (h : lineShift line = .zero) (depth : Nat) :
    (rowAt depth line).1.depth = depth ∧ (rowAt depth line).2 = depth := by
  cases hremark : isRemarkOnly (trim line) with
  | true => exact rowAt_remarkOnly hremark depth
  | false =>
    obtain ⟨hhere, hafter⟩ := rowAt_code hremark depth
    rw [h] at hhere hafter
    simp only [Shift.zero] at hhere hafter
    omega

/-- A line that shifts something is no comment. -/
theorem remarkOnly_of_shift {line : Text} {s : Shift} (h : lineShift line = s)
    (hs : s.block ≠ 0 ∨ s.line ≠ 0) : isRemarkOnly (trim line) = false := by
  cases hremark : isRemarkOnly (trim line) with
  | false => rfl
  | true =>
    obtain rfl : .zero = s := (shiftOf_remarkOnly hremark).symm.trans h
    exact absurd rfl (hs.elim id id)

theorem rowAt_middle {line : Text} (h : lineShift line = ⟨0, -1⟩) {depth : Nat} (hd : 0 < depth) :
    ((rowAt depth line).1.depth : Int) = depth - 1 ∧ (rowAt depth line).2 = depth := by
  obtain ⟨hhere, hafter⟩ := rowAt_code (remarkOnly_of_shift h (.inr (by decide))) depth
  rw [h] at hhere hafter
  simp only at hhere hafter
  omega

theorem rowAt_opener {line : Text} {d : Nat} (hd : 0 < d) (h : lineShift line = ⟨d, 0⟩)
    (depth : Nat) : (rowAt depth line).1.depth = depth ∧ (rowAt depth line).2 = depth + d := by
  have hcode := remarkOnly_of_shift h (.inl (Int.natCast_ne_zero.mpr (Nat.ne_of_gt hd)))
  obtain ⟨hhere, hafter⟩ := rowAt_code hcode depth
  rw [h] at hhere hafter
  simp only at hhere hafter
  omega

theorem rowAt_closer {line : Text} {d : Nat} (hd : 0 < d) (h : lineShift line = ⟨-d, 0⟩)
    (depth : Nat) :
    (rowAt (depth + d) line).1.depth = depth ∧ (rowAt (depth + d) line).2 = depth := by
  have hcode := remarkOnly_of_shift h
    (.inl (Int.neg_ne_zero.mpr (Int.natCast_ne_zero.mpr (Nat.ne_of_gt hd))))
  obtain ⟨hhere, hafter⟩ := rowAt_code hcode (depth + d)
  rw [h] at hhere hafter
  simp only at hhere hafter
  omega

/-! ## Nested blocks -/

/-- Lines in which blocks are nested. Middle lines, such as an Else, stand only `inside` a block. -/
inductive Nested : Bool → Type
  /-- No more lines. -/
  | done {inside : Bool} : Nested inside
  /-- A line that shifts nothing. -/
  | plain {inside : Bool} (line : Text) (still : lineShift line = .zero) (more : Nested inside) :
      Nested inside
  /-- A line that is blank or has comments only. -/
  | remark {inside : Bool} (line : Text) (bare : isRemarkOnly (trim line) = true)
      (more : Nested inside) : Nested inside
  /-- A line that is shifted back by itself. -/
  | middle (line : Text) (back : lineShift line = ⟨0, -1⟩) (more : Nested true) : Nested true
  /-- A block `d` deep, from the line that opens it to the one that closes it. -/
  | block {inside : Bool} (d : Nat) (deep : 0 < d) (opener : Text)
      (opens : lineShift opener = ⟨d, 0⟩) (body : Nested true) (closer : Text)
      (closes : lineShift closer = ⟨-d, 0⟩) (more : Nested inside) : Nested inside

/-- A line with the blocks it stands in. -/
structure Standing where
  line : Text
  /-- How deep each block around the line is, the innermost first. -/
  around : List Nat
  isMiddle : Bool

/-- The depth of a line in nested blocks that start at a depth. -/
def Standing.depth (base : Nat) (p : Standing) : Int :=
  base + p.around.sum - if p.isMiddle then 1 else 0

namespace Nested

/-- The lines of nested blocks. -/
def lines {inside : Bool} : Nested inside → List Text
  | done => []
  | plain line _ more => line :: more.lines
  | remark line _ more => line :: more.lines
  | middle line _ more => line :: more.lines
  | block _ _ opener _ body closer _ more => opener :: (body.lines ++ closer :: more.lines)

/-- The lines with the blocks around each. -/
def standings {inside : Bool} (around : List Nat) : Nested inside → List Standing
  | done => []
  | plain line _ more => ⟨line, around, false⟩ :: more.standings around
  | remark line _ more => ⟨line, around, false⟩ :: more.standings around
  | middle line _ more => ⟨line, around, true⟩ :: more.standings around
  | block d _ opener _ body closer _ more =>
    ⟨opener, around, false⟩ ::
      (body.standings (d :: around) ++ ⟨closer, around, false⟩ :: more.standings around)

end Nested

/-- The text and the depth of a row. -/
def Row.seen (r : Row) : Text × Int :=
  (r.text, r.depth)

/-- The text and the depth of a line in nested blocks that start at a depth. -/
def Standing.seen (base : Nat) (p : Standing) : Text × Int :=
  (trim p.line, p.depth base)

/-- The rows of a line and those below it, from what the line does to the depth. -/
theorem seen_cons {line : Text} {around : List Nat} {isMiddle : Bool} {base depth after : Nat}
    {lines : List Text} {standings : List Standing}
    (hhere : ((rowAt depth line).1.depth : Int) = (Standing.mk line around isMiddle).depth base)
    (hafter : (rowAt depth line).2 = after)
    (hmore : (nestFrom after lines).1.map Row.seen = standings.map (Standing.seen base)) :
    (nestFrom depth (line :: lines)).1.map Row.seen =
        (⟨line, around, isMiddle⟩ :: standings).map (Standing.seen base) ∧
      (nestFrom depth (line :: lines)).2 = (nestFrom after lines).2 := by
  rw [← hafter] at hmore ⊢
  refine ⟨?_, rfl⟩
  show (rowAt depth line).1.seen :: (nestFrom (rowAt depth line).2 lines).1.map Row.seen = _
  rw [hmore, Row.seen, text_rowAt, hhere]
  rfl

/-- Nested blocks come out as deep as the blocks around each line say and leave the depth as it
was. -/
theorem Nested.nestFrom_lines {inside : Bool} (blocks : Nested inside) (base : Nat)
    (around : List Nat) (hin : inside = true → 0 < around.sum) :
    (nestFrom (base + around.sum) blocks.lines).1.map Row.seen =
        (blocks.standings around).map (Standing.seen base) ∧
      (nestFrom (base + around.sum) blocks.lines).2 = base + around.sum := by
  have hflat : ∀ {line : Text} {n : Nat} {around : List Nat}, n = base + around.sum →
      (n : Int) = (Standing.mk line around false).depth base := by
    rintro line n around rfl
    simp [Standing.depth]
  induction blocks generalizing around with
  | done => exact ⟨rfl, rfl⟩
  | plain line still more ih =>
    obtain ⟨hhere, hafter⟩ := rowAt_still still (base + around.sum)
    obtain ⟨hmore, hend⟩ := ih around hin
    obtain ⟨hrows, hlast⟩ := seen_cons (hflat hhere) hafter hmore
    exact ⟨hrows, hlast.trans hend⟩
  | remark line bare more ih =>
    obtain ⟨hhere, hafter⟩ := rowAt_remarkOnly bare (base + around.sum)
    obtain ⟨hmore, hend⟩ := ih around hin
    obtain ⟨hrows, hlast⟩ := seen_cons (hflat hhere) hafter hmore
    exact ⟨hrows, hlast.trans hend⟩
  | middle line back more ih =>
    -- inside a block there is a depth to step back from
    have hpos : 0 < base + around.sum := Nat.lt_of_lt_of_le (hin rfl) (Nat.le_add_left _ _)
    obtain ⟨hhere, hafter⟩ := rowAt_middle back hpos
    have hstanding : ((rowAt (base + around.sum) line).1.depth : Int) =
        (Standing.mk line around true).depth base := by
      rw [hhere]
      simp [Standing.depth]
    obtain ⟨hmore, hend⟩ := ih around hin
    obtain ⟨hrows, hlast⟩ := seen_cons hstanding hafter hmore
    exact ⟨hrows, hlast.trans hend⟩
  | block d deep opener opens body closer closes more ihbody ihmore =>
    have hsum : base + (d :: around).sum = base + around.sum + d := by
      rw [List.sum_cons]
      omega
    obtain ⟨hopener, hopened⟩ := rowAt_opener deep opens (base + around.sum)
    obtain ⟨hcloser, hclosed⟩ := rowAt_closer deep closes (base + around.sum)
    obtain ⟨hbody, hinner⟩ := ihbody (d :: around) fun _ => by rw [List.sum_cons]; omega
    obtain ⟨hmore, hend⟩ := ihmore around hin
    rw [← hsum] at hcloser hclosed
    obtain ⟨hbelow, hbelowEnd⟩ := seen_cons (hflat hcloser) hclosed hmore
    have hblock : (nestFrom (base + (d :: around).sum) (body.lines ++ closer :: more.lines)).1.map
          Row.seen = (body.standings (d :: around) ++ ⟨closer, around, false⟩ ::
            more.standings around).map (Standing.seen base) := by
      rw [nestFrom_append, hinner, List.map_append, hbody, hbelow, List.map_append]
    obtain ⟨hrows, hlast⟩ := seen_cons (hflat hopener) (hopened.trans hsum.symm) hblock
    refine ⟨hrows, hlast.trans ?_⟩
    rw [nestFrom_append, hinner]
    exact hbelowEnd.trans hend

/-- Behind any lines, and in front of any others, nested blocks are nested: each line is as deep as
the lines before leave open and the blocks around it say, a middle line one less, and behind them
the depth is what it was. No depth is below zero. -/
theorem nest_nested (before after : List Text) (blocks : Nested false) :
    ∃ rows,
      nest (before ++ (blocks.lines ++ after)) =
          nest before ++ (rows ++ (nestFrom (openDepth before) after).1) ∧
        rows.map (fun r => (r.text, (r.depth : Int))) =
          (blocks.standings []).map (fun p => (trim p.line, p.depth (openDepth before))) ∧
        openDepth (before ++ blocks.lines) = openDepth before ∧
        ∀ r ∈ nest (before ++ (blocks.lines ++ after)), 0 ≤ (r.depth : Int) := by
  obtain ⟨hrows, hend⟩ := blocks.nestFrom_lines (openDepth before) [] (fun h => by cases h)
  rw [List.sum_nil, Nat.add_zero] at hrows hend
  refine ⟨(nestFrom (openDepth before) blocks.lines).1, ?_, hrows, ?_, fun r _ =>
    Int.natCast_nonneg r.depth⟩
  · rw [nest, nestFrom_append, nestFrom_append]
    show nest before ++ ((nestFrom (openDepth before) blocks.lines).1 ++
      (nestFrom (nestFrom (openDepth before) blocks.lines).2 after).1) = _
    rw [hend]
  · rw [openDepth, nestFrom_append]
    exact hend

/-- The line as it stands has a no-break space behind its Then, which is taken for a statement, so
it shifts nothing. Its text opens a block. -/
theorem opens_without_its_ends :
    isRemarkOnly "If x Then\u00a0".toList = false ∧ shiftOf "If x Then\u00a0".toList = .zero ∧
      shiftOf "y".toList = .zero ∧ openDepth ["If x Then\u00a0".toList] = 1 ∧
      (nest ["If x Then\u00a0".toList, "y".toList]).map Row.depth = [0, 1] := by
  decide +kernel

example : (nest (["Wend", "If a Then", "x", "Else", "End If"].map String.toList)).map Row.depth =
    [0, 0, 1, 0, 0] := by
  decide

end VbTidy
