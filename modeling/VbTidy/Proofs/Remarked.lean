import Mathlib.Algebra.Group.Nat.Even
import Mathlib.Order.Bounds.Basic
import VbTidy.Proofs.Masked

/-
Where the comment of a line starts. `RemarkAt` says of a position, without a scan, that a comment
may start there: an even number of double quotes stands before it, and there is an apostrophe or,
where a statement starts, the word Rem. The scan finds the first such position (`first_remarkFrom`).
Masking the strings of a line leaves its comment as it is and no quote before it (`remark_kept`).
-/
namespace VbTidy

/-- The word Rem stands at the start of a text, before white space or the end. -/
def StandsRem (t : Text) : Prop :=
  ∃ r e m after, t = r :: e :: m :: after ∧ r ∈ ['r', 'R'] ∧ e ∈ ['e', 'E'] ∧ m ∈ ['m', 'M'] ∧
    ∀ c ∈ after.head?, isSpace c = true

/-- A statement starts behind a text: but for white space it is empty, or it ends with a colon or
with markup. -/
def EndsStatement (t : Text) : Prop :=
  dropEnd isSpace t = [] ∨ [':'] <:+ dropEnd isSpace t ∨
    Kind.markup.token <:+ dropEnd isSpace t

/-- A comment may start at a position of a line. -/
structure RemarkAt (l : Text) (i : Nat) : Prop where
  outside : Even ((l.take i).count '"')
  sign : l[i]? = some '\'' ∨ (StandsRem (l.drop i) ∧ EndsStatement (l.take i))

/-- A position is the first with a property, or no position has it. -/
def First (p : Nat → Prop) : Option Nat → Prop
  | some i => IsLeast {j | p j} i
  | none => ∀ j, ¬ p j

namespace First

variable {p : Nat → Prop}

theorem here (h : p 0) : First p (some 0) :=
  ⟨h, fun _ _ => Nat.zero_le _⟩

theorem next {o : Option Nat} (h₀ : ¬ p 0) (h : First (fun j => p (j + 1)) o) :
    First p (o.map (· + 1)) := by
  cases o with
  | none =>
    intro j hj
    cases j with
    | zero => exact h₀ hj
    | succ j => exact h j hj
  | some i =>
    refine ⟨h.1, ?_⟩
    intro j hj
    cases j with
    | zero => exact absurd hj h₀
    | succ j => exact Nat.succ_le_succ (h.2 hj)

theorem eq_some_iff {o : Option Nat} (h : First p o) {i : Nat} :
    o = some i ↔ IsLeast {j | p j} i := by
  constructor
  · intro ho
    rw [ho] at h
    exact h
  · intro hi
    cases o with
    | none => exact absurd hi.1 (h i)
    | some j => rw [IsLeast.unique h hi]

theorem eq_none_iff {o : Option Nat} (h : First p o) : o = none ↔ ∀ j, ¬ p j := by
  constructor
  · intro ho
    rw [ho] at h
    exact h
  · intro hall
    cases o with
    | none => rfl
    | some j => exact absurd h.1 (hall j)

end First

/-! ## The signs of a comment -/

/-- The letters of Rem have no lower case relatives outside ASCII. -/
theorem lowerChar_eq_iff {l : Char} (hl : l ∈ ['r', 'e', 'm']) (c : Char) :
    lowerChar c = l ↔ c ∈ [l, l.toUpper] := by
  by_cases hascii : c.toNat < 0x80
  · have key : ∀ c : Char, c.toNat < 0x80 → ∀ l ∈ ['r', 'e', 'm'],
        lowerChar c = l ↔ c ∈ [l, l.toUpper] := of_ascii (by decide)
    exact key c hascii l hl
  · have hbound : ∀ l ∈ ['r', 'e', 'm'], ∀ d ∈ [l, l.toUpper], d.toNat < 0x80 := by decide
    have hother : ∀ l ∈ ['r', 'e', 'm'], l.toNat < 0x80 ∧ 'i' ≠ l ∧ 'k' ≠ l := by decide
    obtain ⟨hlow, hi, hk⟩ := hother l hl
    constructor
    · intro h
      rcases lowerChar_of_not_ascii (Nat.le_of_not_lt hascii) with ⟨hge, _⟩ | ⟨_, h'⟩ | ⟨_, h'⟩
      · rw [h] at hge
        omega
      · exact absurd (h'.symm.trans h) hi
      · exact absurd (h'.symm.trans h) hk
    · intro h
      exact absurd (hbound l hl c h) hascii

theorem isRem_iff (t : Text) : isRem t = true ↔ StandsRem t := by
  constructor
  · intro h
    unfold isRem at h
    split at h
    · next r e m after =>
      simp only [Bool.and_eq_true, beq_iff_eq, Option.all_eq_true] at h
      obtain ⟨⟨⟨hr, he⟩, hm⟩, hafter⟩ := h
      exact ⟨r, e, m, after, rfl, (lowerChar_eq_iff (by decide) r).mp hr,
        (lowerChar_eq_iff (by decide) e).mp he, (lowerChar_eq_iff (by decide) m).mp hm, hafter⟩
    · exact absurd h (by decide)
  · rintro ⟨r, e, m, after, rfl, hr, he, hm, hafter⟩
    have hr' := (lowerChar_eq_iff (l := 'r') (by decide) r).mpr hr
    have he' := (lowerChar_eq_iff (l := 'e') (by decide) e).mpr he
    have hm' := (lowerChar_eq_iff (l := 'm') (by decide) m).mpr hm
    simp only [isRem, hr', he', hm', beq_self_eq_true, Bool.true_and, Option.all_eq_true]
    exact hafter

theorem startsStatement_iff (before : Text) :
    startsStatement before = true ↔ EndsStatement before.reverse := by
  have hsuffix : ∀ s : Text, s <:+ (before.dropWhile isSpace).reverse ↔
      s.reverse <+: before.dropWhile isSpace := by
    intro s
    rw [← List.reverse_prefix, List.reverse_reverse]
  rw [startsStatement, EndsStatement, dropEnd, List.reverse_reverse, List.reverse_eq_nil_iff,
    hsuffix, hsuffix]
  split
  · next h => simp [h]
  · next h => simp [h]
  · next hnil hcolon =>
    have hno : ¬ [':'].reverse <+: before.dropWhile isSpace := by
      rintro ⟨t, ht⟩
      exact hcolon t ht.symm
    simp only [List.isPrefixOf_iff_prefix, eq_false hnil, hno, false_or]

theorem remarkHere_iff (before t : Text) :
    remarkHere before t = true ↔
      t.head? = some '\'' ∨ (StandsRem t ∧ EndsStatement before.reverse) := by
  rw [remarkHere, Bool.or_eq_true, beq_iff_eq, Bool.and_eq_true, isRem_iff, startsStatement_iff]

/-- Whether a comment may start at the place that the scan has reached. -/
theorem remarkAt_iff (before t : Text) :
    RemarkAt (before.reverse ++ t) before.length ↔
      Even (before.count '"') ∧ remarkHere before t = true := by
  have htake : (before.reverse ++ t).take before.length = before.reverse :=
    List.take_left' (List.length_reverse ..)
  have hdrop : (before.reverse ++ t).drop before.length = t :=
    List.drop_left' (List.length_reverse ..)
  have hget : (before.reverse ++ t)[before.length]? = t.head? := by
    rw [← List.head?_drop, hdrop]
  rw [remarkHere_iff]
  constructor
  · intro h
    have houtside := h.outside
    have hsign := h.sign
    rw [htake, List.count_reverse] at houtside
    rw [htake, hdrop, hget] at hsign
    exact ⟨houtside, hsign⟩
  · rintro ⟨houtside, hsign⟩
    constructor
    · rwa [htake, List.count_reverse]
    · rwa [htake, hdrop, hget]

theorem RemarkAt.lt_length {line : Text} {i : Nat} (h : RemarkAt line i) : i < line.length := by
  by_contra hge
  have hend := List.drop_eq_nil_of_le (Nat.le_of_not_lt hge)
  rcases h.sign with h | ⟨⟨r, e, m, after, h, _⟩, _⟩
  · rw [← List.head?_drop, hend] at h
    cases h
  · rw [hend] at h
    cases h

/-! ## The scan -/

theorem not_remarkHere_quote (before t : Text) : remarkHere before ('"' :: t) = false := by
  have hrem : isRem ('"' :: t) = false := by
    rw [isRem_eq]
    have hquote : (lowerChar '"' == 'r') = false := by decide
    simp [hquote]
  simp [remarkHere, hrem]

/-- The scan finds the first position, given that it knows whether a quote is open. -/
theorem first_remarkFrom {quoted : Bool} {before : Text}
    (hquoted : quoted = false ↔ Even (before.count '"')) (t : Text) :
    First (fun j => RemarkAt (before.reverse ++ t) (before.length + j))
      (remarkFrom quoted before t) := by
  induction t generalizing quoted before with
  | nil =>
    intro j hj
    have hlt := hj.lt_length
    rw [List.append_nil, List.length_reverse] at hlt
    omega
  | cons c t ih =>
    have hhere := remarkAt_iff before (c :: t)
    -- one step on, the line is the same and its part behind the scan one character longer
    have hstep : ∀ quoted', (quoted' = false ↔ Even ((c :: before).count '"')) →
        First (fun j => RemarkAt (before.reverse ++ c :: t) (before.length + (j + 1)))
          (remarkFrom quoted' (c :: before) t) := by
      intro quoted' h
      have hfirst := ih h
      rw [List.reverse_cons, List.append_assoc] at hfirst
      simpa only [List.length_cons, List.cons_append, List.nil_append, Nat.add_assoc,
        Nat.add_comm 1] using hfirst
    rw [remarkFrom]
    split
    · next hc =>
      obtain rfl : c = '"' := by simpa using hc
      have hnot : ¬ RemarkAt (before.reverse ++ '"' :: t) before.length := by
        rw [hhere, not_remarkHere_quote]
        simp
      apply First.next hnot
      apply hstep
      rw [List.count_cons_self, Nat.even_add_one, ← hquoted]
      cases quoted <;> simp
    · next hc =>
      have hcount : (c :: before).count '"' = before.count '"' :=
        List.count_cons_of_ne (by simpa using hc)
      split
      · next hsign =>
        rw [Bool.and_eq_true, Bool.not_eq_true'] at hsign
        exact First.here (hhere.mpr ⟨hquoted.mp hsign.1, by simpa [remarkHere] using hsign.2⟩)
      · next hsign =>
        have hnot : ¬ RemarkAt (before.reverse ++ c :: t) before.length := by
          rw [hhere, ← hquoted]
          rintro ⟨hq, hr⟩
          exact hsign (by simpa [hq, remarkHere] using hr)
        exact First.next hnot (hstep quoted (by rw [hcount, hquoted]))

theorem first_remarkStart? (line : Text) : First (RemarkAt line) (remarkStart? line) := by
  have h := @first_remarkFrom false [] (by simp) line
  simp only [List.reverse_nil, List.nil_append, List.length_nil, Nat.zero_add] at h
  exact h

/-! ## After the strings were masked -/

theorem splitRemark_some {line : Text} {i : Nat} (h : remarkStart? line = some i) :
    splitRemark line = (line.take i, line.drop i) := by
  rw [splitRemark, h, ← List.splitAt_eq]

theorem splitRemark_none_iff (line : Text) :
    remarkStart? line = none ↔ (splitRemark line).2 = [] := by
  cases h : remarkStart? line with
  | none => simp [splitRemark, h]
  | some i =>
    have hlt := ((first_remarkStart? line).eq_some_iff.mp h).1.lt_length
    rw [splitRemark_some h]
    simp only [List.drop_eq_nil_iff, reduceCtorEq, false_iff]
    omega

/-- Where an even number of quotes stands on one line, each belongs to a string. -/
theorem quote_not_mem_maskStrings {t : Text} (hline : OneLine t) (heven : Even (t.count '"')) :
    '"' ∉ maskStrings t := by
  induction t using line_induction with
  | nil => simp
  | char c t hc ih =>
    rw [List.count_cons_of_ne hc] at heven
    rw [maskStrings_char (dropString?_char hc t), List.mem_cons, not_or]
    exact ⟨Ne.symm hc, ih hline.tail heven⟩
  | string b t hb ih =>
    -- a string takes its two quotes with it
    have hcount : ('"' :: (b ++ '"' :: t)).count '"' = t.count '"' + 2 := by
      rw [List.count_cons_self, List.count_append, List.count_eq_zero_of_not_mem hb,
        List.count_cons_self]
      omega
    rw [hcount, Nat.even_add] at heven
    rw [maskStrings_string hb hline.tail.append.1, List.mem_append, not_or]
    exact ⟨by decide, ih hline.tail.append.2.tail (heven.mpr (by decide))⟩
  | unclosed b hb =>
    rw [List.count_cons_self, List.count_eq_zero_of_not_mem hb] at heven
    exact absurd heven (by decide)

/-- The comment of a line starts at the first place with an even number of quotes before it at which
an apostrophe stands, or the word Rem at the start of a statement. Once the strings of the line are
masked there is a comment just if there was one, it is the same comment, which is then put aside,
and no quote is left before it. -/
theorem remark_kept {line : Text} (hsound : Sound Kind.remark.turn line) (hline : OneLine line) :
    (∀ i, remarkStart? line = some i ↔ IsLeast {j | RemarkAt line j} i) ∧
    (remarkStart? line = none ↔ ∀ j, ¬ RemarkAt line j) ∧
    (remarkStart? ((cutStrings line).replace fun _ => Kind.string.token) = none ↔
      remarkStart? line = none) ∧
    (∀ i, remarkStart? line = some i →
      ∃ i', remarkStart? ((cutStrings line).replace fun _ => Kind.string.token) = some i' ∧
        ((cutStrings line).replace fun _ => Kind.string.token).drop i' = line.drop i ∧
        '"' ∉ ((cutStrings line).replace fun _ => Kind.string.token).take i') ∧
    (cutRemark ((cutStrings line).replace fun _ => Kind.string.token)).hits =
      ((remarkStart? line).map line.drop).toList := by
  have hfirst := first_remarkStart? line
  have hmask : ((cutStrings line).replace fun _ => Kind.string.token) = stringsMasked [] line :=
    mask_cutStrings line
  generalize (cutStrings line).replace (fun _ => Kind.string.token) = masked at hmask ⊢
  have hsplit : splitRemark masked =
      (maskStrings (splitRemark line).1, (splitRemark line).2) := by
    rw [hmask]
    exact splitFrom_masked hsound hline rfl
  have hnone : remarkStart? masked = none ↔ remarkStart? line = none := by
    rw [splitRemark_none_iff, splitRemark_none_iff, hsplit]
  have hsome : ∀ i, remarkStart? line = some i → ∃ i', remarkStart? masked = some i' ∧
      masked.drop i' = line.drop i ∧ '"' ∉ masked.take i' := by
    intro i hi
    -- both lines split into code and comment, and the comments are the same
    have hne : remarkStart? masked ≠ none := by simp [hnone, hi]
    obtain ⟨i', hi'⟩ := Option.ne_none_iff_exists'.mp hne
    rw [splitRemark_some hi, splitRemark_some hi', Prod.mk.injEq] at hsplit
    refine ⟨i', hi', hsplit.2, ?_⟩
    rw [hsplit.1]
    have hcode : OneLine (line.take i) := by
      rw [← List.take_append_drop i line] at hline
      exact hline.append.1
    exact quote_not_mem_maskStrings hcode (hfirst.eq_some_iff.mp hi).1.outside
  refine ⟨fun i => hfirst.eq_some_iff, hfirst.eq_none_iff, hnone, hsome, ?_⟩
  cases hi : remarkStart? line with
  | none =>
    rw [cutRemark, hnone.mpr hi]
    rfl
  | some i =>
    obtain ⟨i', hi', hdrop, _⟩ := hsome i hi
    rw [cutRemark, hi']
    simp [Weave.hits, hdrop]

/-- A line of markup and code, with an apostrophe in a string and an open quote in its comment. -/
def quotedRemark : Text :=
  Kind.markup.token ++ "a = \"it's\" : Rem say \"hi".toList

/-- The apostrophe in the string starts no comment, and what the word Rem starts is put aside. -/
theorem quotedRemark_kept :
    Sound Kind.remark.turn quotedRemark ∧ OneLine quotedRemark ∧
      IsLeast {j | RemarkAt quotedRemark j} 19 ∧
      (cutRemark ((cutStrings quotedRemark).replace fun _ => Kind.string.token)).hits =
        ["Rem say \"hi".toList] := by
  have hsound : Sound Kind.remark.turn quotedRemark :=
    Sound.token (m := .kind .markup) (by decide) (Sound.of_nul_free (by decide))
  have hline : OneLine quotedRemark := ⟨by decide, by decide⟩
  obtain ⟨hleast, _, _, _, hhits⟩ := remark_kept hsound hline
  have hstart : remarkStart? quotedRemark = some 19 := by decide
  refine ⟨hsound, hline, (hleast 19).mp hstart, ?_⟩
  rw [hhits, hstart]
  decide

end VbTidy
