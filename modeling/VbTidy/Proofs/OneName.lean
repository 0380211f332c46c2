import Mathlib.Data.List.TakeWhile
import VbTidy.Proofs.Declared
import VbTidy.Proofs.Wordwise

/-
How many names each Dim of a split line declares. The first Dim of a line declares one at most. Any
other Dim stands either in a name of the first or behind the end of its statement. In a name it had
no fewer names behind it before the line was split (`length_namesOf_le`), so it declares one at
most if it did so then. Behind the end of the statement the splitter does not look: such a Dim comes
out with the same text behind it, and so with all its names (`splitDeclarations_one_name`).
-/
namespace VbTidy

/-- The statement behind a Dim declares one name at most. -/
def DeclaresOne (after : Text) : Prop :=
  (declaredNames (splitStatement after).1).length ≤ 1

instance (after : Text) : Decidable (DeclaresOne after) :=
  inferInstanceAs (Decidable (_ ≤ 1))

/-- Each Dim of a line declares one name at most. -/
def EachOne (line : Text) : Prop :=
  ∀ b d a, line = b ++ (d ++ a) → DimAt b d a → DeclaresOne a

/-- Each Dim of a line behind the first declares one name at most. -/
def LaterOne (line : Text) : Prop :=
  ∀ b d a, line = b ++ (d ++ a) → DimAt b d a → ¬ FirstDim b d a → DeclaresOne a

/-! ## Where a Dim may stand -/

theorem DimAt.isWord {b d a : Text} (h : DimAt b d a) : ∀ c ∈ d, isWord c = true :=
  isWord_of_letters (by decide) h.word

theorem DimAt.ne_nil {b d a : Text} (h : DimAt b d a) : d ≠ [] := by
  rintro rfl
  cases h.length

theorem DimAt.wordAt_head {b d a : Text} (h : DimAt b d a) (x : Text) :
    wordAt (d ++ x).head? = true := by
  obtain ⟨c, d, rfl⟩ := List.exists_cons_of_ne_nil h.ne_nil
  exact h.isWord c List.mem_cons_self

/-- Only the character before a Dim counts. -/
theorem DimAt.exchange {x x' z d a : Text} (h : DimAt (x ++ z) d a) (hz : z ≠ []) :
    DimAt (x' ++ z) d a := by
  refine ⟨h.word, ?_, h.behind⟩
  have hfront := h.front
  rw [List.getLast?_append_of_ne_nil _ hz] at hfront ⊢
  exact hfront

/-- A statement does not end at a word. -/
theorem wordAt_stop {rest : Text} (h : rest = [] ∨ endsStatement rest = true) :
    wordAt rest.head? = false := by
  rcases h with rfl | h
  · rfl
  · simp only [endsStatement, Bool.or_eq_true, beq_iff_eq, List.isPrefixOf_iff_prefix] at h
    have htoken : ∀ k : Kind, k.token <+: rest → wordAt rest.head? = false := by
      rintro k ⟨t, rfl⟩
      rw [Kind.token_eq_cons, List.cons_append, List.head?_cons]
      decide
    rcases h with (h | h) | h
    · rw [h]
      decide
    · exact htoken _ h
    · exact htoken _ h

/-- A word stands before the place where a word cannot go on, or behind it. -/
theorem DimAt.clear {b d a m tail : Text} (h : DimAt b d a)
    (heq : d ++ a = m ++ tail) (htail : wordAt tail.head? = false) :
    ∃ w, m = d ++ w ∧ a = w ++ tail := by
  rcases List.append_eq_append_iff.mp heq with ⟨w, hw, ha⟩ | ⟨w, hw, ha⟩
  · exact ⟨w, hw, ha⟩
  · cases w with
    | nil => exact ⟨[], by simpa using hw.symm, ha.symm⟩
    | cons c w =>
      have hc := h.isWord c (by simp [hw])
      rw [ha, List.cons_append, List.head?_cons] at htail
      rw [show wordAt (some c) = true from hc] at htail
      cases htail

/-- A Dim in a line is the first one or stands somewhere behind it. -/
theorem FirstDim.cases {before dim after b d a : Text} (h : FirstDim before dim after)
    (hline : b ++ (d ++ a) = before ++ (dim ++ after)) (hat : DimAt b d a) :
    (b = before ∧ d = dim ∧ a = after) ∨
      ∃ y, y ≠ [] ∧ b = before ++ (dim ++ y) ∧ after = y ++ (d ++ a) := by
  obtain ⟨x, rfl⟩ : before <+: b :=
    List.prefix_of_prefix_length_le (List.prefix_append _ _) ⟨_, hline⟩ (h.least b d a hline hat)
  rw [List.append_assoc] at hline
  have hline := List.append_cancel_left hline
  have hlen : d.length = dim.length := hat.length.trans h.here.length.symm
  -- the character before a Dim is part of no word, so it is none of the first one
  have hout : ∀ c, x.getLast? = some c → c ∉ dim := by
    intro c hc hmem
    have hfront := hat.front.2
    rw [List.getLast?_append, hc, Option.some_or] at hfront
    rw [show wordAt (some c) = true from h.here.isWord c hmem] at hfront
    cases hfront
  rcases List.append_eq_append_iff.mp hline with ⟨y, rfl, hy⟩ | ⟨y, rfl, hy⟩
  · rcases List.eq_nil_or_concat' x with rfl | ⟨x, c, rfl⟩
    · rw [List.nil_append] at hlen ⊢
      obtain ⟨rfl, rfl⟩ := List.append_inj hy.symm hlen.symm
      exact .inl ⟨List.append_nil _, rfl, rfl⟩
    · exact absurd (by simp) (hout c (by simp))
  · refine .inr ⟨y, ?_, rfl, hy⟩
    rintro rfl
    rw [List.append_nil] at hout
    have hne := h.here.ne_nil
    exact hout _ (List.getLast?_eq_some_getLast hne) (List.getLast_mem hne)

/-! ## Fewer names in less text -/

theorem trim_eq_nil_iff {t : Text} : trim t = [] ↔ ∀ c ∈ t, isSpace c = true := by
  constructor
  · intro h
    obtain ⟨s₁, s₂, ht, hs₁, hs₂⟩ := trim_split t
    rw [ht, h]
    simpa [or_imp, forall_and] using ⟨hs₁, hs₂⟩
  · intro h
    rw [trim, trimBy, List.dropWhile_eq_nil_iff.mpr h]
    rfl

theorem length_namesOf_cons (p : Text) (ps : List Text) :
    (namesOf (p :: ps)).length = (namesOf [p]).length + (namesOf ps).length := by
  rw [← List.length_append, namesOf, namesOf, namesOf, ← List.filter_append, List.map_cons,
    List.map_cons, List.map_nil, List.singleton_append]

/-- A part that is a name remains one when it is longer. -/
theorem length_namesOf_part {p q : Text} (h : p <+: q) :
    (namesOf [p]).length ≤ (namesOf [q]).length := by
  by_cases hq : trim q = []
  · have hp : trim p = [] :=
      trim_eq_nil_iff.mpr fun c hc => trim_eq_nil_iff.mp hq c (h.subset hc)
    simp [namesOf, hp, hq]
  · have hone : (namesOf [q]).length = 1 := by simp [namesOf, hq]
    rw [hone, namesOf]
    exact List.length_filter_le _ _

/-- A longer text has no fewer names. -/
theorem length_namesOf_le (depth : Nat) {s t : Text} (h : s <+: t) :
    (namesOf (cutNames depth s)).length ≤ (namesOf (cutNames depth t)).length := by
  -- the first part is longer, and behind it there are no fewer names
  suffices hparts : ∃ p ps q qs, cutNames depth s = p :: ps ∧ cutNames depth t = q :: qs ∧ p <+: q ∧
      (namesOf ps).length ≤ (namesOf qs).length by
    obtain ⟨p, ps, q, qs, hs, ht, hp, hps⟩ := hparts
    rw [hs, ht, length_namesOf_cons p, length_namesOf_cons q]
    exact Nat.add_le_add (length_namesOf_part hp) hps
  obtain ⟨r, rfl⟩ := h
  induction s generalizing depth with
  | nil =>
    obtain ⟨q, qs, hq⟩ := List.exists_cons_of_ne_nil (cutNames_ne_nil depth ([] ++ r))
    exact ⟨[], [], q, qs, rfl, hq, List.nil_prefix, Nat.zero_le _⟩
  | cons c s ih =>
    rw [List.cons_append, cutNames, cutNames]
    split
    · obtain ⟨p, ps, q, qs, hs, ht, hp, hps⟩ := ih 0
      refine ⟨[], _, [], _, rfl, rfl, List.prefix_refl _, ?_⟩
      rw [hs, ht, length_namesOf_cons p, length_namesOf_cons q]
      exact Nat.add_le_add (length_namesOf_part hp) hps
    · obtain ⟨p, ps, q, qs, hs, ht, hp, hps⟩ :=
        ih (if c == '(' then depth + 1 else if c == ')' then depth - 1 else depth)
      simp only [hs, ht]
      exact ⟨c :: p, ps, c :: q, qs, rfl, rfl, (List.prefix_cons_inj c).mpr hp, hps⟩

/-! ## Where a name stands -/

/-- A part of a list stands between commas or ends of the list. -/
theorem part_place {p : Text} {parts : List Text} (h : p ∈ parts) :
    ∃ u v, [','].intercalate parts = u ++ (p ++ v) ∧ (u = [] ∨ u.getLast? = some ',') ∧
      (v = [] ∨ v.head? = some ',') := by
  induction parts with
  | nil => cases h
  | cons q parts ih =>
    cases parts with
    | nil =>
      obtain rfl := List.mem_singleton.mp h
      exact ⟨[], [], by simp, .inl rfl, .inl rfl⟩
    | cons r parts =>
      rw [List.intercalate_cons_cons]
      rcases List.mem_cons.mp h with rfl | h
      · exact ⟨[], [','] ++ [','].intercalate (r :: parts), by simp, .inl rfl, .inr rfl⟩
      · obtain ⟨u, v, heq, hu, hv⟩ := ih h
        refine ⟨q ++ ([','] ++ u), v, by simp [heq], .inr ?_, hv⟩
        rcases hu with rfl | hu
        · simp
        · rw [← List.append_assoc, List.getLast?_append, hu, Option.some_or]

/-- Before and behind a name no word goes on. -/
theorem Declaration.name_place {line : Text} (D : Declaration line) {n : Text} (hn : n ∈ D.names) :
    ∃ u v, D.list = u ++ (n ++ v) ∧
      (u = [] ∨ (u.getLast? ≠ some '.' ∧ wordAt u.getLast? = false)) ∧
        wordAt (v ++ D.rest).head? = false := by
  obtain ⟨p, hp, rfl⟩ := List.mem_map.mp (List.mem_of_mem_filter hn)
  obtain ⟨u, v, hlist, hu, hv⟩ := part_place hp
  rw [D.listed.joined] at hlist
  obtain ⟨s₁, s₂, hp, hs₁, hs₂⟩ := trim_split p
  have hspace : ∀ c, isSpace c = true → some c ≠ some '.' ∧ wordAt (some c) = false := by
    intro c hc
    refine ⟨?_, isWord_of_isBreak (isBreak_of_isSpace hc)⟩
    intro heq
    rw [Option.some.inj heq] at hc
    exact absurd hc (by decide)
  refine ⟨u ++ s₁, s₂ ++ v, ?_, ?_, ?_⟩
  · conv_lhs => rw [hlist, hp]
    simp
  · rcases List.eq_nil_or_concat' s₁ with rfl | ⟨s₁, c, rfl⟩
    · rw [List.append_nil]
      refine hu.imp_right fun hu => ?_
      rw [hu]
      decide
    · right
      rw [← List.append_assoc, List.getLast?_concat]
      exact hspace c (hs₁ c (by simp))
  · cases s₂ with
    | cons c s₂ => exact (hspace c (hs₂ c List.mem_cons_self)).2
    | nil =>
      rcases hv with rfl | hv
      · exact wordAt_stop D.statement.stop
      · rw [List.nil_append, List.head?_append, hv, Option.some_or]
        decide

/-! ## The lines that come out -/

/-- The first Dim of a line that stays as it is declares one name at most. -/
theorem declaresOne_of_kept {line b d a : Text} (hkept : splitDeclaration line = [line])
    (hline : line = b ++ (d ++ a)) (hfirst : FirstDim b d a) : DeclaresOne a := by
  rw [hline] at hkept
  rcases splitDeclaration_cases hfirst with ⟨hone, _⟩ | ⟨first, mid, last, _, hsplit⟩
  · exact hone
  · rw [hsplit] at hkept
    simp at hkept

theorem Declaration.not_first {line : Text} (D : Declaration line) {y d a : Text}
    (hline : line = D.before ++ (D.dim ++ y) ++ (d ++ a)) :
    ¬ FirstDim (D.before ++ (D.dim ++ y)) d a := by
  intro h
  have hle := h.least D.before D.dim (D.list ++ D.rest) (D.eq.symm.trans hline) D.first.here
  have hlen := D.first.here.length
  simp only [List.length_append] at hle
  omega

/-- The statement behind a Dim goes on up to the end that the splitter found. -/
theorem Statement.splitStatement_suffix {u v rest : Text} (h : Statement (u ++ v) rest) :
    (splitStatement (v ++ rest)).1 = v := by
  induction v generalizing u with
  | nil =>
    cases rest with
    | nil => rfl
    | cons c rest =>
      rw [List.nil_append, splitStatement, if_pos (h.stop.resolve_left (List.cons_ne_nil c rest))]
  | cons c v ih =>
    have hinside := h.inside u (c :: v) rfl (List.cons_ne_nil c v)
    have hmore : Statement (u ++ [c] ++ v) rest := by simpa using h
    rw [List.cons_append] at hinside ⊢
    rw [splitStatement, if_neg (by simp [hinside])]
    exact congrArg (c :: ·) (ih hmore)

section
variable {line : Text} (D : Declaration line) (hlater : LaterOne line)
include D hlater

/-- Behind the end of the statement the line is as it was. -/
theorem Declaration.one_in_rest {x z d a : Text} (hz : z ≠ []) (hrest : D.rest = z ++ (d ++ a))
    (hat : DimAt (x ++ z) d a) : DeclaresOne a := by
  have hline : line = D.before ++ (D.dim ++ (D.list ++ z)) ++ (d ++ a) :=
    D.eq.trans (by simp [hrest])
  refine hlater _ d a hline ?_ (D.not_first hline)
  rw [← List.append_assoc D.dim, ← List.append_assoc]
  exact hat.exchange hz

/-- A Dim in a name of the first has more text behind it in the line. -/
theorem Declaration.one_in_name {x y d w tail : Text} (hn : y ++ (d ++ w) ∈ D.names)
    (hstop : tail = [] ∨ endsStatement tail = true) (hat : DimAt (x ++ y) d (w ++ tail)) :
    DeclaresOne (w ++ tail) := by
  obtain ⟨u, v, hlist, hu, hv⟩ := D.name_place hn
  have hline : line = D.before ++ (D.dim ++ (u ++ y)) ++ (d ++ (w ++ (v ++ D.rest))) :=
    D.eq.trans (by simp [hlist])
  have hstatement : Statement (u ++ y ++ d ++ (w ++ v)) D.rest := by
    have h := D.statement
    rw [hlist] at h
    simpa using h
  have hfront : DimAt (D.before ++ (D.dim ++ (u ++ y))) d (w ++ tail) := by
    rw [← List.append_assoc, ← List.append_assoc]
    by_cases hy : y = []
    · have hune : u ≠ [] := by
        rintro rfl
        have hword := D.first.here.behind
        rw [hlist, hy, List.nil_append, List.nil_append, List.append_assoc, List.append_assoc,
          hat.wordAt_head] at hword
        cases hword
      have hpart := hu.resolve_left hune
      rw [← List.getLast?_append_of_ne_nil (D.before ++ D.dim) hune] at hpart
      rw [hy, List.append_nil]
      exact ⟨hat.word, hpart, hat.behind⟩
    · exact hat.exchange hy
  have hbehind : wordAt (w ++ (v ++ D.rest)).head? = false := by
    cases w with
    | nil => exact hv
    | cons c w => exact hat.behind
  have hfew := hlater _ d _ hline ⟨hat.word, hfront.front, hbehind⟩ (D.not_first hline)
  rw [DeclaresOne, ← List.append_assoc, hstatement.splitStatement_suffix] at hfew
  have hcut : (splitStatement (w ++ tail)).1 <+: w ++ v :=
    (prefix_splitStatement hstop w).trans (List.prefix_append w v)
  exact Nat.le_trans (length_namesOf_le 0 hcut) hfew

/-- A Dim in a line that comes out stands behind the end of the statement that was split, or in its
name, or it is the Dim of that statement. -/
theorem Declaration.eachOne_name {n : Text} (hn : n ∈ D.names) {pre tail : Text}
    (htail : tail = [] ∨ tail = D.rest) (hfirst : FirstDim pre D.dim (' ' :: (n ++ tail)))
    (hone : DeclaresOne (' ' :: (n ++ tail))) :
    EachOne (pre ++ (D.dim ++ ' ' :: (n ++ tail))) := by
  have hstop := D.stop_of_tail htail
  intro b d a hline hat
  rcases hfirst.cases hline.symm hat with ⟨-, -, rfl⟩ | ⟨y, hy, rfl, hrest⟩
  · exact hone
  obtain ⟨c, y, rfl⟩ := List.exists_cons_of_ne_nil hy
  obtain ⟨rfl, hbehind⟩ : ' ' = c ∧ n ++ tail = y ++ (d ++ a) := List.cons.inj hrest
  rw [← List.singleton_append, ← List.append_assoc D.dim, ← List.append_assoc] at hat
  rcases List.append_eq_append_iff.mp hbehind with ⟨z, rfl, htz⟩ | ⟨m, rfl, hm⟩
  · have hz : z ≠ [] := by
      rintro rfl
      have hword := hat.wordAt_head a
      rw [← htz.trans (List.nil_append _), wordAt_stop hstop] at hword
      cases hword
    have hrest : D.rest = z ++ (d ++ a) := by
      rcases htail with rfl | rfl
      · exact absurd (List.append_eq_nil_iff.mp htz.symm).1 hz
      · exact htz
    rw [← List.append_assoc] at hat
    exact D.one_in_rest hlater hz hrest hat
  · obtain ⟨w, rfl, rfl⟩ := hat.clear hm (wordAt_stop hstop)
    exact D.one_in_name hlater hn hstop hat

end

theorem eachOne_splitDeclaration {line : Text} (hlater : LaterOne line) :
    ∀ out ∈ splitDeclaration line, EachOne out := by
  have hfirst : ∀ out ∈ splitDeclaration line, ∀ b d a, out = b ++ (d ++ a) → FirstDim b d a →
      DeclaresOne a :=
    fun out hout _ _ _ => declaresOne_of_kept (splitDeclaration_twice line out hout)
  have hinto := splitInto line
  generalize splitDeclaration line = outs at hfirst hinto
  have hsame : outs = [line] → ∀ out ∈ outs, EachOne out := by
    rintro rfl out hout b d a hline hat
    obtain rfl := List.mem_singleton.mp hout
    by_cases hd : FirstDim b d a
    · exact hfirst out hout b d a hline hd
    · exact hlater b d a hline hat hd
  cases hinto with
  | plain _ => exact hsame rfl
  | few D _ => exact hsame rfl
  | each D first mid last hnames =>
    intro out hout
    have hone := hfirst out hout
    obtain ⟨pre, n, tail, rfl, hn, htail, hdim⟩ := D.line_cases hnames hout
    exact D.eachOne_name hlater hn htail hdim (hone _ _ _ rfl hdim)

/-- A Dim behind the end of the statement comes out, with what stands behind it. -/
theorem Declaration.later_kept {line : Text} (D : Declaration line) {z d a : Text}
    (hrest : D.rest = z ++ (d ++ a)) (hat : DimAt (D.before ++ (D.dim ++ (D.list ++ z))) d a) :
    ∃ out ∈ splitDeclaration line, ∃ b, out = b ++ (d ++ a) ∧ DimAt b d a := by
  have hz : z ≠ [] := by
    rintro rfl
    have hword := hat.wordAt_head a
    rw [← hrest.trans (List.nil_append _), wordAt_stop D.statement.stop] at hword
    cases hword
  have hcut : splitStatement (D.list ++ D.rest) = (D.list, D.rest) := by
    have hlist := Statement.splitStatement_suffix (u := []) D.statement
    have happend := splitStatement_append (D.list ++ D.rest)
    rw [hlist] at happend
    exact Prod.ext hlist (List.append_cancel_left happend)
  have hcases := splitDeclaration_cases D.first
  rw [← D.eq, hcut] at hcases
  rcases hcases with ⟨_, hsplit⟩ | ⟨first, mid, last, _, hsplit⟩
  · rw [hsplit]
    exact ⟨line, List.mem_singleton_self line, _, D.eq.trans (by simp [hrest]), hat⟩
  · rw [hsplit]
    refine ⟨_, List.mem_cons_of_mem _ (List.mem_append_right _ (List.mem_singleton_self _)),
      D.dim ++ ' ' :: last ++ z, ?_, ?_⟩
    · rw [hrest]
      simp
    · rw [← List.append_assoc D.dim, ← List.append_assoc] at hat
      exact hat.exchange hz

/-- In the lines that come out each first Dim declares one name at most, and so does each other Dim
if those of the lines that go in do. A Dim behind the end of the statement that is split declares as
many names as before. -/
theorem splitDeclarations_one_name (lines : List Text) :
    (∀ out ∈ splitDeclarations lines, ∀ b d a, out = b ++ (d ++ a) → FirstDim b d a →
      DeclaresOne a) ∧
    ((∀ line ∈ lines, LaterOne line) → ∀ out ∈ splitDeclarations lines, EachOne out) ∧
    ∀ line ∈ lines, ∀ (D : Declaration line) (z d a : Text), D.rest = z ++ (d ++ a) →
      DimAt (D.before ++ (D.dim ++ (D.list ++ z))) d a →
        ∃ out ∈ splitDeclarations lines, ∃ b, out = b ++ (d ++ a) ∧ DimAt b d a := by
  refine ⟨?_, ?_, ?_⟩
  · intro out hout b d a
    obtain ⟨line, _, hout⟩ := List.mem_flatMap.mp hout
    exact declaresOne_of_kept (splitDeclaration_twice line out hout)
  · intro hlater out hout
    obtain ⟨line, hline, hout⟩ := List.mem_flatMap.mp hout
    exact eachOne_splitDeclaration (hlater line hline) out hout
  · intro line hline D z d a hrest hat
    obtain ⟨out, hout, hdim⟩ := D.later_kept hrest hat
    exact ⟨out, List.mem_flatMap.mpr ⟨line, hline, hout⟩, hdim⟩

theorem laterOne_of_positions {line : Text}
    (h : ∀ i < line.length, isSameWord "dim".toList ((line.drop i).take 3) = true →
      i = 0 ∨ DeclaresOne (line.drop (i + 3))) : LaterOne line := by
  rintro b d a rfl hat hnot
  have hlen := hat.length
  have hword : isSameWord "dim".toList (((b ++ (d ++ a)).drop b.length).take 3) = true := by
    rw [List.drop_left, ← hlen, List.take_left]
    exact hat.word
  rcases h b.length (by rw [List.length_append, List.length_append]; omega) hword with hb | hone
  · rw [List.length_eq_zero_iff.mp hb] at hat hnot
    exact absurd ⟨hat, fun _ _ _ _ _ => Nat.zero_le _⟩ hnot
  · rwa [← List.drop_drop, List.drop_left, ← hlen, List.drop_left] at hone

/-- Two statements on a line, the first with two names. -/
def firstOfTwo : List Text :=
  ["Dim a, b: Dim c".toList]

theorem firstOfTwo_one_name : (∀ line ∈ firstOfTwo, LaterOne line) ∧
    splitDeclarations firstOfTwo = ["Dim a".toList, "Dim b: Dim c".toList] ∧
      ∀ out ∈ splitDeclarations firstOfTwo, EachOne out := by
  have hlater : ∀ line ∈ firstOfTwo, LaterOne line := by
    rw [firstOfTwo, List.forall_mem_singleton]
    apply laterOne_of_positions
    decide
  exact ⟨hlater, by decide, (splitDeclarations_one_name firstOfTwo).2.1 hlater⟩

/-- Two statements on a line, the second with two names: the line comes out as it is. -/
theorem secondOfTwo_two_names :
    ¬ ∀ lines, ∀ out ∈ splitDeclarations lines, EachOne out := by
  intro h
  have hout : "Dim a: Dim b, c".toList ∈ splitDeclarations ["Dim a: Dim b, c".toList] := by
    decide
  have hat : DimAt "Dim a: ".toList "Dim".toList " b, c".toList :=
    ⟨by decide, by decide, by decide⟩
  have hone := h _ _ hout "Dim a: ".toList "Dim".toList " b, c".toList (by decide) hat
  revert hone
  decide

end VbTidy
