import VbTidy.Block
import VbTidy.Proofs.Cut
import Mathlib.Algebra.Group.Basic

/-
Statements on one line. No block phrase reaches over the colon between two statements, so the
phrases of each are counted as if it stood alone. An If with a statement behind its Then does reach
over it: it takes all that follows on its line out of the count. It is looked for before any phrase
is, so the If of an End If is taken for one too.

What is proved:
  1. `countRules_append`: phrases are counted before and behind a colon separately.
  2. `shiftOf_joined`: the shift of two statements on one line is the sum of their shifts, unless an
     If of the first has a Then with a statement behind it on that line; then the phrases before the
     first such If are all that counts.
  3. `endIf_hides_rest`: the end of a block in front of a conditional statement is not counted.
-/
namespace VbTidy

/-! ## Sums of shifts -/

namespace Shift

instance : Add Shift :=
  ⟨fun s t => ⟨s.block + t.block, s.line + t.line⟩⟩

instance : Zero Shift :=
  ⟨zero⟩

instance : AddCommMonoid Shift where
  add_assoc s t u := congrArg₂ mk (Int.add_assoc ..) (Int.add_assoc ..)
  zero_add s := congrArg₂ mk (Int.zero_add _) (Int.zero_add _)
  add_zero s := congrArg₂ mk (Int.add_zero _) (Int.add_zero _)
  add_comm s t := congrArg₂ mk (Int.add_comm ..) (Int.add_comm ..)
  nsmul := nsmulRec

theorem mk_add_mk (a b c d : Int) : mk a b + mk c d = mk (a + c) (b + d) := rfl

/-- Phrases of a rule are counted on top of a shift as they are by themselves. -/
theorem add_rule (s : Shift) (r : Rule) (n : Nat) : s.add r n = s + (0 : Shift).add r n := by
  obtain ⟨block, line⟩ := s
  show _ = mk block line + zero.add r n
  unfold add zero
  split <;> rw [mk_add_mk] <;> simp

theorem add_rule_add (r : Rule) (m n : Nat) :
    (0 : Shift).add r (m + n) = (0 : Shift).add r m + (0 : Shift).add r n := by
  show zero.add r (m + n) = zero.add r m + zero.add r n
  unfold add zero
  split <;> rw [mk_add_mk] <;> simp [Int.mul_add]

theorem add_none (r : Rule) : (0 : Shift).add r 0 = 0 := by
  unfold add
  split <;> simp

end Shift

theorem countRules_start (rs : List Rule) (s : Shift) (t : Text) :
    countRules rs s t = s + countRules rs 0 t := by
  induction rs generalizing s t with
  | nil => exact (add_zero s).symm
  | cons r rs ih =>
    rw [countRules, countRules, ih, ih ((0 : Shift).add r _), Shift.add_rule s, add_assoc]

theorem countRules_cons (r : Rule) (rs : List Rule) (t : Text) :
    countRules (r :: rs) 0 t =
      (0 : Shift).add r (r.pattern.count t) +
        countRules rs 0 (r.pattern.replace (fun _ => [' ']) t) := by
  rw [countRules, countRules_start]
  rfl

/-! ## Phrases do not reach over a colon -/

/-- The characters that stand between statements. -/
def isJoint (c : Char) : Bool :=
  c == ' ' || c == ':'

theorem joint_cases {c : Char} (h : isJoint c = true) : c = ' ' ∨ c = ':' := by
  simpa only [isJoint, Bool.or_eq_true, beq_iff_eq] using h

/-- A phrase of words without blanks and colons. -/
def Phrase (ws : List Text) : Prop :=
  ws ≠ [] ∧ ∀ w ∈ ws, w ≠ [] ∧ ∀ l ∈ w, ∀ c, isJoint c = true → sameLetter l c = false

theorem phrase_rules : ∀ r ∈ rules, Phrase (words r.phrase) := by
  have key : ∀ r ∈ rules, words r.phrase ≠ [] ∧ ∀ w ∈ words r.phrase, w ≠ [] ∧
      ∀ l ∈ w, sameLetter l ' ' = false ∧ sameLetter l ':' = false := by
    decide
  intro r hr
  obtain ⟨hne, hwords⟩ := key r hr
  refine ⟨hne, fun w hw => ⟨(hwords w hw).1, fun l hl c hc => ?_⟩⟩
  obtain ⟨hblank, hcolon⟩ := (hwords w hw).2 l hl
  rcases joint_cases hc with rfl | rfl
  · exact hblank
  · exact hcolon

theorem Phrase.tail {w v : Text} {ws : List Text} (h : Phrase (w :: v :: ws)) :
    Phrase (v :: ws) :=
  ⟨List.cons_ne_nil v ws, fun u hu => h.2 u (List.mem_cons_of_mem _ hu)⟩

/-- A word ends in front of a character that is none of its letters. -/
theorem dropWord?_stop {w : Text} {c : Char} (h : ∀ l ∈ w, sameLetter l c = false) (t u : Text) :
    dropWord? w (t ++ c :: u) = (dropWord? w t).map (· ++ c :: u) := by
  induction w generalizing t with
  | nil => rfl
  | cons l w ih =>
    cases t with
    | nil =>
      show (if sameLetter l c then dropWord? w u else none) = none
      rw [h l List.mem_cons_self, if_neg Bool.false_ne_true]
    | cons d t =>
      rw [List.cons_append, dropWord?, dropWord?]
      split
      · exact ih (fun m hm => h m (List.mem_cons_of_mem _ hm)) t
      · rfl

/-- Where the first word does not start the phrase does not. -/
theorem dropPhrase?_of_word {w t : Text} (h : dropWord? w t = none) (ws : List Text) :
    dropPhrase? (w :: ws) t = none := by
  cases ws with
  | nil => exact h
  | cons v ws =>
    rw [dropPhrase?, h]
    simp

theorem dropPhrase?_joint {ws : List Text} (hws : Phrase ws) {t : Text}
    (ht : (t.head?).all isJoint = true) : dropPhrase? ws t = none := by
  obtain ⟨hne, hwords⟩ := hws
  obtain ⟨w, ws, rfl⟩ := List.exists_cons_of_ne_nil hne
  obtain ⟨hw, hletters⟩ := hwords w List.mem_cons_self
  obtain ⟨l, w, rfl⟩ := List.exists_cons_of_ne_nil hw
  apply dropPhrase?_of_word
  cases t with
  | nil => rfl
  | cons c t =>
    rw [dropWord?, hletters l List.mem_cons_self c ht]
    rfl

/-- A text that starts with a space which no phrase goes over. -/
def Barrier (y : Text) : Prop :=
  ∃ z, y = ' ' :: z ∧ (z.head?).all (· == ':') = true

theorem dropPhrase?_barrier {ws : List Text} (hws : Phrase ws) {y : Text} (hy : Barrier y)
    (t : Text) : dropPhrase? ws (t ++ y) = (dropPhrase? ws t).map (· ++ y) := by
  obtain ⟨z, rfl, hz⟩ := hy
  induction ws generalizing t with
  | nil => exact absurd rfl hws.1
  | cons w ws ih =>
    have hw := dropWord?_stop (c := ' ')
      (fun l hl => (hws.2 w List.mem_cons_self).2 l hl ' ' rfl) t z
    cases ws with
    | nil => exact hw
    | cons v ws =>
      have ih := ih hws.tail
      -- behind the white space of the barrier nothing is left or a colon
      have hstop : dropPhrase? (v :: ws) (z.dropWhile isSpace) = none := by
        apply dropPhrase?_joint hws.tail
        cases z with
        | nil => rfl
        | cons c z =>
          obtain rfl : c = ':' := by simpa using hz
          rfl
      have hend : dropPhrase? (v :: ws) [] = none := dropPhrase?_joint hws.tail rfl
      rw [dropPhrase?, dropPhrase?, hw]
      · cases hr : dropWord? w t with
        | none => rfl
        | some rest =>
          cases rest with
          | nil => exact hstop
          | cons c rest =>
            simp only [Option.map_some, List.cons_append]
            split
            · rw [List.dropWhile_append]
              split
              · rename_i hall
                rw [List.isEmpty_iff.mp hall, hend]
                exact hstop
              · exact ih _
            · rfl
      all_goals simp

/-- Before a place only the kind of the character counts. -/
theorem phrasePattern_before {ws : List Text} {b b' : Option Char} (h : wordAt b = wordAt b')
    (t : Text) : phrasePattern ws b t = phrasePattern ws b' t := by
  have hbound : ∀ u : Text, atBoundary b u = atBoundary b' u := fun u => by
    rw [atBoundary, atBoundary, h]
  have hend : ∀ n, atBoundary ((t.take n).getLast?.or b) (t.drop n) =
      atBoundary ((t.take n).getLast?.or b') (t.drop n) := by
    intro n
    cases (t.take n).getLast? with
    | none => exact hbound _
    | some c => rfl
  unfold phrasePattern Pattern.wholeWords
  rw [hbound]
  simp only [hend]
  rfl

theorem phrasePattern_joint {ws : List Text} (hws : Phrase ws) {t : Text}
    (ht : (t.head?).all isJoint = true) (b : Option Char) : phrasePattern ws b t = none := by
  unfold phrasePattern Pattern.wholeWords Pattern.ofRest
  rw [dropPhrase?_joint hws ht]
  simp

theorem phrasePattern_barrier {ws : List Text} (hws : Phrase ws) {y : Text} (hy : Barrier y)
    (b : Option Char) {t : Text} (ht : t ≠ []) :
    phrasePattern ws b (t ++ y) = phrasePattern ws b t := by
  obtain ⟨c, t, rfl⟩ := List.exists_cons_of_ne_nil ht
  have hspace : wordAt y.head? = false := by
    obtain ⟨z, rfl, _⟩ := hy
    rfl
  have hbound : ∀ b : Option Char, ∀ u : Text, atBoundary b (u ++ y) = atBoundary b u := by
    intro b u
    cases u with
    | nil => rw [List.nil_append, atBoundary, atBoundary, hspace]; rfl
    | cons d u => rfl
  unfold phrasePattern Pattern.wholeWords Pattern.ofRest
  rw [hbound, dropPhrase?_barrier hws hy]
  cases dropPhrase? ws (c :: t) with
  | none => rfl
  | some rest =>
    -- the match ends before the barrier, so the same characters are taken
    have hlen : ((c :: t) ++ y).length - (rest ++ y).length = (c :: t).length - rest.length := by
      simp only [List.length_append]
      omega
    have hle : (c :: t).length - rest.length ≤ (c :: t).length := Nat.sub_le _ _
    simp only [Option.map_some, hlen, Option.filter_some, List.take_append_of_le_length hle,
      List.drop_append_of_le_length hle, hbound]

theorem phrasePattern_length {ws : List Text} {b : Option Char} {t : Text} {n : Nat}
    (h : phrasePattern ws b t = some n) : n ≤ t.length := by
  unfold phrasePattern Pattern.wholeWords Pattern.ofRest at h
  split at h
  · obtain ⟨hn, _⟩ := Option.filter_eq_some_iff.mp h
    obtain ⟨rest, _, rfl⟩ := Option.map_eq_some_iff.mp hn
    exact Nat.sub_le _ _
  · cases h

/-- The phrases in front of a barrier and behind it. -/
theorem weave_barrier {ws : List Text} (hws : Phrase ws) {y : Text} (hy : Barrier y) (x : Text) :
    (phrasePattern ws).weave (x ++ y) =
      ((phrasePattern ws).weave x).append ((phrasePattern ws).weave y) := by
  have hstart : (y.head?).all isJoint = true := by
    obtain ⟨z, rfl, _⟩ := hy
    rfl
  apply Pattern.weaveFrom_append (Nat.zero_le _)
  · exact phrasePattern_joint hws rfl
  · exact fun b s n _ hn => phrasePattern_length hn
  · exact fun b s _ hs => phrasePattern_barrier hws hy b hs
  · intro b b'
    rw [phrasePattern_joint hws hstart, phrasePattern_joint hws hstart]

/-- Blanks and colons in front are passed over. -/
theorem weave_joints {ws : List Text} (hws : Phrase ws) {x : Text} (hx : ∀ c ∈ x, isJoint c = true)
    (y : Text) :
    (phrasePattern ws).weave (x ++ y) = ((phrasePattern ws).weave y).prepend x := by
  have hword : wordAt (x.getLast?.or none) = wordAt none := by
    cases hc : x.getLast? with
    | none => rfl
    | some c =>
      rcases joint_cases (hx c (List.mem_of_getLast? hc)) with rfl | rfl <;> rfl
  rw [Pattern.weave, Pattern.weaveFrom_pass, Pattern.weaveFrom_before fun _ =>
    phrasePattern_before hword y]
  · rfl
  · intro u v hv hne
    obtain ⟨c, v, rfl⟩ := List.exists_cons_of_ne_nil hne
    have hc : ((c :: v ++ y).head?).all isJoint = true := hx c (by simp [hv])
    exact phrasePattern_joint hws hc _

theorem weave_nothing {ws : List Text} (hws : Phrase ws) :
    (phrasePattern ws).weave [] = ⟨[], []⟩ := by
  rw [Pattern.weave, Pattern.weaveFrom, phrasePattern_joint hws rfl]

theorem replace_joints {ws : List Text} (hws : Phrase ws) {x : Text}
    (hx : ∀ c ∈ x, isJoint c = true) (f : Text → Text) (y : Text) :
    (phrasePattern ws).replace f (x ++ y) = x ++ (phrasePattern ws).replace f y := by
  rw [Pattern.replace, weave_joints hws hx, Weave.replace, Weave.prepend, List.append_assoc]
  rfl

/-- What is left of a barrier without its phrases is one. -/
theorem Barrier.replace {ws : List Text} (hws : Phrase ws) {y : Text} (hy : Barrier y)
    (f : Text → Text) : Barrier ((phrasePattern ws).replace f y) := by
  obtain ⟨z, rfl, hz⟩ := hy
  cases z with
  | nil =>
    have hnil : (phrasePattern ws).replace f [] = [] := by
      rw [Pattern.replace, weave_nothing hws]
      rfl
    exact ⟨[], by rw [← hnil]; exact replace_joints hws (x := [' ']) (by decide) f [], rfl⟩
  | cons c z =>
    obtain rfl : c = ':' := by simpa using hz
    exact ⟨_, replace_joints hws (x := [' ', ':']) (by decide) f z, rfl⟩

/-! ## Counting before and behind -/

section Counting

variable {rs : List Rule}

theorem countRules_joints (hrs : ∀ r ∈ rs, Phrase (words r.phrase)) {x : Text}
    (hx : ∀ c ∈ x, isJoint c = true) (y : Text) :
    countRules rs 0 (x ++ y) = countRules rs 0 y := by
  induction rs generalizing y with
  | nil => rfl
  | cons r rs ih =>
    have hr := hrs r List.mem_cons_self
    have hcount : r.pattern.count (x ++ y) = r.pattern.count y := by
      rw [Pattern.count, Rule.pattern, weave_joints hr hx]
      rfl
    have hreplace : r.pattern.replace (fun _ => [' ']) (x ++ y) =
        x ++ r.pattern.replace (fun _ => [' ']) y := replace_joints hr hx _ y
    rw [countRules_cons, countRules_cons, hcount, hreplace,
      ih fun q hq => hrs q (List.mem_cons_of_mem _ hq)]

theorem countRules_nothing (hrs : ∀ r ∈ rs, Phrase (words r.phrase)) :
    countRules rs 0 [] = 0 := by
  induction rs with
  | nil => rfl
  | cons r rs ih =>
    have hweave : r.pattern.weave [] = ⟨[], []⟩ := weave_nothing (hrs r List.mem_cons_self)
    rw [countRules_cons, Pattern.count, Pattern.replace, hweave]
    show (0 : Shift).add r 0 + countRules rs 0 [] = 0
    rw [ih fun q hq => hrs q (List.mem_cons_of_mem _ hq), add_zero, Shift.add_none]

/-- The phrases before a barrier count, and those behind it. -/
theorem countRules_append (hrs : ∀ r ∈ rs, Phrase (words r.phrase)) (x : Text) {y : Text}
    (hy : Barrier y) : countRules rs 0 (x ++ y) = countRules rs 0 x + countRules rs 0 y := by
  induction rs generalizing x y with
  | nil => rfl
  | cons r rs ih =>
    have hr := hrs r List.mem_cons_self
    have hweave : r.pattern.weave (x ++ y) = (r.pattern.weave x).append (r.pattern.weave y) :=
      weave_barrier hr hy x
    have hcount : r.pattern.count (x ++ y) = r.pattern.count x + r.pattern.count y := by
      rw [Pattern.count, hweave, Weave.rest_append]
      rfl
    have hreplace : r.pattern.replace (fun _ => [' ']) (x ++ y) =
        r.pattern.replace (fun _ => [' ']) x ++ r.pattern.replace (fun _ => [' ']) y := by
      rw [Pattern.replace, hweave, Weave.replace_append]
      rfl
    have hleft : Barrier (r.pattern.replace (fun _ => [' ']) y) := hy.replace hr _
    rw [countRules_cons, countRules_cons, countRules_cons, hcount, hreplace, Shift.add_rule_add,
      ih (fun q hq => hrs q (List.mem_cons_of_mem _ hq)) _ hleft]
    exact add_add_add_comm ..

end Counting

/-! ## An If with its statement on the same line -/

/-- Between the two texts starts an If with a statement behind its Then on the same line. -/
def OneLineIf (before t : Text) : Prop :=
  (oneLineIfPattern before.getLast? t).isSome = true

instance (before t : Text) : Decidable (OneLineIf before t) :=
  inferInstanceAs (Decidable (_ = true))

theorem dropWord?_length {w t rest : Text} (h : dropWord? w t = some rest) :
    t.length = w.length + rest.length := by
  obtain ⟨s, rfl, hs⟩ := dropWord?_iff.mp h
  rw [List.length_append, hs.length_eq]

/-- No letter of a word is a blank. -/
def Solid (w : Text) : Prop :=
  ∀ l ∈ w, sameLetter l ' ' = false

instance (w : Text) : Decidable (Solid w) :=
  inferInstanceAs (Decidable (∀ l ∈ w, sameLetter l ' ' = false))

section Behind

variable {t y : Text} (hy : y.head? = some ' ')
include hy

theorem dropWord?_behind {w : Text} (hw : Solid w) :
    dropWord? w (t ++ y) = (dropWord? w t).map (· ++ y) := by
  obtain ⟨z, rfl⟩ := List.head?_eq_some_iff.mp hy
  exact dropWord?_stop hw t z

theorem wordHere_behind {w : Text} (hw : Solid w) (b : Option Char) (ht : t ≠ []) :
    wordHere w b (t ++ y) = wordHere w b t := by
  obtain ⟨c, t, rfl⟩ := List.exists_cons_of_ne_nil ht
  have hspace : wordAt y.head? = false := by rw [hy]; rfl
  rw [wordHere, wordHere, dropWord?_behind hy hw]
  cases hr : dropWord? w (c :: t) with
  | none => rfl
  | some rest =>
    cases rest with
    | nil => simp only [Option.map_some, List.nil_append, hspace]; rfl
    | cons d rest => rfl

/-- A statement behind a Then stays one with more behind it. -/
theorem endsAfterThen_behind (h : endsAfterThen t = false) : endsAfterThen (t ++ y) = false := by
  simp only [endsAfterThen, Bool.or_eq_false_iff, beq_eq_false_iff_ne, ne_eq] at h ⊢
  obtain ⟨⟨⟨hne, hnewline⟩, hremark⟩, hmarkup⟩ := h
  have hdrop : (t ++ y).dropWhile isBlank = t.dropWhile isBlank ++ y := by
    rw [List.dropWhile_append, if_neg (by simpa using hne)]
  obtain ⟨z, rfl⟩ := List.head?_eq_some_iff.mp hy
  have htoken : ∀ k : Kind, (dropWord? k.token (t.dropWhile isBlank)).isSome = false →
      (dropWord? k.token (t.dropWhile isBlank ++ ' ' :: z)).isSome = false := by
    intro k hk
    have hsolid : Solid k.token := by cases k <;> decide
    rw [dropWord?_behind hy hsolid, Option.isSome_map, hk]
  rw [hdrop]
  refine ⟨⟨⟨by simp, fun hone => ?_⟩, htoken _ hremark⟩, htoken _ hmarkup⟩
  have hlen := congrArg List.length hone
  have hpos := List.length_pos_iff.mpr hne
  simp at hlen
  omega

theorem hasThenStatement_behind {b : Option Char} (h : hasThenStatement b t = true) :
    hasThenStatement b (t ++ y) = true := by
  induction t generalizing b with
  | nil => cases h
  | cons c t ih =>
    have hthen : Solid "then".toList := by decide
    simp only [hasThenStatement, List.cons_append, Bool.or_eq_true, Bool.and_eq_true,
      Bool.not_eq_true'] at h ⊢
    rcases h with ⟨hword, hends⟩ | ⟨hc, hmore⟩
    · -- the word has its four letters before the text that was added
      have hlen : 3 ≤ t.length := by
        rw [wordHere, Bool.and_eq_true] at hword
        cases hr : dropWord? "then".toList (c :: t) with
        | none => rw [hr] at hword; exact absurd hword.2 Bool.false_ne_true
        | some rest =>
          have := dropWord?_length hr
          simp at this
          omega
      rw [List.drop_append_of_le_length hlen]
      exact .inl ⟨(wordHere_behind hy hthen b (List.cons_ne_nil c t)).trans hword,
        endsAfterThen_behind hy hends⟩
    · exact .inr ⟨hc, ih hmore⟩

theorem OneLineIf.behind {p : Text} (h : OneLineIf p t) : OneLineIf p (t ++ y) := by
  have hif : Solid "if".toList := by decide
  unfold OneLineIf oneLineIfPattern at h ⊢
  split at h
  · rename_i hhere
    obtain ⟨hword, hstatement⟩ := Bool.and_eq_true_iff.mp hhere
    cases t with
    | nil => exact absurd hstatement Bool.false_ne_true
    | cons c t =>
      have hword := (wordHere_behind hy hif p.getLast? (List.cons_ne_nil c t)).trans hword
      have hstatement : hasThenStatement (some c) (t ++ y) = true :=
        hasThenStatement_behind hy hstatement
      rw [if_pos (by rw [hword]; exact hstatement)]
      rfl
  · cases h

end Behind

theorem oneLineIfPattern_before {b b' : Option Char} (h : wordAt b = wordAt b') (t : Text) :
    oneLineIfPattern b t = oneLineIfPattern b' t := by
  rw [oneLineIfPattern, oneLineIfPattern, wordHere, wordHere, atBoundary, atBoundary, h]

/-- No such If starts where a text is parted, from the places up to there. -/
theorem not_oneLineIf_of_take {x y : Text} {m : Nat}
    (h : ∀ n < m, ¬ OneLineIf (x.take n) (x.drop n ++ y)) {u v : Text} (hx : x = u ++ v)
    (hu : u.length < m) : ¬ OneLineIf u (v ++ y) := by
  subst hx
  have hhere := h u.length hu
  rwa [List.take_left, List.drop_left] at hhere

/-- A text in which no such If starts is passed over. -/
theorem weaveFrom_quiet {x y : Text} (h : ∀ u v, x = u ++ v → v ≠ [] → ¬ OneLineIf u (v ++ y)) :
    oneLineIfPattern.weave (x ++ y) =
      (oneLineIfPattern.weaveFrom 0 x.getLast? y).prepend x := by
  rw [Pattern.weave, Pattern.weaveFrom_pass, Option.or_none]
  intro u v hx hv
  rw [Option.or_none]
  exact Option.not_isSome_iff_eq_none.mp (h u v hx hv)

/-- No If starts between the statements. -/
theorem weaveFrom_joint (b : Option Char) (t : Text) :
    oneLineIfPattern.weaveFrom 0 b (" : ".toList ++ t) =
      (oneLineIfPattern.weave t).prepend " : ".toList := by
  have hstart : oneLineIfPattern.weaveFrom 0 (some ' ') t = oneLineIfPattern.weave t :=
    Pattern.weaveFrom_before fun _ => oneLineIfPattern_before rfl t
  rw [← hstart]
  apply Pattern.weaveFrom_pass
  intro u v hx hv
  have hjoint : ∀ c ∈ v, isJoint c = true := by
    have hall : ∀ c ∈ " : ".toList, isJoint c = true := by decide
    exact fun c hc => hall c (by rw [hx]; exact List.mem_append_right u hc)
  obtain ⟨c, v, rfl⟩ := List.exists_cons_of_ne_nil hv
  have hletter : ∀ d, isJoint d = true → sameLetter 'i' d = false := by
    intro d hd
    rcases joint_cases hd with rfl | rfl <;> rfl
  have hword : dropWord? "if".toList (c :: v ++ t) = none := by
    show (if sameLetter 'i' c then dropWord? ['f'] (v ++ t) else none) = none
    rw [hletter c (hjoint c List.mem_cons_self), if_neg Bool.false_ne_true]
  rw [oneLineIfPattern, wordHere, hword, Bool.and_false, Bool.false_and,
    if_neg Bool.false_ne_true]

theorem oneLineIfPattern_nil (b : Option Char) : oneLineIfPattern b [] = none := by
  rw [oneLineIfPattern, List.drop_nil, List.head?_nil, hasThenStatement, Bool.and_false,
    if_neg Bool.false_ne_true]

theorem firstLine_eq_self {t : Text} (h : '\n' ∉ t) : firstLine t = t := by
  have hall : ∀ c ∈ t, (c != '\n') = true := fun c hc => bne_iff_ne.mpr fun heq => h (heq ▸ hc)
  rw [firstLine, ← List.append_nil t, List.takeWhile_append_of_pos hall, List.takeWhile_nil]

/-- The first such If takes the rest of its line. -/
theorem weaveFrom_oneLineIf {p t : Text} (h : OneLineIf p t) (ht : '\n' ∉ t) :
    oneLineIfPattern.weaveFrom 0 p.getLast? t = ⟨[], [(t, [])]⟩ := by
  have hpattern : oneLineIfPattern p.getLast? t = some t.length := by
    obtain ⟨n, hn⟩ := Option.isSome_iff_exists.mp h
    rw [oneLineIfPattern] at hn ⊢
    split at hn
    · rename_i hhere
      rw [if_pos hhere, firstLine_eq_self ht]
    · cases hn
  cases t with
  | nil => rw [oneLineIfPattern_nil] at hpattern; cases hpattern
  | cons c t =>
    -- all that is left is behind the match, and there is nothing behind it
    have hrest := Pattern.weaveFrom_behind (p := oneLineIfPattern) (some c) t []
    rw [List.append_nil, Pattern.weaveFrom, oneLineIfPattern_nil] at hrest
    rw [Pattern.weaveFrom, hpattern]
    show (Pattern.weaveFrom oneLineIfPattern t.length (some c) t).pushHit (c :: t.take t.length) = _
    rw [hrest, List.take_length]
    rfl

/-! ## Two statements on one line -/

/-- Two statements on one line shift the depth by the sum of their shifts, unless an If of the first
has a statement behind its Then on the joined line: the first such If takes the rest of the line out
of the count, the second statement with it. -/
theorem shiftOf_joined (a b : Text) :
    ((∀ p q, a = p ++ q → ¬ OneLineIf p (q ++ (" : ".toList ++ b))) →
      shiftOf (a ++ (" : ".toList ++ b)) = shiftOf a + shiftOf b) ∧
    ∀ p q, a = p ++ q → '\n' ∉ q ++ b → OneLineIf p (q ++ (" : ".toList ++ b)) →
      (∀ u v, p = u ++ v → v ≠ [] → ¬ OneLineIf u (v ++ (q ++ (" : ".toList ++ b)))) →
      shiftOf (a ++ (" : ".toList ++ b)) = countRules rules .zero p := by
  constructor
  · intro hquiet
    have hjoined : oneLineIfPattern.replace (fun _ => [' ']) (a ++ (" : ".toList ++ b)) =
        a ++ (" : ".toList ++ oneLineIfPattern.replace (fun _ => [' ']) b) := by
      rw [Pattern.replace, weaveFrom_quiet fun u v ha _ => hquiet u v ha, weaveFrom_joint]
      simp [Weave.prepend, Weave.replace, Pattern.replace]
    have hfirst : oneLineIfPattern.replace (fun _ => [' ']) a = a := by
      -- an If that has its statement in the first text has it on the joined line too
      have halone := weaveFrom_quiet (x := a) (y := []) fun u v ha _ hif =>
        hquiet u v ha (by rw [List.append_nil] at hif; exact hif.behind rfl)
      rw [List.append_nil] at halone
      rw [Pattern.replace, halone, Pattern.weaveFrom, oneLineIfPattern_nil]
      simp [Weave.prepend, Weave.replace]
    have hbarrier : ∀ t, Barrier (" : ".toList ++ t) := fun t => ⟨':' :: ' ' :: t, rfl, rfl⟩
    have hjoint : ∀ c ∈ " : ".toList, isJoint c = true := by decide
    calc shiftOf (a ++ (" : ".toList ++ b))
        = countRules rules 0
            (a ++ (" : ".toList ++ oneLineIfPattern.replace (fun _ => [' ']) b)) :=
          congrArg (countRules rules 0) hjoined
      _ = countRules rules 0 a + countRules rules 0
            (" : ".toList ++ oneLineIfPattern.replace (fun _ => [' ']) b) :=
          countRules_append phrase_rules a (hbarrier _)
      _ = countRules rules 0 a + shiftOf b :=
          congrArg (countRules rules 0 a + ·) (countRules_joints phrase_rules hjoint _)
      _ = shiftOf a + shiftOf b :=
          congrArg (· + shiftOf b) (congrArg (countRules rules 0) hfirst.symm)
  · rintro p q rfl hline hif hfirst
    have hline : '\n' ∉ q ++ (" : ".toList ++ b) := by simpa using hline
    have hjoined : oneLineIfPattern.replace (fun _ => [' ']) (p ++ q ++ (" : ".toList ++ b)) =
        p ++ [' '] := by
      rw [List.append_assoc, Pattern.replace, weaveFrom_quiet hfirst,
        weaveFrom_oneLineIf hif hline]
      simp [Weave.prepend, Weave.replace]
    -- the If and the rest of its line leave one space
    have hspace : countRules rules 0 [' '] = 0 :=
      (countRules_joints phrase_rules (x := [' ']) (by decide) []).trans
        (countRules_nothing phrase_rules)
    calc shiftOf (p ++ q ++ (" : ".toList ++ b))
        = countRules rules 0 (p ++ [' ']) := congrArg (countRules rules 0) hjoined
      _ = countRules rules 0 p + countRules rules 0 [' '] :=
          countRules_append phrase_rules p ⟨[], rfl, rfl⟩
      _ = countRules rules .zero p := by rw [hspace, add_zero]; rfl

theorem shiftOf_joined_endIf :
    shiftOf "End If : Wend".toList = shiftOf "End If".toList + shiftOf "Wend".toList ∧
      shiftOf "Next : If x Then y : Wend".toList = countRules rules .zero "Next : ".toList := by
  have hquiet : ∀ n < 7, ¬ OneLineIf ("End If".toList.take n)
      ("End If".toList.drop n ++ (" : ".toList ++ "Wend".toList)) := by
    decide
  have hfirst : ∀ n < 7, ¬ OneLineIf ("Next : ".toList.take n) ("Next : ".toList.drop n ++
      ("If x Then y".toList ++ (" : ".toList ++ "Wend".toList))) := by
    decide
  refine ⟨(shiftOf_joined "End If".toList "Wend".toList).1 fun p q ha => ?_,
    (shiftOf_joined "Next : If x Then y".toList "Wend".toList).2 "Next : ".toList
      "If x Then y".toList rfl (by decide) (by decide) fun u v hp hv => ?_⟩
  · have hlength := congrArg List.length ha
    simp at hlength
    exact not_oneLineIf_of_take hquiet ha (by omega)
  · have hlength := congrArg List.length hp
    have hpos := List.length_pos_iff.mpr hv
    simp at hlength
    exact not_oneLineIf_of_take hfirst hp (by omega)

/-- The only If of the first text ends a block, and the shifts still do not add up: with the Then of
the second text it is taken for an If with a statement on its line. -/
theorem endIf_hides_rest :
    (phrasePattern ["if".toList]).count "End If".toList =
        (phrasePattern ["end".toList, "if".toList]).count "End If".toList ∧
      shiftOf "End If".toList + shiftOf "If x Then y".toList = ⟨-1, 0⟩ ∧
      shiftOf "End If : If x Then y".toList = ⟨0, 0⟩ := by
  decide

end VbTidy
