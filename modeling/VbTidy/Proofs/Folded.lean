import VbTidy.Proofs.Unstyled

/-
Decisions that do not depend on letter case. All that the layout of a line is taken from (the block
keywords, the statement behind a Then, the declaration of a procedure, the target of an assignment)
looks at letters in any case, so it may as well look at the line with its keywords in one case.
-/
namespace VbTidy

/-- A text with its keywords in one letter case. -/
def folded (t : Text) : Text :=
  t.map anyCase

@[simp] theorem folded_nil : folded [] = [] := rfl

@[simp] theorem folded_cons (c : Char) (t : Text) : folded (c :: t) = anyCase c :: folded t := rfl

@[simp] theorem folded_append (s t : Text) : folded (s ++ t) = folded s ++ folded t :=
  List.map_append

@[simp] theorem length_folded (t : Text) : (folded t).length = t.length :=
  List.length_map _

@[simp] theorem head?_folded (t : Text) : (folded t).head? = t.head?.map anyCase := by
  cases t <;> rfl

theorem folded_take (n : Nat) (t : Text) : (folded t).take n = folded (t.take n) :=
  List.map_take.symm

theorem folded_drop (n : Nat) (t : Text) : (folded t).drop n = folded (t.drop n) :=
  List.map_drop.symm

theorem folded_reverse (t : Text) : folded t.reverse = (folded t).reverse :=
  List.map_reverse

theorem folded_dropWhile {p : Char → Bool} (hp : ∀ c, p (anyCase c) = p c) (t : Text) :
    (folded t).dropWhile p = folded (t.dropWhile p) := by
  have hcomp : p ∘ anyCase = p := funext hp
  rw [folded, List.dropWhile_map, hcomp]
  rfl

theorem folded_dropEnd {p : Char → Bool} (hp : ∀ c, p (anyCase c) = p c) (t : Text) :
    dropEnd p (folded t) = folded (dropEnd p t) := by
  rw [dropEnd, dropEnd, folded_reverse, ← folded_dropWhile hp, folded_reverse]

theorem folded_takeWhile {p : Char → Bool} (hp : ∀ c, p (anyCase c) = p c) (t : Text) :
    (folded t).takeWhile p = folded (t.takeWhile p) := by
  have hcomp : p ∘ anyCase = p := funext hp
  rw [folded, List.takeWhile_map, hcomp]
  rfl

/-! ## Words -/

theorem beq_anyCase {d : Char} (hd : isWord d = false) (c : Char) :
    (anyCase c == d) = (c == d) := by
  rw [Bool.eq_iff_iff, beq_iff_eq, beq_iff_eq, anyCase_eq_iff hd]

/-- A text of ASCII characters. -/
def Ascii (w : Text) : Prop :=
  ∀ c ∈ w, c.toNat < 0x80

instance (w : Text) : Decidable (Ascii w) :=
  inferInstanceAs (Decidable (∀ c ∈ w, c.toNat < 0x80))

theorem sameLetter_anyCase {w : Char} (hw : w.toNat < 0x80) (c : Char) :
    sameLetter w (anyCase c) = sameLetter w c := by
  unfold anyCase
  split
  · next hname =>
    have hd := isNameChar_toNat hname
    have hlow : (lowerChar c).toLower = lowerChar c := by
      have := lowerChar_nameChar hname
      rwa [lowerChar, if_pos (by omega)] at this
    rw [sameLetter, if_pos (by simp [hw]; omega), hlow]
    by_cases hc : c.toNat < 0x80
    · rw [sameLetter, if_pos (by simp [hw, hc]), lowerChar, if_pos hc]
    · -- The kin of an ASCII letter are beyond ASCII, and the letter meant here is not.
      have hkin : ∀ n < 0x80, ∀ m ∈ (letterKin.lookup n).getD [], 0x80 ≤ m := by decide
      have hw' : lowerChar w = w.toLower := by rw [lowerChar, if_pos hw]
      have hwlt : w.toLower.toNat < 0x80 := by
        have hall : ∀ c : Char, c.toNat < 0x80 → c.toLower.toNat < 0x80 := of_ascii (by decide)
        exact hall w hw
      have hnot : (lowerChar c).toNat ∉ (letterKin.lookup w.toLower.toNat).getD [] := by
        intro hmem
        have := hkin _ hwlt _ hmem
        omega
      rw [sameLetter, if_neg (by simp [hc]), hw', List.contains_cons]
      have hcontains : ((letterKin.lookup w.toLower.toNat).getD []).contains (lowerChar c).toNat =
          false := by
        simpa using hnot
      rw [hcontains, Bool.or_false, Bool.eq_iff_iff, beq_iff_eq, beq_iff_eq, Char.toNat_inj,
        eq_comm]
  · rfl

theorem dropWord?_folded {w : Text} (hw : Ascii w) (t : Text) :
    dropWord? w (folded t) = (dropWord? w t).map folded := by
  induction w generalizing t with
  | nil => rfl
  | cons l w ih =>
    cases t with
    | nil => rfl
    | cons c t =>
      rw [folded_cons, dropWord?, dropWord?, sameLetter_anyCase (hw l List.mem_cons_self)]
      split
      · exact ih (fun c hc => hw c (List.mem_cons_of_mem _ hc)) t
      · rfl

theorem wordAt_folded (o : Option Char) : wordAt (o.map anyCase) = wordAt o := by
  cases o with
  | none => rfl
  | some c => exact isWord_anyCase c

theorem atBoundary_folded (o : Option Char) (t : Text) :
    atBoundary (o.map anyCase) (folded t) = atBoundary o t := by
  rw [atBoundary, atBoundary, wordAt_folded, head?_folded, wordAt_folded]

theorem wordHere_folded {w : Text} (hw : Ascii w) (o : Option Char) (t : Text) :
    wordHere w (o.map anyCase) (folded t) = wordHere w o t := by
  rw [wordHere, wordHere, atBoundary_folded, dropWord?_folded hw]
  cases dropWord? w t with
  | none => rfl
  | some rest =>
    show (_ && !wordAt (folded rest).head?) = _
    rw [head?_folded, wordAt_folded]

theorem dropPhrase?_folded {ws : List Text} (hws : ∀ w ∈ ws, Ascii w) (t : Text) :
    dropPhrase? ws (folded t) = (dropPhrase? ws t).map folded := by
  induction ws generalizing t with
  | nil => rfl
  | cons w ws ih =>
    cases ws with
    | nil => exact dropWord?_folded (hws w List.mem_cons_self) t
    | cons v ws =>
      rw [dropPhrase?, dropPhrase?, dropWord?_folded (hws w List.mem_cons_self)]
      · cases dropWord? w t with
        | none => rfl
        | some rest =>
          cases rest with
          | nil => rfl
          | cons c rest =>
            rw [Option.map_some, folded_cons]
            simp only [isSpace_anyCase]
            split
            · rw [folded_dropWhile isSpace_anyCase]
              exact ih (fun u hu => hws u (List.mem_cons_of_mem _ hu)) _
            · rfl
      · simp
      · simp

/-! ## Signs -/

theorem mem_folded {d : Char} (hd : isWord d = false) {t : Text} : d ∈ folded t ↔ d ∈ t := by
  constructor
  · intro h
    obtain ⟨c, hc, hcase⟩ := List.mem_map.mp h
    rwa [(anyCase_eq_iff hd).mp hcase] at hc
  · intro h
    exact List.mem_map.mpr ⟨d, h, anyCase_of_not_word hd⟩

/-- A sign stands at the same places in texts that differ in letter case. -/
theorem folded_eq_append_cons {d : Char} (hd : isWord d = false) {t a b : Text}
    (h : folded t = folded (a ++ d :: b)) :
    ∃ a' b', t = a' ++ d :: b' ∧ folded a' = folded a ∧ folded b' = folded b := by
  rw [folded_append, folded_cons, anyCase_of_not_word hd] at h
  obtain ⟨a', r, rfl, ha, hr⟩ := List.map_eq_append_iff.mp h
  obtain ⟨c, b', rfl, hc, hb⟩ := List.map_eq_cons_iff.mp hr
  obtain rfl := (anyCase_eq_iff hd).mp hc
  exact ⟨a', b', rfl, ha, hb⟩

/-! ## Patterns -/

/-- A weave with its keywords in one letter case. -/
def Weave.fold (w : Weave) : Weave :=
  ⟨folded w.head, w.rest.map fun p => (folded p.1, folded p.2)⟩

/-- A pattern that does not depend on letter case. -/
def Pattern.Folds (p : Pattern) : Prop :=
  ∀ o t, p (o.map anyCase) (folded t) = p o t

namespace Pattern.Folds
variable {p : Pattern}

theorem weaveFrom (hp : p.Folds) (skip : Nat) (o : Option Char) (t : Text) :
    p.weaveFrom skip (o.map anyCase) (folded t) = (p.weaveFrom skip o t).fold := by
  induction t generalizing skip o with
  | nil =>
    cases skip with
    | zero =>
      have h := hp o []
      rw [folded_nil] at h ⊢
      rw [Pattern.weaveFrom, Pattern.weaveFrom, h]
      split <;> rfl
    | succ n => rfl
  | cons c t ih =>
    have htail : ∀ n, p.weaveFrom n (some (anyCase c)) (folded t) =
        (p.weaveFrom n (some c) t).fold := fun n => ih n (some c)
    cases skip with
    | succ n => exact htail n
    | zero =>
      have h := hp o (c :: t)
      rw [folded_cons] at h ⊢
      rw [Pattern.weaveFrom, Pattern.weaveFrom, h]
      split
      · rw [htail]
        rfl
      · rw [htail]
        rfl
      · rw [htail, folded_take]
        rfl

theorem weave (hp : p.Folds) (t : Text) : p.weave (folded t) = (p.weave t).fold :=
  hp.weaveFrom 0 none t

theorem ofRest {f : Text → Option Text} (hf : ∀ t, f (folded t) = (f t).map folded) :
    (Pattern.ofRest f).Folds := by
  intro o t
  rw [Pattern.ofRest, Pattern.ofRest, hf]
  cases f t with
  | none => rfl
  | some rest => simp

theorem wholeWords (hp : p.Folds) : p.wholeWords.Folds := by
  intro o t
  rw [Pattern.wholeWords, Pattern.wholeWords, atBoundary_folded, hp]
  have hend : ∀ n, atBoundary (((folded t).take n).getLast?.or (o.map anyCase))
      ((folded t).drop n) = atBoundary ((t.take n).getLast?.or o) (t.drop n) := by
    intro n
    have hlast : ((folded t).take n).getLast?.or (o.map anyCase) =
        ((t.take n).getLast?.or o).map anyCase := by
      rw [folded_take, folded, List.getLast?_map]
      cases (t.take n).getLast? <;> rfl
    rw [hlast, folded_drop, atBoundary_folded]
  simp only [hend]

end Pattern.Folds

theorem folded_replace (w : Weave) :
    w.fold.replace (fun _ => [' ']) = folded (w.replace fun _ => [' ']) := by
  obtain ⟨head, rest⟩ := w
  rw [Weave.fold, Weave.replace, Weave.replace, folded_append]
  congr 1
  induction rest with
  | nil => rfl
  | cons p rest ih =>
    rw [List.map_cons, List.flatMap_cons, ih, List.flatMap_cons, folded_append, folded_append]
    rfl

/-! ## Block keywords -/

theorem ascii_rules : ∀ r ∈ rules, ∀ w ∈ words r.phrase, Ascii w := by
  decide

theorem countRules_folded {rs : List Rule} (hrs : ∀ r ∈ rs, ∀ w ∈ words r.phrase, Ascii w)
    (s : Shift) (t : Text) : countRules rs s (folded t) = countRules rs s t := by
  induction rs generalizing s t with
  | nil => rfl
  | cons r rs ih =>
    have hr : r.pattern.Folds :=
      (Pattern.Folds.ofRest (dropPhrase?_folded (hrs r List.mem_cons_self))).wholeWords
    rw [countRules, countRules, hr.weave, folded_replace]
    rw [ih fun q hq => hrs q (List.mem_cons_of_mem _ hq)]
    simp [Weave.fold]

theorem endsAfterThen_folded (t : Text) : endsAfterThen (folded t) = endsAfterThen t := by
  have hnewline : ∀ u : Text, (folded u == ['\n']) = (u == ['\n']) := by
    intro u
    rw [Bool.eq_iff_iff, beq_iff_eq, beq_iff_eq]
    constructor
    · intro h
      obtain ⟨c, rfl, hc⟩ := List.map_eq_singleton_iff.mp h
      rw [(anyCase_eq_iff (by decide)).mp hc]
    · rintro rfl
      rfl
  have hnil : ∀ u : Text, (folded u == []) = (u == []) := by
    intro u
    cases u <;> rfl
  rw [endsAfterThen, endsAfterThen]
  simp only [folded_dropWhile isBlank_anyCase, hnil, hnewline]
  rw [dropWord?_folded (by decide), dropWord?_folded (by decide), Option.isSome_map,
    Option.isSome_map]

theorem hasThenStatement_folded (o : Option Char) (t : Text) :
    hasThenStatement (o.map anyCase) (folded t) = hasThenStatement o t := by
  induction t generalizing o with
  | nil => rfl
  | cons c t ih =>
    have htail : hasThenStatement (some (anyCase c)) (folded t) = hasThenStatement (some c) t :=
      ih (some c)
    rw [folded_cons, hasThenStatement, hasThenStatement, htail, bne, bne, beq_anyCase (by decide),
      ← folded_cons, wordHere_folded (by decide), folded_drop, endsAfterThen_folded]

theorem folds_oneLineIf : oneLineIfPattern.Folds := by
  intro o t
  have hline : (firstLine (folded t)).length = (firstLine t).length := by
    rw [firstLine, firstLine, folded_takeWhile fun c => by rw [bne, bne, beq_anyCase (by decide)],
      length_folded]
  rw [oneLineIfPattern, oneLineIfPattern, wordHere_folded (by decide), head?_folded, folded_drop,
    hasThenStatement_folded, hline]

/-- The depth of what follows a line does not depend on letter case. -/
theorem shiftOf_folded (t : Text) : shiftOf (folded t) = shiftOf t := by
  rw [shiftOf, shiftOf, Pattern.replace, folds_oneLineIf.weave, folded_replace,
    countRules_folded ascii_rules]
  rfl

/-! ## Procedures and assignments -/

theorem dropWordSpace?_folded {w : Text} (hw : Ascii w) (t : Text) :
    dropWordSpace? w (folded t) = (dropWordSpace? w t).map folded := by
  rw [dropWordSpace?, dropWordSpace?, dropWord?_folded hw]
  cases dropWord? w t with
  | none => rfl
  | some rest =>
    cases rest with
    | nil => rfl
    | cons c rest =>
      rw [Option.map_some, folded_cons]
      simp only [isSpace_anyCase]
      split
      · rw [folded_dropWhile isSpace_anyCase]
        rfl
      · rfl

theorem declaresProcedure_folded (t : Text) :
    declaresProcedure (folded t) = declaresProcedure t := by
  have hword : ∀ u, declaresProcedure.procedureWord (folded u) =
      declaresProcedure.procedureWord u := by
    intro u
    have hfunction := wordHere_folded (w := "function".toList) (by decide) none u
    have hsub := wordHere_folded (w := "sub".toList) (by decide) none u
    rw [Option.map_none] at hfunction hsub
    rw [declaresProcedure.procedureWord, declaresProcedure.procedureWord, hfunction, hsub]
  rw [declaresProcedure, declaresProcedure, hword, dropWordSpace?_folded (by decide),
    dropWordSpace?_folded (by decide), ← Option.map_or]
  cases (dropWordSpace? "public".toList t).or (dropWordSpace? "private".toList t) with
  | none => rfl
  | some u =>
    rw [Option.map_some]
    simp only [hword, dropWordSpace?_folded (w := "default".toList) (by decide)]
    cases dropWordSpace? "default".toList u with
    | none => rfl
    | some v => simp [hword]

theorem isSome_dropTarget?_folded (t : Text) :
    (dropTarget? (folded t)).isSome = (dropTarget? t).isSome := by
  have hclass : (folded t).dropWhile (fun c => !isSpace c && c != '=') =
      folded (t.dropWhile fun c => !isSpace c && c != '=') :=
    folded_dropWhile (fun c => by rw [isSpace_anyCase, bne, bne, beq_anyCase (by decide)]) t
  rw [dropTarget?, dropTarget?, hclass]
  simp only [length_folded, folded_dropWhile isBlank_anyCase]
  generalize (t.dropWhile fun c => !isSpace c && c != '=').dropWhile isBlank = u
  split
  · cases u with
    | nil => rfl
    | cons c u =>
      by_cases hc : c = '='
      · subst hc
        rfl
      · have hc' : anyCase c ≠ '=' := fun h => hc ((anyCase_eq_iff (by decide)).mp h)
        rw [folded_cons]
        simp [hc, hc']
  · rfl

theorem isAssignment_folded (t : Text) : isAssignment (folded t) = isAssignment t := by
  have hnul : ∀ u : Text, ((folded u).head? != some '\x00') = (u.head? != some '\x00') := by
    intro u
    cases u with
    | nil => rfl
    | cons c u =>
      show (!(some (anyCase c) == some '\x00')) = !(some c == some '\x00')
      rw [Option.some_beq_some, Option.some_beq_some, beq_anyCase (by decide)]
  have hset : ∀ u : Text, isAssignment.afterSet (folded u) = isAssignment.afterSet u := by
    intro u
    rw [isAssignment.afterSet, isAssignment.afterSet, dropWord?_folded (by decide)]
    cases dropWord? "set".toList u with
    | none => rfl
    | some rest =>
      cases rest with
      | nil => rfl
      | cons c rest =>
        show (isBlank (anyCase c) && (dropTarget? ((folded rest).dropWhile isBlank)).isSome) = _
        rw [isBlank_anyCase, folded_dropWhile isBlank_anyCase, isSome_dropTarget?_folded]
  rw [isAssignment, isAssignment]
  simp only [folded_dropWhile isBlank_anyCase, hnul, hset, isSome_dropTarget?_folded]

end VbTidy
