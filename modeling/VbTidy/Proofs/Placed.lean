import Mathlib.Data.List.TakeWhile
import VbTidy.Proofs.Joined
import VbTidy.Proofs.Runs
import VbTidy.Proofs.Aligned

/-
The sign that a pass of alignment moves, on a single line. Whatever the line holds, the sign of an
assignment is its first equals sign and that of a comment the first place that looks like its token,
and a line whose sign was moved has its sign where it was moved to (`Steady`): spaces in front of it
make no assignment another line, hide no token and make none. Nothing is asked of the line, so that
a token in front of a word or without its end is moved like any other.
-/
namespace VbTidy

/-- A pass of alignment as a line sees it: the marker, the sign that comes to the column, what is
kept of the text in front of the sign, and how many spaces stand between them at least. -/
structure Aligner where
  marker : Marker
  sign : Text
  kept : Text → Text
  lead : Nat

/-- Equals signs are moved, and all in front of them is kept. -/
def equalsAligner : Aligner :=
  ⟨assignmentMarker, ['='], id, 0⟩

/-- Comments are moved, and of what is in front of them the white space at the end is not kept. -/
def remarkAligner : Aligner :=
  ⟨remarkMarker, Kind.remark.token, dropEnd isSpace, 1⟩

namespace Aligner

/-- The text in front of a sign after it was moved by a number of columns. -/
def front (p : Aligner) (x : Text) (n : Nat) : Text :=
  p.kept x ++ List.replicate (n + p.lead) ' '

/-- The place of the sign on a line that has one to be moved. -/
def place (p : Aligner) (line : Text) : Option Nat :=
  (p.marker.cut line).bind fun _ => find? p.sign line

/-- The first sign of a line stands between two texts and is one to be moved. -/
structure Marks (p : Aligner) (x b : Text) : Prop where
  first : find? p.sign (x ++ (p.sign ++ b)) = some x.length
  cut : p.marker.cut (x ++ (p.sign ++ b)) = some (p.kept x).length

/-- What moving a sign rests on: only white space is not kept, the sign stands where it was moved to,
and what is kept there is what was kept before with no more spaces than it was moved by. -/
structure Steady (p : Aligner) : Prop where
  split : ∀ x, ∃ gap, x = p.kept x ++ gap ∧ ∀ c ∈ gap, isSpace c = true
  kept_front : ∀ x n, ∃ k ≤ n, p.kept (p.front x n) = p.kept x ++ List.replicate k ' '
  marks : ∀ {line cut}, p.marker.cut line = some cut →
    ∃ x b, line = x ++ (p.sign ++ b) ∧ p.Marks x b
  shift : ∀ x b n, p.marker.shift (p.kept x).length n (x ++ (p.sign ++ b)) =
    p.front x n ++ (p.sign ++ b)
  marks_front : ∀ {x b}, p.Marks x b → ∀ n, p.Marks (p.front x n) b
  not_gap : ∀ {x b}, p.Marks x b → isGap (x ++ (p.sign ++ b)) = false

theorem Marks.place_eq {p : Aligner} {x b : Text} (h : p.Marks x b) :
    p.place (x ++ (p.sign ++ b)) = some x.length := by
  rw [place, h.cut]
  exact h.first

end Aligner

/-! ## Assignments -/

theorem dropWhile_append_more {p : Char → Bool} {y : Text} (h : y.dropWhile p ≠ []) (z : Text) :
    (y ++ z).dropWhile p = y.dropWhile p ++ z := by
  rw [List.dropWhile_append, if_neg (by simpa using h)]

/-- The characters of the target of an assignment. -/
def isTarget (c : Char) : Bool :=
  !isSpace c && c != '='

/-- A target is left behind up to the first equals sign if there is one and only blanks follow. -/
theorem dropTarget?_equals {y : Text} (hy : '=' ∉ y) (b : Text) :
    (dropTarget? (y ++ '=' :: b)).isSome = true ↔
      (y.dropWhile isTarget).length < y.length ∧ ∀ c ∈ y.dropWhile isTarget, isBlank c = true := by
  have htarget : (y ++ '=' :: b).dropWhile (fun c => !isSpace c && c != '=') =
      y.dropWhile isTarget ++ '=' :: b := dropWhile_cut rfl y b
  have hblanks : (y.dropWhile isTarget ++ '=' :: b).dropWhile isBlank =
      (y.dropWhile isTarget).dropWhile isBlank ++ '=' :: b := dropWhile_cut rfl _ b
  have hlen : (y.dropWhile isTarget ++ '=' :: b).length < (y ++ '=' :: b).length ↔
      (y.dropWhile isTarget).length < y.length := by
    rw [List.length_append, List.length_append]
    omega
  have hall : (∀ c ∈ y.dropWhile isTarget, isBlank c = true) ↔
      (y.dropWhile isTarget).dropWhile isBlank = [] := List.dropWhile_eq_nil_iff.symm
  rw [dropTarget?]
  simp only [htarget, hblanks, hlen, hall]
  split
  · next hshort =>
    cases hrest : (y.dropWhile isTarget).dropWhile isBlank with
    | nil => simp [hshort]
    | cons c u =>
      -- something else stands between the target and the sign
      have hc : c ∈ y := by
        have hmem : c ∈ (y.dropWhile isTarget).dropWhile isBlank := hrest ▸ List.mem_cons_self
        exact (List.dropWhile_sublist _).subset ((List.dropWhile_sublist _).subset hmem)
      have hne : c ≠ '=' := fun e => hy (e ▸ hc)
      simp [hne]
  · next hshort => simp [hshort]

theorem dropTarget?_spaces {y b : Text} (hy : '=' ∉ y) (n : Nat)
    (h : (dropTarget? (y ++ '=' :: b)).isSome = true) :
    (dropTarget? ((y ++ List.replicate n ' ') ++ '=' :: b)).isSome = true := by
  rw [dropTarget?_equals hy] at h
  have hfree : '=' ∉ y ++ List.replicate n ' ' := by
    rw [List.mem_append, not_or]
    exact ⟨hy, fun hmem => absurd (List.eq_of_mem_replicate hmem) (by decide)⟩
  have hdrop : (y ++ List.replicate n ' ').dropWhile isTarget =
      y.dropWhile isTarget ++ List.replicate n ' ' := by
    cases n with
    | zero => simp
    | succ n => exact dropWhile_cut rfl y _
  rw [dropTarget?_equals hfree, hdrop, List.length_append, List.length_append]
  refine ⟨by omega, fun c hc => ?_⟩
  rcases List.mem_append.mp hc with hc | hc
  · exact h.2 c hc
  · rw [List.eq_of_mem_replicate hc]
    rfl

/-- Without a target in front of it an equals sign is none of an assignment. -/
theorem dropTarget?_bare (b : Text) : dropTarget? ('=' :: b) = none := by
  simp [dropTarget?]

theorem dropWord?_set {z : Text} (u : Text) :
    dropWord? "set".toList (z ++ '=' :: u) =
      (dropWord? "set".toList z).map (· ++ '=' :: u) :=
  dropWord?_stop (by decide) z u

theorem dropWord?_longer {w t rest : Text} (h : dropWord? w t = some rest) (u : Text) :
    dropWord? w (t ++ u) = some (rest ++ u) := by
  obtain ⟨s, rfl, hs⟩ := dropWord?_iff.mp h
  exact dropWord?_iff.mpr ⟨s, List.append_assoc s rest u, hs⟩

theorem afterSet_spaces {z b : Text} (hz : '=' ∉ z) (n : Nat)
    (h : isAssignment.afterSet (z ++ '=' :: b) = true) :
    isAssignment.afterSet ((z ++ List.replicate n ' ') ++ '=' :: b) = true := by
  rw [isAssignment.afterSet, dropWord?_set] at h
  cases hword : dropWord? "set".toList z with
  | none =>
    rw [hword] at h
    cases h
  | some y =>
    rw [hword] at h
    cases y with
    | nil => exact absurd h (by simp [isBlank])
    | cons c y =>
      simp only [Option.map_some, List.cons_append, Bool.and_eq_true] at h
      obtain ⟨hc, htarget⟩ := h
      have hy : '=' ∉ y.dropWhile isBlank := by
        intro hmem
        obtain ⟨w, rfl⟩ := suffix_dropWord? hword
        exact hz (by simp [(List.dropWhile_sublist _).subset hmem])
      have hequals : isBlank '=' = false := by decide
      rw [dropWhile_cut hequals] at htarget
      -- a target is there already, so the spaces come behind it and not in its place
      have hne : y.dropWhile isBlank ≠ [] := by
        intro hnil
        rw [hnil, List.nil_append, dropTarget?_bare] at htarget
        cases htarget
      rw [isAssignment.afterSet, dropWord?_set, dropWord?_longer hword]
      simp only [Option.map_some, List.cons_append, Bool.and_eq_true]
      refine ⟨hc, ?_⟩
      rw [dropWhile_cut hequals, dropWhile_append_more hne]
      exact dropTarget?_spaces hy n htarget

/-- Spaces in front of the first equals sign leave an assignment one. -/
theorem isAssignment_spaces {x b : Text} (hx : '=' ∉ x) (n : Nat)
    (h : isAssignment (x ++ '=' :: b) = true) :
    isAssignment ((x ++ List.replicate n ' ') ++ '=' :: b) = true := by
  have hequals : isBlank '=' = false := by decide
  have hz : '=' ∉ x.dropWhile isBlank := fun hmem => hx ((List.dropWhile_sublist _).subset hmem)
  simp only [isAssignment, dropWhile_cut hequals, Bool.and_eq_true, Bool.or_eq_true] at h ⊢
  obtain ⟨hhead, hsome⟩ := h
  have hne : x.dropWhile isBlank ≠ [] := by
    intro hnil
    rw [hnil, List.nil_append, dropTarget?_bare] at hsome
    rcases hsome with hset | hplain
    · exact absurd hset (by simp [isAssignment.afterSet, dropWord?, sameLetter])
    · cases hplain
  rw [dropWhile_append_more hne]
  constructor
  · obtain ⟨c, z, hcz⟩ := List.exists_cons_of_ne_nil hne
    rw [hcz] at hhead ⊢
    exact hhead
  · exact hsome.imp (afterSet_spaces hz n) (dropTarget?_spaces hz n)

theorem steady_assignments : equalsAligner.Steady where
  split x := ⟨[], (List.append_nil x).symm, by simp⟩
  kept_front x n := ⟨n, Nat.le_refl n, rfl⟩
  marks {line cut} h := by
    have hcut := h
    simp only [equalsAligner, assignmentMarker] at h
    split at h
    · obtain ⟨⟨x, b, rfl, rfl⟩, _⟩ := find?_eq_some h
      exact ⟨x, b, rfl, h, hcut⟩
    · cases h
  shift x b n := by
    simp [equalsAligner, assignmentMarker, Aligner.front]
  marks_front {x b} h n := by
    have hx : '=' ∉ x := not_mem_of_find? h.first
    have hfree : '=' ∉ x ++ List.replicate n ' ' := by
      rw [List.mem_append, not_or]
      exact ⟨hx, fun hmem => absurd (List.eq_of_mem_replicate hmem) (by decide)⟩
    have hassign : isAssignment (x ++ '=' :: b) = true := by
      have hcut := h.cut
      simp only [equalsAligner, assignmentMarker] at hcut
      split at hcut
      · assumption
      · cases hcut
    refine ⟨find?_char hfree b, ?_⟩
    exact (if_pos (isAssignment_spaces hx n hassign)).trans (find?_char hfree b)
  not_gap {x b} _ := by
    have hrole := congrArg Prod.snd (role_equals (l := x ++ '=' :: b) (by simp))
    exact hrole

/-! ## Comments -/

section Break

variable {part : Text} {c : Char} (hne : part ≠ []) (hc : c ∉ part)
include hne hc

/-- A part without `c` that starts in front of `c` ends there. -/
theorem prefix_break {y t : Text} (h : part <+: y ++ c :: t) : part <+: y := by
  rcases List.prefix_or_prefix_of_prefix h (List.prefix_append y (c :: t)) with hy | ⟨r, rfl⟩
  · exact hy
  · rw [List.prefix_append_right_inj] at h
    cases r with
    | nil => simp
    | cons d r =>
      obtain ⟨rfl, _⟩ := List.cons_prefix_cons.mp h
      exact absurd (List.mem_append_right y List.mem_cons_self) hc

theorem find?_break {y : Text} (hy : ¬ part <:+: y) (t : Text) :
    find? part (y ++ c :: t) = (find? part t).map (· + (y.length + 1)) := by
  have hmiss : ∀ {u : Text}, ¬ part <+: u → List.isPrefixOf part (u ++ c :: t) = false := by
    intro u hu
    rw [← Bool.not_eq_true, List.isPrefixOf_iff_prefix]
    exact fun h => hu (prefix_break hne hc h)
  induction y with
  | nil =>
    have hnil : ¬ part <+: [] := fun h => hne (List.prefix_nil.mp h)
    have hhere := hmiss hnil
    rw [List.nil_append] at hhere ⊢
    rw [find?, hhere]
    rfl
  | cons d y ih =>
    have hhere := hmiss fun h => hy h.isInfix
    rw [List.cons_append] at hhere ⊢
    rw [find?, hhere, if_neg Bool.false_ne_true,
      ih fun h => hy (h.trans (List.suffix_cons d y).isInfix), Option.map_map]
    rfl

end Break

/-- A part that holds no space is found behind spaces where it is found without them. -/
theorem find?_spaces {part y : Text} (hne : part ≠ []) (hc : ' ' ∉ part) (hy : ¬ part <:+: y)
    (n : Nat) (t : Text) :
    find? part (y ++ (List.replicate (n + 1) ' ' ++ t)) =
      (find? part t).map (· + (y.length + (n + 1))) := by
  -- the first space ends the search in y, and nothing is found between a space and the next
  induction n generalizing y with
  | zero => exact find?_break hne hc hy t
  | succ n ih =>
    have hnil : ¬ part <:+: [] := fun h => hne (List.infix_nil.mp h)
    have hmore := ih hnil
    rw [List.nil_append] at hmore
    rw [List.replicate_succ, List.cons_append, find?_break hne hc hy, hmore, Option.map_map]
    congr 1
    funext i
    simp only [Function.comp_apply, List.length_nil]
    omega

/-- A line is just a token if only white space stands around it. -/
theorem trim_eq_token (x b : Text) : trim (x ++ (Kind.remark.token ++ b)) = Kind.remark.token ↔
    (∀ c ∈ x, isSpace c = true) ∧ ∀ c ∈ b, isSpace c = true := by
  have htoken : ∀ t, Kind.remark.token ++ t =
      '\x00' :: (Kind.remark.name ++ '\x00' :: t) := (Mark.kind .remark).token_append
  constructor
  · intro h
    obtain ⟨s₁, s₂, heq, h₁, h₂⟩ := trim_split (x ++ (Kind.remark.token ++ b))
    rw [h] at heq
    -- both sides have the two NULs of the token and no others
    have hcount := congrArg (List.count '\x00') heq
    have htwo : Kind.remark.token.count '\x00' = 2 := by decide
    rw [List.count_append, List.count_append, List.count_append, List.count_append,
      List.count_eq_zero_of_not_mem (nul_not_mem_spaces h₁),
      List.count_eq_zero_of_not_mem (nul_not_mem_spaces h₂), htwo] at hcount
    have hx : '\x00' ∉ x := List.count_eq_zero.mp (by omega)
    have hparts := congrArg (cutAt '\x00') heq
    rw [htoken, htoken, cutAt_append hx, cutAt_append (nul_not_mem_spaces h₁)] at hparts
    obtain rfl := (List.cons.inj hparts).1
    rw [List.append_cancel_left (List.append_cancel_left heq)]
    exact ⟨h₁, h₂⟩
  · rintro ⟨hx, hb⟩
    rw [trim, trimBy, dropWhile_spaces_append hx rfl, dropEnd_append_all hb]
    decide

theorem dropEnd_twice (p : Char → Bool) (x : Text) : dropEnd p (dropEnd p x) = dropEnd p x := by
  obtain ⟨s, hs, hspace⟩ := dropEnd_append p x
  have hdrop := dropEnd_append_all (t := dropEnd p x) hspace
  rwa [← hs, eq_comm] at hdrop

theorem find?_self {part : Text} (hne : part ≠ []) (b : Text) : find? part (part ++ b) = some 0 := by
  obtain ⟨c, t, rfl⟩ := List.exists_cons_of_ne_nil hne
  have hhere : List.isPrefixOf (c :: t) (c :: (t ++ b)) = true :=
    List.isPrefixOf_iff_prefix.mpr ⟨b, rfl⟩
  rw [List.cons_append, find?, if_pos hhere]

/-- A line with a comment to be moved is not just a comment. -/
theorem trim_ne_token {x b : Text} (h : remarkAligner.Marks x b) :
    trim (x ++ (Kind.remark.token ++ b)) ≠ Kind.remark.token := by
  intro htrim
  have hcut := h.cut
  simp only [remarkAligner, remarkMarker, htrim, beq_self_eq_true, if_true] at hcut
  cases hcut

section
variable {x b : Text} (h : remarkAligner.Marks x b)
include h

/-- The code in front of a comment holds nothing that looks like one. -/
theorem remark_free : ¬ Kind.remark.token <:+: dropEnd isSpace x := by
  obtain ⟨gap, hgap, _⟩ := dropEnd_append isSpace x
  rintro ⟨u, v, huv⟩
  have hline : x ++ (Kind.remark.token ++ b) =
      u ++ (Kind.remark.token ++ (v ++ (gap ++ (Kind.remark.token ++ b)))) := by
    conv_lhs => rw [hgap, ← huv]
    simp
  -- such a place would come before the first one
  have hfirst : x.length ≤ u.length := (find?_eq_some h.first).2 u _ hline
  have hx := congrArg List.length hgap
  rw [← huv] at hx
  have hpos : 0 < Kind.remark.token.length := by decide
  simp only [List.length_append] at hx
  omega

theorem find?_remark_front (n : Nat) :
    find? Kind.remark.token (remarkAligner.front x n ++ (Kind.remark.token ++ b)) =
      some (remarkAligner.front x n).length := by
  rw [Aligner.front, List.append_assoc]
  refine (find?_spaces Kind.remark.token_ne_nil (by decide) (remark_free h) n _).trans ?_
  rw [find?_self Kind.remark.token_ne_nil]
  simp [remarkAligner]

/-- Moving a comment makes its line no line that is just a comment. -/
theorem trim_front_ne_token (n : Nat) :
    trim (remarkAligner.front x n ++ (Kind.remark.token ++ b)) ≠ Kind.remark.token := by
  obtain ⟨gap, hgap, hspace⟩ := dropEnd_append isSpace x
  rw [Ne, trim_eq_token]
  rintro ⟨hfront, hb⟩
  apply trim_ne_token h
  rw [trim_eq_token]
  refine ⟨fun c hc => ?_, hb⟩
  rw [hgap] at hc
  rcases List.mem_append.mp hc with hc | hc
  · exact hfront c (List.mem_append_left _ hc)
  · exact hspace c hc

theorem marks_remark_front (n : Nat) : remarkAligner.Marks (remarkAligner.front x n) b where
  first := find?_remark_front h n
  cut := by
    have hcode : ¬ (trim (remarkAligner.front x n ++ (Kind.remark.token ++ b)) ==
        Kind.remark.token) = true := by
      rw [beq_iff_eq]
      exact trim_front_ne_token h n
    calc remarkMarker.cut (remarkAligner.front x n ++ (Kind.remark.token ++ b))
        = (find? Kind.remark.token (remarkAligner.front x n ++ (Kind.remark.token ++ b))).map
            fun i => (dropEnd isSpace
              ((remarkAligner.front x n ++ (Kind.remark.token ++ b)).take i)).length :=
          if_neg hcode
      _ = some (dropEnd isSpace (remarkAligner.front x n)).length := by
          rw [find?_remark_front h n, Option.map_some, List.take_left]

end

/-- Where a comment is moved, the white space in front of it is taken away. -/
theorem shift_remark (x b : Text) (n : Nat) :
    remarkMarker.shift (dropEnd isSpace x).length n (x ++ (Kind.remark.token ++ b)) =
      remarkAligner.front x n ++ (Kind.remark.token ++ b) := by
  obtain ⟨gap, hgap, hspace⟩ := dropEnd_append isSpace x
  have hline : x ++ (Kind.remark.token ++ b) =
      dropEnd isSpace x ++ (gap ++ (Kind.remark.token ++ b)) := by
    conv_lhs => rw [hgap, List.append_assoc]
  show (x ++ (Kind.remark.token ++ b)).take (dropEnd isSpace x).length ++
    List.replicate (n + 1) ' ' ++ ((x ++ (Kind.remark.token ++ b)).drop
      (dropEnd isSpace x).length).dropWhile isSpace = _
  rw [hline, List.take_left, List.drop_left, dropWhile_spaces_append hspace rfl]
  rfl

theorem steady_remarks : remarkAligner.Steady where
  split := dropEnd_append isSpace
  kept_front x n := by
    refine ⟨0, Nat.zero_le n, ?_⟩
    show dropEnd isSpace (dropEnd isSpace x ++ List.replicate (n + 1) ' ') = _
    rw [dropEnd_append_all (spaces_replicate _), dropEnd_twice]
    exact (List.append_nil _).symm
  marks {line cut} h := by
    have hcut := h
    simp only [remarkAligner, remarkMarker] at h
    split at h
    · cases h
    · obtain ⟨i, hi, rfl⟩ := Option.map_eq_some_iff.mp h
      obtain ⟨⟨x, b, rfl, rfl⟩, _⟩ := find?_eq_some hi
      rw [List.take_left] at hcut
      exact ⟨x, b, rfl, hi, hcut⟩
  shift := shift_remark
  marks_front := marks_remark_front
  not_gap {x b} h := by
    have hnul : '\x00' ∈ trim (x ++ (Kind.remark.token ++ b)) := by
      apply mem_trim_of_not_space _ (by decide)
      exact List.mem_append_right x (List.mem_append_left b (by decide))
    have hblank : trim (x ++ (Kind.remark.token ++ b)) ≠ [] := List.ne_nil_of_mem hnul
    show isGap (x ++ (Kind.remark.token ++ b)) = false
    rw [isGap, Bool.or_eq_false_iff, beq_eq_false_iff_ne, beq_eq_false_iff_ne]
    exact ⟨hblank, trim_ne_token h⟩

end VbTidy
