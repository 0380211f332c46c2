import VbTidy.Proofs.Settled

/-
What aligning does to a line. A line is left alone, or the part from its marked place on is moved
right. The equals sign of an assignment is no part of a token, so any line stays as it is settled,
with the strays it has. A comment is found by its token: on a line without strays that is the token
left for the comment (`comment_of_first`), and moving it changes nothing but the white space in front
of it. At any other place the text that moving leaves is not sound (`not_sound_torn`).
-/
namespace VbTidy

/-- What a marker may make of a line. -/
def Marker.Moves (m : Marker) (l l' : Text) : Prop :=
  l' = l ∨ ∃ cut n, m.cut l = some cut ∧ l' = m.shift cut n l

theorem forall₂_mapIdx {R : Text → Text → Prop} {f : Nat → Text → Text} (h : ∀ i l, R l (f i l))
    (ls : List Text) : List.Forall₂ R ls (ls.mapIdx f) := by
  induction ls generalizing f with
  | nil => exact .nil
  | cons l ls ih =>
    rw [List.mapIdx_cons]
    exact .cons (h 0 l) (ih fun i l => h (i + 1) l)

/-- Aligning goes line by line. -/
theorem align_moves {m : Marker} {s : Shelves} {lines out : List Text}
    (h : m.align s lines = .ok out) : List.Forall₂ m.Moves lines out := by
  rcases align_ok h with rfl | ⟨targets, cols, rfl⟩
  · exact List.forall₂_same.mpr fun l _ => .inl rfl
  · refine forall₂_mapIdx (fun i l => ?_) lines
    rw [Marker.alignLine]
    split
    · exact .inr ⟨_, _, ‹_›, rfl⟩
    · exact .inl rfl

theorem find?_char {c : Char} {a : Text} (ha : c ∉ a) (b : Text) :
    find? [c] (a ++ c :: b) = some a.length := by
  induction a with
  | nil => simp [find?]
  | cons d a ih =>
    rw [List.mem_cons, not_or] at ha
    have hne : ¬ [c].isPrefixOf (d :: (a ++ c :: b)) = true := by simpa using ha.1
    rw [List.cons_append, find?, if_neg hne, ih ha.2]
    rfl

theorem find?_char_of_not_mem {c : Char} {t : Text} (h : c ∉ t) : find? [c] t = none := by
  induction t with
  | nil => rfl
  | cons d t ih =>
    rw [List.mem_cons, not_or] at h
    have hne : ¬ [c].isPrefixOf (d :: t) = true := by simpa using h.1
    rw [find?, if_neg hne, ih h.2]
    rfl

/-- The first occurrence of a part. -/
theorem find?_eq_some {part t : Text} {i : Nat} (h : find? part t = some i) :
    (∃ x y, t = x ++ (part ++ y) ∧ x.length = i) ∧
      ∀ x y, t = x ++ (part ++ y) → i ≤ x.length := by
  induction t generalizing i with
  | nil =>
    rw [find?] at h
    split at h
    · obtain rfl := Option.some.inj h
      rename_i hp
      exact ⟨⟨[], [], by simpa using hp, rfl⟩, by simp⟩
    · cases h
  | cons c t ih =>
    rw [find?] at h
    split at h
    · obtain rfl := Option.some.inj h
      rename_i hp
      obtain ⟨y, hy⟩ := List.isPrefixOf_iff_prefix.mp hp
      exact ⟨⟨[], y, hy.symm, rfl⟩, by simp⟩
    · rename_i hp
      obtain ⟨j, hj, rfl⟩ := Option.map_eq_some_iff.mp h
      obtain ⟨⟨x, y, rfl, rfl⟩, hfirst⟩ := ih hj
      refine ⟨⟨c :: x, y, rfl, rfl⟩, fun x' y' h' => ?_⟩
      cases x' with
      | nil => exact absurd (List.isPrefixOf_iff_prefix.mpr ⟨y', h'.symm⟩) hp
      | cons d x' =>
        have := hfirst x' y' (List.cons.inj h').2
        simpa using this

theorem spaces_replicate (n : Nat) : ∀ c ∈ List.replicate n ' ', isSpace c = true := by
  intro c hc
  rw [List.eq_of_mem_replicate hc]
  decide

/-! ## Assignments -/

theorem assignment_shift {line : Text} {cut n : Nat} (h : assignmentMarker.cut line = some cut) :
    ∃ a b, line = a ++ '=' :: b ∧ cut = a.length ∧
      assignmentMarker.shift cut n line = a ++ (List.replicate n ' ' ++ '=' :: b) := by
  simp only [assignmentMarker] at h
  split at h
  · obtain ⟨⟨a, b, rfl, rfl⟩, _⟩ := find?_eq_some h
    exact ⟨a, b, rfl, rfl, by simp [assignmentMarker]⟩
  · cases h

theorem clean_equals {n : Nat} (b : Text) : Sound.Clean n ('=' :: b) :=
  Sound.clean_cons (by decide) (by decide)

/-- A line stays settled when its equals sign is moved. -/
theorem settled_moved_equals {a b s : Text} (hs : ∀ c ∈ s, isSpace c = true)
    (h : Settled (a ++ '=' :: b)) : Settled (a ++ (s ++ '=' :: b)) := by
  have ha := (Sound.split (clean_equals b) h.sound).1
  have hcode : Tame a := h.toOrderly.left ha (by simp)
  have hnul := nul_not_mem_spaces hs
  have htail : Orderly ('=' :: b) := h.toOrderly.right ha
  have hlast : wordAt s.getLast? = false := by
    cases hd : s.getLast? with
    | none => rfl
    | some d => exact isWord_of_isBreak (isBreak_of_isSpace (hs d (List.mem_of_getLast? hd)))
  have hstarts : Starts (s ++ '=' :: b) := by
    apply starts_of_head
    cases s with
    | nil => rfl
    | cons c s => exact isBreak_of_isSpace (hs c List.mem_cons_self)
  refine ⟨.append hcode (htail.nul_free_append hnul hlast) hstarts, fun x y hxy => ?_⟩
  rcases hxy.of_append ha with ⟨y', h', _⟩ | ⟨x', h', rfl⟩
  · exact absurd h'.mem_marks hcode.plain
  · obtain ⟨x'', h'', rfl⟩ := h'.of_nul_free_append hnul
    obtain ⟨z, hz, rfl⟩ := Occurs.of_nul_free_append (a := ['=']) (by decide) h''
    -- the comment is behind the equals sign, with the same text between them
    have horig := h.apart (a ++ '=' :: z) y (Occurs.append_left ha (h''))
    cases z with
    | nil =>
      rw [List.getLast?_append, List.getLast?_singleton, Option.some_or] at horig
      exact absurd horig (by decide)
    | cons c z =>
      simp only [List.singleton_append, List.getLast?_append, List.getLast?_cons,
        Option.getD_some, Option.some_or] at horig ⊢
      exact horig

theorem stray_moved_equals {k : Kind} {a b s : Text} (hs : ∀ c ∈ s, isSpace c = true)
    (h : Sound 0 (a ++ '=' :: b)) :
    Stray k (a ++ (s ++ '=' :: b)) ↔ Stray k (a ++ '=' :: b) := by
  obtain ⟨ha, hb⟩ := Sound.split (clean_equals b) h
  have hname : '=' ∉ k.name := by cases k <;> decide
  have hnul := nul_not_mem_spaces hs
  have hb' : Sound 0 b := hb.tail (by decide)
  rw [← List.append_assoc, stray_break (ha.append (.of_nul_free hnul)) hb' (by decide) hname,
    stray_append_nul_free ha hnul, stray_break ha hb' (by decide) hname]

/-! ## Comments -/

theorem dropWhile_spaces_append {s t : Text} (hs : ∀ c ∈ s, isSpace c = true)
    (ht : t.head? = some '\x00') : (s ++ t).dropWhile isSpace = t := by
  rw [List.dropWhile_append_of_pos hs]
  cases t with
  | nil => cases ht
  | cons c t =>
    obtain rfl : c = '\x00' := by simpa using ht
    rfl

/-- The place of a comment on a line, and what moving it makes of the line. -/
theorem remark_shift {line : Text} {cut n : Nat} (h : remarkMarker.cut line = some cut) :
    ∃ x y, line = x ++ (Kind.remark.token ++ y) ∧
      (∀ x' y', line = x' ++ (Kind.remark.token ++ y') → x.length ≤ x'.length) ∧
      cut = (dropEnd isSpace x).length ∧
      remarkMarker.shift cut n line =
        dropEnd isSpace x ++ (List.replicate (n + 1) ' ' ++ (Kind.remark.token ++ y)) := by
  simp only [remarkMarker] at h
  split at h
  · cases h
  · obtain ⟨i, hi, rfl⟩ := Option.map_eq_some_iff.mp h
    obtain ⟨⟨x, y, rfl, rfl⟩, hfirst⟩ := find?_eq_some hi
    rw [List.take_left]
    refine ⟨x, y, rfl, hfirst, rfl, ?_⟩
    obtain ⟨s, hs, hspace⟩ := dropEnd_append isSpace x
    have hline : x ++ (Kind.remark.token ++ y) =
        dropEnd isSpace x ++ (s ++ (Kind.remark.token ++ y)) := by
      conv_lhs => rw [hs]
      simp
    simp only [remarkMarker]
    rw [hline, List.take_left, List.drop_left, dropWhile_spaces_append hspace rfl]
    simp

/-- On a line without strays the first token that looks like that of a comment is one, and it stands
at the end. -/
theorem comment_of_first {x y : Text} (h : Orderly (x ++ (Kind.remark.token ++ y)))
    (hs : ¬ Stray .remark (x ++ (Kind.remark.token ++ y)))
    (hfirst : ∀ x' y', x ++ (Kind.remark.token ++ y) = x' ++ (Kind.remark.token ++ y') →
      x.length ≤ x'.length) : Tame x ∧ y = [] := by
  rcases real_or_between h.sound rfl with hx | ⟨x₀, m, m', y₀, rfl, hx₀, hy₀, heq⟩
  · refine ⟨h.left hx (by simp [Kind.token, tokenOf]), ?_⟩
    exact h.last x y ⟨rfl, hx⟩
  · exfalso
    rw [heq] at h hs hfirst
    have hname : Sound 0 (m.token ++ Kind.remark.name) :=
      .token (Nat.zero_le _) (.of_nul_free (nul_not_mem_name (.kind .remark)))
    -- no word touches an error phrase, and a comment in front would be found first
    have hm : m ≠ .kind .remark := by
      rintro rfl
      have hlen := hfirst x₀ _ rfl
      rw [List.length_append, List.length_cons] at hlen
      omega
    have hm₀ : m ≠ .kind .resume := by
      rintro rfl
      have hword : isWord 'c' = false := (h.calm x₀ _ ⟨rfl, hx₀⟩).2
      exact absurd hword (by decide)
    have hm' : m' ≠ .kind .resume := by
      rintro rfl
      have := (h.calm (x₀ ++ (m.token ++ Kind.remark.name)) y₀ ⟨by simp, hx₀.append hname⟩).1
      have hlast : Kind.remark.name.getLast? = some 't' := by decide
      rw [List.getLast?_append, List.getLast?_append, hlast, Option.some_or, Option.some_or] at this
      exact absurd this (by decide)
    have hturn : ∀ m : Mark, m ≠ .kind .resume → Kind.remark.turn ≤ m.turn := by
      intro m hm
      cases m with
      | fence => decide
      | kind k =>
        cases k with
        | resume => exact absurd rfl hm
        | remark => decide
        | string => decide
        | delimiter => decide
        | markup => decide
    exact hs ⟨x₀, m, m', y₀, by simp, hx₀, hy₀, hm, hturn m hm₀, hturn m' hm'⟩

theorem not_stray_mark {k : Kind} (m : Mark) : ¬ Stray k m.token := by
  have h := stray_token (k := k) (m := m) (t := [])
  rw [List.append_nil] at h
  rw [h]
  rintro (⟨_, _, m', y, hnil, _⟩ | h)
  · simp [Mark.token, tokenOf] at hnil
  · exact stray_nil h

theorem stray_spaces_mark {k : Kind} {a s : Text} {m : Mark} (ha : Sound 0 a) (hne : s ≠ [])
    (hs : ∀ c ∈ s, isSpace c = true) : Stray k (a ++ (s ++ m.token)) ↔ Stray k a := by
  have hopens : Opens k (s ++ m.token) := by
    obtain ⟨c, s, rfl⟩ := List.exists_cons_of_ne_nil hne
    intro d hd
    obtain rfl : c = d := by simpa using hd
    have hbreak := isBreak_of_isSpace (hs c List.mem_cons_self)
    exact ⟨ne_nul_of_isBreak hbreak, not_mem_name_of_isBreak hbreak (.kind k)⟩
  rw [stray_append_opens ha ((Sound.of_nul_free (nul_not_mem_spaces hs)).append
    (.mark (Nat.zero_le _))) hopens, stray_nul_free_append (nul_not_mem_spaces hs)]
  simp [not_stray_mark]

/-- Code without the white space at its end. -/
theorem tame_dropEnd {x : Text} (h : Tame x) : Tame (dropEnd isSpace x) :=
  .of_beads (beads_dropEnd (fun _ h => h) x).symm (squeezed_dropEnd (fun _ h => h) x).symm h

/-- A line stays settled when its comment is moved. -/
theorem settled_moved_comment {x : Text} (n : Nat) (h : Tame x) :
    Settled (dropEnd isSpace x ++ (List.replicate (n + 1) ' ' ++ (Mark.kind .remark).token)) := by
  have hcode := tame_dropEnd h
  have hblanks : Tame (dropEnd isSpace x ++ List.replicate n ' ') := by
    refine .append hcode (.of_nul_free (nul_not_mem_spaces (spaces_replicate n))) ?_
    exact starts_of_head (head_spaces (spaces_replicate n))
  have := settled_behind hblanks
  have heq : dropEnd isSpace x ++ List.replicate n ' ' ++ ' ' :: (Mark.kind .remark).token =
      dropEnd isSpace x ++ (List.replicate (n + 1) ' ' ++ (Mark.kind .remark).token) := by
    rw [List.replicate_succ']
    simp
  rwa [heq] at this

theorem eq_nil_of_dropEnd {p : Char → Bool} {x : Text} (h : dropEnd p x = x)
    (hlast : (x.getLast?).all p = true) : x = [] := by
  rcases List.eq_nil_or_concat x with rfl | ⟨x, c, rfl⟩
  · rfl
  · rw [List.concat_eq_append, List.getLast?_append, List.getLast?_singleton, Option.some_or] at hlast
    have hc : p c = true := hlast
    have hdrop : dropEnd p (x.concat c) = dropEnd p x := by
      rw [List.concat_eq_append, dropEnd, List.reverse_append, List.reverse_singleton,
        List.singleton_append, List.dropWhile_cons_of_pos hc, dropEnd]
    obtain ⟨s, hs, _⟩ := dropEnd_append p x
    rw [hdrop] at h
    have hlen := congrArg List.length hs
    rw [h, List.length_append, List.length_concat] at hlen
    omega

theorem stray_moved_comment {k : Kind} {x : Text} (n : Nat)
    (h : Settled (x ++ (Mark.kind .remark).token)) (hx : Tame x) :
    Stray k (dropEnd isSpace x ++ (List.replicate (n + 1) ' ' ++ (Mark.kind .remark).token)) ↔
      Stray k (x ++ (Mark.kind .remark).token) := by
  have hcode := (tame_dropEnd hx).sound
  rw [stray_spaces_mark hcode (by simp) (spaces_replicate _)]
  obtain ⟨s, hs, hspace⟩ := dropEnd_append isSpace x
  cases s with
  | nil =>
    -- no white space at the end: nothing stands in front of the comment
    rw [List.append_nil] at hs
    have hlast := h.apart x [] ⟨by simp, hx.sound⟩
    obtain rfl := eq_nil_of_dropEnd hs.symm hlast
    simp [dropEnd, stray_nil, not_stray_mark]
  | cons c s =>
    conv_rhs => rw [hs, List.append_assoc]
    rw [stray_spaces_mark hcode (by simp) hspace]

theorem dropEnd_of_last {p : Char → Bool} {t : Text} {c : Char} (h : t.getLast? = some c)
    (hc : p c = false) : dropEnd p t = t := by
  rw [← List.head?_reverse] at h
  rw [dropEnd]
  cases ht : t.reverse with
  | nil =>
    rw [ht] at h
    cases h
  | cons d u =>
    rw [ht] at h
    obtain rfl : d = c := by simpa using h
    rw [List.dropWhile_cons, hc, ← ht]
    simp

/-- Anywhere else, moving what looks like a comment tears a token. -/
theorem not_sound_torn {n : Nat} {m : Mark} {x z : Text} {c : Char} (hx : Sound n x)
    (hc : c ≠ '\x00') (hn : isNameChar c = false) :
    ¬ Sound n (x ++ '\x00' :: (m.name ++ c :: z)) := by
  intro h
  have hrest := Sound.cancel hx h
  generalize hv : '\x00' :: (m.name ++ c :: z) = v at hrest
  cases hrest with
  | nil => cases hv
  | char hd _ => exact hd (List.cons.inj hv).1.symm
  | @token m₁ t _ _ =>
    rw [Mark.token_append] at hv
    rcases List.append_eq_append_iff.mp (List.cons.inj hv).2 with ⟨a, ha, hz⟩ | ⟨a, ha, ht⟩
    · cases a with
      | nil => exact hc (List.cons.inj hz).1
      | cons d a =>
        obtain ⟨rfl, _⟩ := List.cons.inj hz
        have := Mark.isNameChar_of_mem (m := m₁) (c := c) (by rw [ha]; simp)
        rw [hn] at this
        cases this
    · cases a with
      | nil => exact hc (List.cons.inj ht).1.symm
      | cons d a =>
        obtain ⟨rfl, _⟩ := List.cons.inj ht
        exact nul_not_mem_name m (by rw [ha]; simp)

/-- Either marker leaves a line without strays settled and without strays. -/
theorem Settled.moves {m : Marker} (hm : m = assignmentMarker ∨ m = remarkMarker) {l l' : Text}
    (h : Settled l) (hs : ∀ k, ¬ Stray k l) (hl : m.Moves l l') :
    Settled l' ∧ ∀ k, ¬ Stray k l' := by
  rcases hl with rfl | ⟨cut, n, hcut, rfl⟩
  · exact ⟨h, hs⟩
  · rcases hm with rfl | rfl
    · obtain ⟨a, b, rfl, _, hshift⟩ := assignment_shift (n := n) hcut
      rw [hshift]
      refine ⟨settled_moved_equals (spaces_replicate n) h, fun k => ?_⟩
      rw [stray_moved_equals (spaces_replicate n) h.sound]
      exact hs k
    · obtain ⟨x, y, rfl, hfirst, _, hshift⟩ := remark_shift (n := n) hcut
      obtain ⟨hx, rfl⟩ := comment_of_first h.toOrderly (hs .remark) hfirst
      rw [hshift]
      rw [List.append_nil] at h hs ⊢
      refine ⟨settled_moved_comment n hx, fun k hk => hs k ?_⟩
      exact (stray_moved_comment n h hx).mp hk

/-- Neither marker takes a stray away without tearing a token. -/
theorem Settled.stray_moves {m : Marker} (hm : m = assignmentMarker ∨ m = remarkMarker)
    {l l' : Text} (h : Settled l) (hl' : Sound 0 l') (hl : m.Moves l l') {k : Kind}
    (hk : Stray k l) : Stray k l' := by
  rcases hl with rfl | ⟨cut, n, hcut, rfl⟩
  · exact hk
  · rcases hm with rfl | rfl
    · obtain ⟨a, b, rfl, _, hshift⟩ := assignment_shift (n := n) hcut
      rw [hshift, stray_moved_equals (spaces_replicate n) h.sound]
      exact hk
    · obtain ⟨x, y, rfl, _, _, hshift⟩ := remark_shift (n := n) hcut
      rw [hshift] at hl' ⊢
      rcases real_or_between h.sound rfl with hx | ⟨x₀, m, _, _, rfl, hx₀, _, _⟩
      · obtain rfl := h.last x y ⟨rfl, hx⟩
        rw [List.append_nil] at h hk ⊢
        have htame := h.toOrderly.left hx (by simp [Kind.token, tokenOf])
        exact (stray_moved_comment n h htame).mpr hk
      · -- what was found starts inside a token, and is moved away from the rest of it
        have hne : m.name ≠ [] := by
          have key : ∀ m ∈ Mark.all, m.name ≠ [] := by decide
          exact key m (Mark.mem_all m)
        have hlast : (x₀ ++ '\x00' :: m.name).getLast? = some (m.name.getLast hne) := by
          rw [List.getLast?_append, List.getLast?_cons, List.getLast?_eq_some_getLast hne]
          rfl
        have hchar := Mark.isNameChar_of_mem (List.getLast_mem hne)
        rw [dropEnd_of_last hlast (isSpace_nameChar hchar)] at hl'
        have heq : x₀ ++ '\x00' :: m.name ++ (List.replicate (n + 1) ' ' ++
            (Kind.remark.token ++ y)) = x₀ ++ '\x00' :: (m.name ++ ' ' ::
              (List.replicate n ' ' ++ (Kind.remark.token ++ y))) := by
          simp [List.replicate_succ]
        rw [heq] at hl'
        exact absurd hl' (not_sound_torn hx₀ (by decide) (by decide))

end VbTidy
