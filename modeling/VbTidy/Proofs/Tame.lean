import VbTidy.Proofs.Beads
import VbTidy.Proofs.Faithful

/-
Lines between putting aside and putting back. On the lines that putting aside leaves, a comment
stands at the end and no word touches the phrase for errors (`orderly_liftedLines`). The code of
such a line is tame: its tokens are whole, none is that of a comment, and those of error phrases
stand free. The passes keep code tame, whatever they do to the white space and the letters between
the tokens, and the order of the tokens with it.
-/
namespace VbTidy

/-! ## Where tokens stand -/

/-- A token of a mark stands in a text, between a text of whole tokens and another one. -/
structure Occurs (m : Mark) (x y t : Text) : Prop where
  eq : t = x ++ (m.token ++ y)
  sound : Sound 0 x

namespace Occurs

variable {m : Mark} {x y a b t : Text}

theorem append_left (ha : Sound 0 a) (h : Occurs m x y b) : Occurs m (a ++ x) y (a ++ b) where
  eq := by rw [h.eq, List.append_assoc]
  sound := ha.append h.sound

theorem append_right (b : Text) (h : Occurs m x y a) : Occurs m x (y ++ b) (a ++ b) where
  eq := by rw [h.eq, List.append_assoc, List.append_assoc]
  sound := h.sound

theorem mem_marks (h : Occurs m x y t) : m ∈ marks t := by
  rw [h.eq, marks_append h.sound, marks_token]
  simp

/-- A token of two texts in a row stands in the one or in the other. -/
theorem of_append (ha : Sound 0 a) (h : Occurs m x y (a ++ b)) :
    (∃ y', Occurs m x y' a ∧ y = y' ++ b) ∨ ∃ x', Occurs m x' y b ∧ x = a ++ x' := by
  obtain ⟨heq, hx⟩ := h
  induction ha generalizing x with
  | nil => exact .inr ⟨x, ⟨heq, hx⟩, rfl⟩
  | @char c a hc _ ih =>
    cases hx with
    | nil => exact absurd heq (cons_ne_token hc)
    | char hd hx =>
      obtain ⟨rfl, htail⟩ := List.cons.inj heq
      rcases ih htail hx with ⟨y', ⟨rfl, hx⟩, rfl⟩ | ⟨x', hb, rfl⟩
      · exact .inl ⟨y', ⟨rfl, .char hd hx⟩, rfl⟩
      · exact .inr ⟨x', hb, rfl⟩
    | token _ _ =>
      rw [List.append_assoc] at heq
      exact absurd heq (cons_ne_token hc)
  | @token m₁ a _ _ ih =>
    rw [List.append_assoc] at heq
    cases hx with
    | nil =>
      obtain ⟨rfl, rfl⟩ := token_append_inj heq
      exact .inl ⟨a, ⟨rfl, .nil⟩, rfl⟩
    | char hd hx => exact absurd heq.symm (cons_ne_token hd)
    | @token m₂ x _ hx =>
      rw [List.append_assoc] at heq
      obtain ⟨rfl, htail⟩ := token_append_inj heq
      rcases ih htail hx with ⟨y', ⟨rfl, hx⟩, rfl⟩ | ⟨x', hb, rfl⟩
      · refine .inl ⟨y', ⟨by simp, .token (Nat.zero_le _) hx⟩, rfl⟩
      · exact .inr ⟨x', hb, by simp⟩

theorem of_nul_free_append (ha : '\x00' ∉ a) (h : Occurs m x y (a ++ b)) :
    ∃ x', Occurs m x' y b ∧ x = a ++ x' := by
  rcases h.of_append (.of_nul_free ha) with ⟨y', h', _⟩ | h'
  · have := h'.mem_marks
    rw [marks_nul_free ha] at this
    cases this
  · exact h'

theorem of_token {m₁ : Mark} (h : Occurs m x y (m₁.token ++ b)) :
    (m = m₁ ∧ x = [] ∧ y = b) ∨ ∃ x', Occurs m x' y b ∧ x = m₁.token ++ x' := by
  rcases h.of_append (.mark (Nat.zero_le _)) with ⟨y', ⟨heq, hx⟩, rfl⟩ | h'
  · have hnil : m₁.token = m₁.token ++ [] := (List.append_nil _).symm
    rw [hnil] at heq
    cases hx with
    | nil =>
      obtain ⟨rfl, rfl⟩ := token_append_inj heq
      exact .inl ⟨rfl, rfl, rfl⟩
    | char hd _ => exact absurd heq.symm (cons_ne_token hd)
    | @token m₂ x _ _ =>
      rw [List.append_assoc] at heq
      obtain ⟨_, hrest⟩ := token_append_inj heq
      simp [Mark.token, tokenOf] at hrest
  · exact .inr h'

theorem of_mark {m₁ : Mark} (h : Occurs m x y m₁.token) : m = m₁ ∧ x = [] ∧ y = [] := by
  rw [← List.append_nil m₁.token] at h
  rcases h.of_token with h | ⟨x', h', _⟩
  · exact h
  · exact absurd h'.mem_marks (by simp)

end Occurs

/-! ## Tame code -/

/-- The code points of white space. -/
def spaceCodes : List Nat :=
  [9, 10, 11, 12, 13, 0x1C, 0x1D, 0x1E, 0x1F, 0x20, 0x85, 0xA0, 0x1680, 0x2000, 0x2001, 0x2002,
   0x2003, 0x2004, 0x2005, 0x2006, 0x2007, 0x2008, 0x2009, 0x200A, 0x2028, 0x2029, 0x202F, 0x205F,
   0x3000]

theorem mem_spaceCodes {c : Char} (h : isSpace c = true) : c.toNat ∈ spaceCodes := by
  simp only [isSpace, Bool.or_eq_true, Bool.and_eq_true, decide_eq_true_eq, beq_iff_eq] at h
  simp only [spaceCodes, List.mem_cons, List.not_mem_nil, or_false]
  omega

set_option maxRecDepth 2000 in
/-- A break is in no word. -/
theorem isWord_of_isBreak {c : Char} (h : isBreak c = true) : isWord c = false := by
  rw [isBreak, Bool.or_eq_true] at h
  rcases h with h | h
  · have key : ∀ n ∈ spaceCodes, isWord (Char.ofNat n) = false := by decide
    rw [← Char.ofNat_toNat c]
    exact key _ (mem_spaceCodes h)
  · simp only [isOperator, List.contains_iff_mem] at h
    have key : ∀ c ∈ ['<', '>', '=', '!', '&', '+', '-'], isWord c = false := by decide
    exact key c h

/-- No word touches the token of an error phrase. -/
def Calm (t : Text) : Prop :=
  ∀ x y, Occurs (.kind .resume) x y t → wordAt x.getLast? = false ∧ wordAt y.head? = false

/-- A text that starts with neither a word nor an error phrase. -/
def Starts (t : Text) : Prop :=
  wordAt t.head? = false ∧ ¬ (Mark.kind .resume).token <+: t

theorem starts_of_head {t : Text} (h : (t.head?).all isBreak = true) : Starts t := by
  cases t with
  | nil => exact ⟨rfl, by simp [Mark.token, tokenOf]⟩
  | cons c t =>
    refine ⟨isWord_of_isBreak h, ?_⟩
    rintro ⟨u, hu⟩
    exact absurd hu.symm (cons_ne_token (ne_nul_of_isBreak h))

theorem calm_nul_free {t : Text} (h : '\x00' ∉ t) : Calm t := by
  intro x y hxy
  have := hxy.mem_marks
  rw [marks_nul_free h] at this
  cases this

theorem wordAt_getLast_append {a x : Text} (h : wordAt (a ++ x).getLast? = false) :
    wordAt x.getLast? = false := by
  rw [List.getLast?_append] at h
  cases hx : x.getLast? with
  | none => rfl
  | some c =>
    rw [hx] at h
    exact h

theorem wordAt_head_append {y b : Text} (h : wordAt (y ++ b).head? = false) :
    wordAt y.head? = false := by
  cases y with
  | nil => rfl
  | cons c y => exact h

theorem Calm.left {a b : Text} (h : Calm (a ++ b)) : Calm a := by
  intro x y hxy
  obtain ⟨hx, hy⟩ := h x (y ++ b) (hxy.append_right b)
  exact ⟨hx, wordAt_head_append hy⟩

theorem Calm.right {a b : Text} (ha : Sound 0 a) (h : Calm (a ++ b)) : Calm b := by
  intro x y hxy
  obtain ⟨hx, hy⟩ := h (a ++ x) y (hxy.append_left ha)
  exact ⟨wordAt_getLast_append hx, hy⟩

theorem Calm.append {a b : Text} (ha : Sound 0 a) (hca : Calm a) (hcb : Calm b)
    (hb : Starts b) : Calm (a ++ b) := by
  intro x y hxy
  rcases hxy.of_append ha with ⟨y', h', rfl⟩ | ⟨x', h', rfl⟩
  · obtain ⟨hx, hy⟩ := hca x y' h'
    refine ⟨hx, ?_⟩
    cases y' with
    | nil => exact hb.1
    | cons c y' => exact hy
  · obtain ⟨hx, hy⟩ := hcb x' y h'
    refine ⟨?_, hy⟩
    cases x' with
    | nil => exact absurd ⟨y, h'.eq.symm⟩ hb.2
    | cons c x' =>
      rw [List.getLast?_append]
      rw [List.getLast?_cons] at hx ⊢
      exact hx

theorem Calm.nul_free_append {a b : Text} (ha : '\x00' ∉ a)
    (hl : wordAt a.getLast? = false) (hb : Calm b) : Calm (a ++ b) := by
  intro x y hxy
  obtain ⟨x', h', rfl⟩ := hxy.of_nul_free_append ha
  obtain ⟨hx, hy⟩ := hb x' y h'
  refine ⟨?_, hy⟩
  rw [List.getLast?_append]
  cases hc : x'.getLast? with
  | none => simpa using hl
  | some c =>
    rw [hc] at hx
    exact hx

/-- Code of a line: whole tokens, none of a comment, and no word that touches an error phrase. -/
structure Tame (t : Text) : Prop where
  sound : Sound 0 t
  calm : Calm t
  plain : Mark.kind .remark ∉ marks t

namespace Tame

variable {a b t : Text}

theorem of_nul_free (h : '\x00' ∉ t) : Tame t where
  sound := .of_nul_free h
  calm := calm_nul_free h
  plain := by simp [marks_nul_free h]

theorem left (ha : Sound 0 a) (h : Tame (a ++ b)) : Tame a where
  sound := ha
  calm := h.calm.left
  plain hm := h.plain (by rw [marks_append ha]; exact List.mem_append_left _ hm)

theorem right (ha : Sound 0 a) (h : Tame (a ++ b)) : Tame b where
  sound := Sound.cancel ha h.sound
  calm := h.calm.right ha
  plain hm := h.plain (by rw [marks_append ha]; exact List.mem_append_right _ hm)

theorem append (ha : Tame a) (hb : Tame b) (hw : Starts b) : Tame (a ++ b) where
  sound := ha.sound.append hb.sound
  calm := ha.calm.append ha.sound hb.calm hw
  plain hm := by
    rw [marks_append ha.sound] at hm
    rcases List.mem_append.mp hm with hm | hm
    · exact ha.plain hm
    · exact hb.plain hm

end Tame

/-- Whether error phrases stand free can be told from the beads. -/
theorem calm_beads {t : Text} (ht : Sound 0 t) : Calm t ↔ ∀ b ∈ beads t, Calm b := by
  induction t using bead_induction with
  | nil => simp [calm_nul_free]
  | skip c t hc ih =>
    have hnul : '\x00' ∉ [c] := by simpa using Ne.symm (ne_nul_of_isBreak hc)
    have hcons : Calm ([c] ++ t) ↔ Calm t :=
      ⟨Calm.right (.of_nul_free hnul), Calm.nul_free_append hnul (isWord_of_isBreak hc)⟩
    rw [beads_break_cons hc]
    rw [List.singleton_append] at hcons
    rw [hcons, ih (ht.tail (ne_nul_of_isBreak hc))]
    split <;> simp [calm_nul_free hnul]
  | run w t hne hw hhead ih =>
    obtain ⟨hs, hr⟩ := Sound.split (clean_of_head hhead) ht
    rw [beads_append (loose_of_head hhead), beads_run hne hw]
    simp only [List.cons_append, List.nil_append, List.mem_cons, forall_eq_or_imp]
    rw [← ih hr]
    exact ⟨fun h => ⟨h.left, h.right hs⟩,
      fun h => h.1.append hs h.2 (starts_of_head hhead)⟩

/-- White space and operators may be moved. -/
theorem Tame.of_beads {s t : Text} (hb : beads s = beads t) (hq : squeezed s = squeezed t)
    (hs : Tame s) : Tame t where
  sound := sound_of_beads hb hs.sound
  calm := by
    rw [calm_beads (sound_of_beads hb hs.sound), ← hb]
    exact (calm_beads hs.sound).mp hs.calm
  plain := by
    rw [← marks_of_squeezed hs.sound (sound_of_beads hb hs.sound) hq]
    exact hs.plain

/-! ## Lines as they are left -/

theorem occurs_of_mem_marks {m : Mark} {t : Text} (ht : Sound 0 t) (hm : m ∈ marks t) :
    ∃ x y, Occurs m x y t := by
  induction ht with
  | nil => cases hm
  | @char c t hc _ ih =>
    rw [marks_char hc] at hm
    obtain ⟨x, y, rfl, hx⟩ := ih hm
    exact ⟨c :: x, y, rfl, .char hc hx⟩
  | @token m₁ t h₁ _ ih =>
    rw [marks_token] at hm
    rcases List.mem_cons.mp hm with rfl | hm
    · exact ⟨[], t, rfl, .nil⟩
    · obtain ⟨x, y, rfl, hx⟩ := ih hm
      exact ⟨m₁.token ++ x, y, by simp, .token h₁ hx⟩

/-- A line: whole tokens, error phrases that no word touches, and a comment at the end only. -/
structure Orderly (t : Text) : Prop where
  sound : Sound 0 t
  calm : Calm t
  last : ∀ x y, Occurs (.kind .remark) x y t → y = []

theorem Tame.orderly {t : Text} (h : Tame t) : Orderly t where
  sound := h.sound
  calm := h.calm
  last _ _ hxy := absurd hxy.mem_marks h.plain

namespace Orderly

variable {a b t : Text}

theorem right (ha : Sound 0 a) (h : Orderly (a ++ b)) : Orderly b where
  sound := Sound.cancel ha h.sound
  calm := h.calm.right ha
  last x y hxy := h.last (a ++ x) y (hxy.append_left ha)

/-- What stands in front of something on a line is code. -/
theorem left (ha : Sound 0 a) (hb : b ≠ []) (h : Orderly (a ++ b)) : Tame a where
  sound := ha
  calm := h.calm.left
  plain hm := by
    obtain ⟨x, y, hxy⟩ := occurs_of_mem_marks ha hm
    have := h.last x _ (hxy.append_right b)
    exact hb (List.append_eq_nil_iff.mp this).2

theorem append (ha : Tame a) (hb : Orderly b) (hw : Starts b) : Orderly (a ++ b) where
  sound := ha.sound.append hb.sound
  calm := ha.calm.append ha.sound hb.calm hw
  last x y hxy := by
    rcases hxy.of_append ha.sound with ⟨y', h', _⟩ | ⟨x', h', _⟩
    · exact absurd h'.mem_marks ha.plain
    · exact hb.last x' y h'

theorem nul_free_append (ha : '\x00' ∉ a) (hl : wordAt a.getLast? = false) (hb : Orderly b) :
    Orderly (a ++ b) where
  sound := (Sound.of_nul_free ha).append hb.sound
  calm := hb.calm.nul_free_append ha hl
  last x y hxy := by
    obtain ⟨x', h', _⟩ := hxy.of_nul_free_append ha
    exact hb.last x' y h'

/-- A line is code, with a comment behind it or none. -/
theorem cases (h : Orderly t) :
    Tame t ∨ ∃ code, Tame code ∧ t = code ++ (Mark.kind .remark).token := by
  by_cases hm : Mark.kind .remark ∈ marks t
  · obtain ⟨x, y, hxy⟩ := occurs_of_mem_marks h.sound hm
    obtain rfl := h.last x y hxy
    obtain ⟨heq, hx⟩ := hxy
    rw [List.append_nil] at heq
    subst heq
    exact .inr ⟨x, h.left hx (by simp [Mark.token, tokenOf]), rfl⟩
  · exact .inl ⟨h.sound, h.calm, hm⟩

end Orderly

/-- The last letter that a phrase takes is no blank. -/
theorem dropBlankPhrase?_last {ws : List Text} {t rest : Text} (hne : ws ≠ [])
    (hw : ∀ w ∈ ws, w ≠ [] ∧ InPhrase w) (h : dropBlankPhrase? ws t = some rest) :
    ∃ s c, t = s ++ c :: rest ∧ isSpace c = false := by
  fun_induction dropBlankPhrase? ws t with
  | case1 t => exact absurd rfl hne
  | case2 w t =>
    obtain ⟨hwne, hin⟩ := hw w List.mem_cons_self
    obtain ⟨s, rfl, hmap⟩ := dropWord?_phrase hin h
    rcases List.eq_nil_or_concat s with rfl | ⟨s, c, rfl⟩
    · simp only [List.map_nil] at hmap
      exact absurd (List.map_eq_nil_iff.mp hmap.symm) hwne
    · refine ⟨s, c, by simp, ?_⟩
      have hmem : squeezed [c] ∈ w.map fun l => [l.toLower] := by
        rw [← hmap]
        exact List.mem_map_of_mem (by simp)
      obtain ⟨l, _, hl⟩ := List.mem_map.mp hmem
      cases hc : isSpace c with
      | false => rfl
      | true =>
        rw [squeezed_space hc] at hl
        cases hl
  | case3 w ws t hws c after hafter hc ih =>
    obtain ⟨s, rfl, hmap⟩ := dropWord?_phrase (hw w List.mem_cons_self).2 hafter
    have hne' : ws ≠ [] := by
      rintro rfl
      exact hws rfl
    obtain ⟨u, d, hu, hd⟩ := ih hne' (fun v hv => hw v (List.mem_cons_of_mem _ hv)) h
    refine ⟨s ++ c :: (after.takeWhile isBlank ++ u), d, ?_, hd⟩
    simp [← hu]
  | case4 => cases h
  | case5 => cases h

set_option maxRecDepth 2000 in
theorem isWord_of_lower {c : Char} (h : isNameChar (lowerChar c) = true) : isWord c = true := by
  by_cases hc : c.toNat < 0x80
  · have key : ∀ c : Char, c.toNat < 0x80 → isNameChar (lowerChar c) = true → isWord c = true :=
      of_ascii (by decide)
    exact key c hc h
  · rcases lowerChar_of_not_ascii (c := c) (by omega) with ⟨hge, _⟩ | ⟨rfl, _⟩ | ⟨rfl, _⟩
    · have := isNameChar_toNat h
      omega
    · decide
    · decide

/-- No word touches a match of the phrase. -/
theorem free_resume {line h g : Text} {pre more : List (Text × Text)}
    (hs : (cutResume line).rest = pre ++ (h, g) :: more) :
    wordAt (Weave.mk (cutResume line).head pre).source.getLast? = false ∧
      wordAt (Weave.mk g more).source.head? = false := by
  have hwords : words resumePhrase =
      ["On".toList, "Error".toList, "Resume".toList, "Next".toList] := by decide
  have hin : ∀ w ∈ words resumePhrase, w ≠ [] ∧ InPhrase w := by
    rw [hwords]
    unfold InPhrase
    decide
  obtain ⟨u, n, hn, _, hfollow⟩ := rest_weaveFrom hs
  have hdef : cutResume line = resumePattern.weaveFrom 0 none line := rfl
  rw [hfollow, hdef]
  rw [List.take_zero, List.nil_append, Option.or_none] at hn
  generalize (Weave.mk (resumePattern.weaveFrom 0 none line).head pre).source.getLast? = b at hn ⊢
  simp only [resumePattern, Pattern.wholeWords] at hn
  split at hn
  case isFalse => cases hn
  rename_i hbefore
  rw [Option.filter_eq_some_iff] at hn
  obtain ⟨rest, hrest, rfl⟩ := Option.map_eq_some_iff.mp hn.1
  -- the phrase starts with an o and ends with a t, so no word runs over either end
  refine ⟨?_, ?_⟩
  · obtain ⟨a, b, more, rfl, ha, _⟩ := phrase_letters (hwords ▸ hrest)
    rw [atBoundary, List.head?_cons, wordAt.eq_2 a, isWord_of_lower (by rw [ha]; decide)] at hbefore
    simpa using hbefore
  · obtain ⟨s₁, hs₁, hsq⟩ := dropBlankPhrase?_squeezed (fun w hw => (hin w hw).2) hrest
    obtain ⟨s, c, rfl, hc⟩ := dropBlankPhrase?_last (by rw [hwords]; simp) hin hrest
    have hlen : (s ++ c :: rest).length - rest.length = (s ++ [c]).length := by
      simp
      omega
    have hcons : s ++ c :: rest = (s ++ [c]) ++ rest := by simp
    obtain rfl : s₁ = s ++ [c] := by
      rw [hcons] at hs₁
      exact (List.append_cancel_right hs₁).symm
    have hlast : lowerChar c = 't' := by
      rw [squeezed_append, hwords] at hsq
      have := congrArg List.getLast? hsq
      rw [squeezed_cons, hc] at this
      apply lowerChar_of_squeezed (by decide)
      rw [squeezed_cons, hc]
      simpa using this
    have hb := hn.2
    rw [hlen, hcons, List.take_left, List.drop_left, List.getLast?_append, List.getLast?_singleton,
      Option.some_or, Option.some_or, atBoundary, wordAt.eq_2 c,
      isWord_of_lower (by rw [hlast]; decide)] at hb
    rw [hlen, hcons, List.drop_left]
    simpa using hb

theorem head_mask {k : Kind} {g : Text} {more : List (Text × Text)}
    (h : wordAt (Weave.mk g more).source.head? = false) :
    wordAt (Lifting.mask k ⟨g, more⟩).head? = false := by
  cases g with
  | cons c g => exact h
  | nil =>
    cases more with
    | nil => rfl
    | cons p more =>
      rw [mask_cons]
      rfl

/-- Tokens for error phrases stand free where the phrases did. -/
theorem calm_mask_resume {w : Weave} (hw : ∀ g ∈ w.gaps, Sound 1 g)
    (hf : ∀ pre h g more, w.rest = pre ++ (h, g) :: more →
      wordAt (Weave.mk w.head pre).source.getLast? = false ∧
        wordAt (Weave.mk g more).source.head? = false) :
    Calm (Lifting.mask .resume w) := by
  obtain ⟨head, rest⟩ := w
  have hnone : ∀ {g : Text}, Sound 1 g → ∀ x y, ¬ Occurs (.kind .resume) x y g := by
    intro g hg x y hxy
    exact not_mem_marks (k := .resume) hg hxy.mem_marks
  induction rest generalizing head with
  | nil =>
    intro x y hxy
    have hmask : Lifting.mask .resume ⟨head, []⟩ = head := by simp [Lifting.mask, Weave.replace]
    rw [hmask] at hxy
    exact absurd hxy (hnone (hw head List.mem_cons_self) x y)
  | cons p rest ih =>
    have hsound := hw head List.mem_cons_self
    intro x y hxy
    rw [mask_cons] at hxy
    rcases hxy.of_append (hsound.mono (Nat.zero_le _)) with ⟨y', h', _⟩ | ⟨x', h', rfl⟩
    · exact absurd h' (hnone hsound _ _)
    · rcases h'.of_token with ⟨_, rfl, rfl⟩ | ⟨x'', h'', rfl⟩
      · obtain ⟨hbefore, hafter⟩ := hf [] p.1 p.2 rest rfl
        refine ⟨?_, head_mask hafter⟩
        simpa [Weave.source] using hbefore
      · have hmore : ∀ pre h g more, rest = pre ++ (h, g) :: more →
            wordAt (Weave.mk p.2 pre).source.getLast? = false ∧
              wordAt (Weave.mk g more).source.head? = false := by
          intro pre h g more hpre
          obtain ⟨hbefore, hafter⟩ := hf (p :: pre) h g more (by rw [hpre]; rfl)
          refine ⟨?_, hafter⟩
          have hsource : (Weave.mk head (p :: pre)).source =
              (head ++ p.1) ++ (Weave.mk p.2 pre).source := by
            simp [Weave.source]
          rw [hsource] at hbefore
          exact wordAt_getLast_append hbefore
        obtain ⟨hx, hy⟩ := ih p.2 (fun g hg => hw g (List.mem_cons_of_mem _ hg)) hmore x'' y h''
        refine ⟨?_, hy⟩
        rw [List.getLast?_append, List.getLast?_append]
        cases hc : x''.getLast? with
        | none =>
          have hlast : (Mark.kind .resume).token.getLast? = some '\x00' := by decide
          rw [hlast]
          rfl
        | some c =>
          rw [hc] at hx
          exact hx

/-- Tokens for error phrases leave the comment at the end. -/
theorem last_mask_resume {w : Weave} (hw : SoundCut 1 w) (hne : ∀ h ∈ w.hits, h ≠ [])
    (hl : ∀ x y, Occurs (.kind .remark) x y w.source → y = []) :
    ∀ x y, Occurs (.kind .remark) x y (Lifting.mask .resume w) → y = [] := by
  obtain ⟨head, rest⟩ := w
  induction rest generalizing head with
  | nil =>
    have hmask : Lifting.mask .resume ⟨head, []⟩ = (Weave.mk head []).source := by
      simp [Lifting.mask, Weave.replace, Weave.source]
    rwa [hmask]
  | cons p rest ih =>
    have hhead : Sound 0 head := hw.head.mono (Nat.zero_le _)
    have hhit : Sound 0 p.1 := hw.tail.1.mono (Nat.zero_le _)
    have hsource : (Weave.mk head (p :: rest)).source =
        head ++ (p.1 ++ (Weave.mk p.2 rest).source) := by
      simp [Weave.source]
    rw [hsource] at hl
    intro x y hxy
    rw [mask_cons] at hxy
    rcases hxy.of_append hhead with ⟨y', h', _⟩ | ⟨x', h', _⟩
    · -- a comment in front of a phrase would not be the last thing on the line
      have := hl x _ (h'.append_right (p.1 ++ (Weave.mk p.2 rest).source))
      simp only [List.append_eq_nil_iff] at this
      exact absurd this.2.1 (hne p.1 List.mem_cons_self)
    · rcases h'.of_token with ⟨hm, _⟩ | ⟨x'', h'', _⟩
      · cases hm
      · refine ih p.2 hw.tail.2 (fun h hh => hne h (List.mem_cons_of_mem _ hh)) ?_ x'' y h''
        exact fun x y h => hl _ y ((h.append_left hhit).append_left hhead)

/-- What putting comments aside leaves of a line has a comment at the end only. -/
theorem last_mask_remark {line : Text} (h : Sound 2 line) :
    ∀ x y, Occurs (.kind .remark) x y (Lifting.mask .remark (cutRemark line)) → y = [] := by
  have hcode := (sound_splitRemark (by omega) h).1
  have hnone : ∀ x y, ¬ Occurs (.kind .remark) x y (splitRemark line).1 :=
    fun x y hxy => not_mem_marks (k := .remark) hcode hxy.mem_marks
  intro x y hxy
  rcases cutRemark_eq line with ⟨he, _⟩ | ⟨he, _⟩
  · rw [he] at hxy
    simp only [Lifting.mask, Weave.replace, List.flatMap_nil, List.append_nil] at hxy
    exact absurd hxy (hnone x y)
  · rw [he, mask_cons] at hxy
    rcases hxy.of_append (hcode.mono (Nat.zero_le _)) with ⟨y', h', _⟩ | ⟨x', h', _⟩
    · exact absurd h' (hnone x y')
    · rcases h'.of_token with ⟨_, _, rfl⟩ | ⟨x'', h'', _⟩
      · rfl
      · have := h''.mem_marks
        simp [Lifting.mask, Weave.replace] at this

/-- The lines that putting aside leaves. -/
theorem orderly_liftedLines {raw : Text} (h : '\x00' ∉ raw) :
    ∀ line ∈ (Lifting.result raw).lines, Orderly line := by
  intro line hline
  rw [Lifting.lines_result] at hline
  obtain ⟨w, hw, rfl⟩ := List.mem_map.mp hline
  have hcut := soundCut_resumes h w hw
  obtain ⟨r, hr, rfl⟩ := List.mem_map.mp hw
  obtain ⟨v, hv, rfl⟩ := List.mem_map.mp hr
  obtain ⟨l, hl, rfl⟩ := List.mem_map.mp hv
  obtain ⟨u, hu, rfl⟩ := List.mem_map.mp hl
  have hsound : Sound 2 (Lifting.mask .string u) := (soundCut_strings h u hu).mask (k := .string)
  have hmask := sound_mask (k := .resume) hcut.gaps
  refine ⟨hmask, ?_, ?_⟩
  · exact calm_mask_resume hcut.gaps fun pre h g more hs => free_resume hs
  · refine last_mask_resume hcut ?_ ?_
    · rintro h hh rfl
      have := (hit_resume hh).1
      revert this
      decide
    · rw [source_cutResume]
      exact last_mask_remark hsound

end VbTidy
