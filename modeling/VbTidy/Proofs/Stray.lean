import VbTidy.Proofs.Marks

/-
Where a stray is. A stray is found at one place of a text: the text is read from the left, character
by character and token by token, and at each token there is the question whether the name and
another token follow (`stray_token`). A character of no name keeps what is on either side of it
apart (`stray_break`), so spaces, operators and line breaks cut a text into parts that can be looked
at one by one. Filling the tokens of a kind neither hides a stray of a later kind nor makes one,
unless it comes with a literal (`stray_fill`).
-/
namespace VbTidy

variable {k : Kind}

/-! ## Reading from the left -/

theorem cons_ne_token {c : Char} (hc : c ≠ '\x00') {t u : Text} {m : Mark} :
    c :: t ≠ m.token ++ u := by
  rw [Mark.token_append]
  exact fun h => hc (List.cons.inj h).1

theorem stray_nil : ¬ Stray k [] := by
  rintro ⟨x, m, m', y, h, _⟩
  simp [Mark.token, tokenOf] at h

theorem stray_char {c : Char} (hc : c ≠ '\x00') {t : Text} : Stray k (c :: t) ↔ Stray k t := by
  refine ⟨?_, Stray.cons hc⟩
  rintro ⟨x, m, m', y, h, hx, hy, hrest⟩
  cases hx with
  | nil =>
    rw [List.nil_append, List.append_assoc, List.append_assoc] at h
    exact absurd h (cons_ne_token hc)
  | @char d x hd hx =>
    obtain ⟨rfl, htail⟩ := List.cons.inj h
    exact ⟨x, m, m', y, htail, hx, hy, hrest⟩
  | @token m₀ x _ hx =>
    simp only [List.append_assoc] at h
    exact absurd h (cons_ne_token hc)

/-- The name of a kind and a token that is not put back before it. -/
def NameThenToken (k : Kind) (t : Text) : Prop :=
  ∃ (m : Mark) (y : Text), t = k.name ++ m.token ++ y ∧ k.turn ≤ m.turn ∧ Sound 0 y

theorem stray_token {m : Mark} {t : Text} :
    Stray k (m.token ++ t) ↔
      (m ≠ .kind k ∧ k.turn ≤ m.turn ∧ NameThenToken k t) ∨ Stray k t := by
  constructor
  · rintro ⟨x, m₁, m₂, y, h, hx, hy, hm, ht₁, ht₂⟩
    cases hx with
    | nil =>
      rw [List.nil_append, List.append_assoc, List.append_assoc] at h
      obtain ⟨rfl, rfl⟩ := token_append_inj h
      exact .inl ⟨hm, ht₁, m₂, y, by simp, ht₂, hy⟩
    | @char d x hd hx =>
      simp only [List.cons_append] at h
      exact absurd h.symm (cons_ne_token hd)
    | @token m₀ x _ hx =>
      simp only [List.append_assoc] at h
      obtain ⟨rfl, rfl⟩ := token_append_inj h
      exact .inr ⟨x, m₁, m₂, y, by simp, hx, hy, hm, ht₁, ht₂⟩
  · rintro (⟨hm, ht, m', y, rfl, ht', hy⟩ | h)
    · exact ⟨[], m, m', y, by simp, .nil, hy, hm, ht, ht'⟩
    · exact h.token_append m

theorem not_stray_nul_free {t : Text} (h : '\x00' ∉ t) : ¬ Stray k t := by
  rintro ⟨x, m, m', y, rfl, _⟩
  simp [Mark.token, tokenOf] at h

/-! ## Parts of a text -/

theorem Stray.append_left {a b : Text} (ha : Sound 0 a) (h : Stray k b) : Stray k (a ++ b) := by
  obtain ⟨x, m, m', y, rfl, hx, hy, hrest⟩ := h
  exact ⟨a ++ x, m, m', y, by simp, ha.append hx, hy, hrest⟩

theorem Stray.append_right {a b : Text} (hb : Sound 0 b) (h : Stray k a) : Stray k (a ++ b) := by
  obtain ⟨x, m, m', y, rfl, hx, hy, hrest⟩ := h
  exact ⟨x, m, m', y ++ b, by simp, hx, hy.append hb, hrest⟩

/-- The name and a token stand in the first of two texts, or reach over into the second. -/
theorem nameThenToken_append {a z : Text} (ha : Sound 0 a) (h : NameThenToken k (a ++ z)) :
    NameThenToken k a ∨
      ∃ v m y, k.name = a ++ v ∧ z = v ++ (Mark.token m ++ y) ∧ k.turn ≤ m.turn := by
  obtain ⟨m, y, h, ht, _⟩ := h
  rw [List.append_assoc] at h
  rcases List.append_eq_append_iff.mp h with ⟨v, hv, hz⟩ | ⟨v, hv, hz⟩
  · exact .inr ⟨v, m, y, hv, hz, ht⟩
  · subst hv
    have hsound := Sound.cancel (.of_nul_free (n := 0) (nul_not_mem_name (.kind k))) ha
    cases hsound with
    | nil => exact .inr ⟨[], m, y, by simp, by simpa using hz.symm, ht⟩
    | char hd _ =>
      rw [List.cons_append] at hz
      exact absurd hz.symm (cons_ne_token hd)
    | @token m' v _ hv =>
      rw [List.append_assoc] at hz
      obtain ⟨rfl, _⟩ := token_append_inj hz
      exact .inl ⟨m, v, by simp, ht, hv⟩

/-- A character of no name keeps strays apart. -/
theorem stray_break {a b : Text} {c : Char} (ha : Sound 0 a) (hb : Sound 0 b) (hc : c ≠ '\x00')
    (hn : c ∉ k.name) : Stray k (a ++ c :: b) ↔ Stray k a ∨ Stray k b := by
  constructor
  · intro h
    induction ha with
    | nil => exact .inr ((stray_char hc).mp h)
    | @char d a hd ha ih =>
      rw [List.cons_append, stray_char hd] at h
      rw [stray_char hd]
      exact ih h
    | @token m a _ ha ih =>
      rw [List.append_assoc, stray_token] at h
      rcases h with ⟨hm, ht, hname⟩ | h
      · rcases nameThenToken_append ha hname with hname | ⟨v, m', y, hv, hcb, _⟩
        · exact .inl (stray_token.mpr (.inl ⟨hm, ht, hname⟩))
        · cases v with
          | nil => exact absurd hcb (cons_ne_token hc)
          | cons d v =>
            obtain ⟨rfl, _⟩ := List.cons.inj hcb
            exact absurd (by rw [hv]; simp) hn
      · exact (ih h).imp_left fun h => h.token_append m
  · rintro (h | h)
    · exact h.append_right (.char hc hb)
    · exact (h.cons hc).append_left ha

theorem stray_nul_free_append {l b : Text} (hl : '\x00' ∉ l) : Stray k (l ++ b) ↔ Stray k b := by
  induction l with
  | nil => rfl
  | cons c l ih =>
    rw [List.mem_cons, not_or] at hl
    rw [List.cons_append, stray_char (Ne.symm hl.1), ih hl.2]

theorem stray_append_nul_free {a l : Text} (ha : Sound 0 a) (hl : '\x00' ∉ l) :
    Stray k (a ++ l) ↔ Stray k a := by
  refine ⟨fun h => ?_, Stray.append_right (.of_nul_free hl)⟩
  induction ha with
  | nil => exact absurd h (not_stray_nul_free hl)
  | @char d a hd ha ih =>
    rw [List.cons_append, stray_char hd] at h
    exact (ih h).cons hd
  | @token m a _ ha ih =>
    rw [List.append_assoc, stray_token] at h
    rcases h with ⟨hm, ht, hname⟩ | h
    · rcases nameThenToken_append ha hname with hname | ⟨v, m', y, _, hv, _⟩
      · exact stray_token.mpr (.inl ⟨hm, ht, hname⟩)
      · have : '\x00' ∈ l := by rw [hv]; simp [Mark.token_append]
        exact absurd this hl
    · exact (ih h).token_append m

/-! ## Filling -/

/-- Nothing, or a text that starts with a character that is in no token and not in the name. -/
def Opens (k : Kind) (t : Text) : Prop :=
  ∀ c, t.head? = some c → c ≠ '\x00' ∧ c ∉ k.name

/-- No stray reaches into a text that opens so. -/
theorem stray_append_opens {a b : Text} (ha : Sound 0 a) (hb : Sound 0 b) (ho : Opens k b) :
    Stray k (a ++ b) ↔ Stray k a ∨ Stray k b := by
  cases b with
  | nil => simp [stray_nil]
  | cons c b =>
    obtain ⟨hc, hn⟩ := ho c rfl
    rw [stray_break ha (hb.tail hc) hc hn, stray_char hc]

/-- No stray reaches over a token of a kind that is put back before. -/
theorem stray_append_token {m : Mark} (hm : m.turn < k.turn) {a b : Text} (ha : Sound 0 a)
    (hb : Sound 0 b) : Stray k (a ++ (m.token ++ b)) ↔ Stray k a ∨ Stray k b := by
  have hrest : Stray k (m.token ++ b) ↔ Stray k b := by
    rw [stray_token]
    refine ⟨?_, .inr⟩
    rintro (⟨_, ht, _⟩ | h)
    · omega
    · exact h
  constructor
  · intro h
    induction ha with
    | nil => exact .inr (hrest.mp h)
    | char hd _ ih =>
      rw [List.cons_append, stray_char hd] at h
      rw [stray_char hd]
      exact ih h
    | @token m₁ a _ ha ih =>
      rw [List.append_assoc, stray_token] at h
      rcases h with ⟨hm₁, ht₁, hname⟩ | h
      · rcases nameThenToken_append ha hname with hname | ⟨v, m₂, y, hv, hz, ht⟩
        · exact .inl (stray_token.mpr (.inl ⟨hm₁, ht₁, hname⟩))
        · -- the name does not go on over a NUL, and the token is not the one of a stray
          cases v with
          | nil =>
            obtain ⟨rfl, _⟩ := token_append_inj hz
            omega
          | cons d v =>
            rw [Mark.token_append, List.cons_append] at hz
            obtain ⟨rfl, _⟩ := List.cons.inj hz
            have hmem : '\x00' ∈ k.name := by rw [hv]; simp
            exact absurd hmem (nul_not_mem_name (.kind k))
      · exact (ih h).imp_left fun h => h.token_append m₁
  · rintro (h | h)
    · exact h.append_right (.token (Nat.zero_le _) hb)
    · exact (hrest.mpr h).append_left ha

/-- A literal that keeps what is on either side of it apart: it opens with a character of its own,
and strays in it and after it do not join if the text after it is as `after` says. -/
structure Shuts (k : Kind) (after : Text → Prop) (l : Text) : Prop where
  sound : Sound 0 l
  ne_nil : l ≠ []
  opens : Opens k l
  closes : ∀ b, Sound 0 b → after b → (Stray k (l ++ b) ↔ Stray k l ∨ Stray k b)

/-- Putting back a kind neither hides a stray of a later kind nor makes one that is not in a
literal. -/
theorem stray_fillWith {j : Kind} (hj : j.turn < k.turn) {w : Weave} {ls : List Text}
    (after : Text → Prop) (hw : ∀ g ∈ w.gaps, Sound (j.turn + 1) g)
    (hl : ∀ l ∈ ls, Shuts k after l) (hlen : ls.length = w.rest.length)
    (hafter : ∀ p more ms, p :: more <:+ w.rest → after ((Weave.mk p.2 more).fillWith ms)) :
    Stray k (w.fillWith ls) ↔ Stray k (Lifting.mask j w) ∨ ∃ l ∈ ls, Stray k l := by
  obtain ⟨head, rest⟩ := w
  induction rest generalizing head ls with
  | nil =>
    obtain rfl : ls = [] := List.eq_nil_of_length_eq_zero hlen
    simp [Weave.fillWith, Lifting.mask, Weave.replace]
  | cons p rest ih =>
    obtain ⟨l, ls, rfl⟩ := List.exists_cons_of_length_pos (l := ls) (by simp at hlen; omega)
    have hhead := hw head List.mem_cons_self
    have hw' : ∀ g ∈ (Weave.mk p.2 rest).gaps, Sound (j.turn + 1) g :=
      fun g hg => hw g (List.mem_cons_of_mem _ hg)
    have hl' : ∀ x ∈ ls, Shuts k after x := fun x hx => hl x (List.mem_cons_of_mem _ hx)
    have hmore := ih hl' p.2 hw' (by simpa using hlen)
      fun q more ms hq => hafter q more ms (hq.trans (List.suffix_cons p rest))
    have hfill : (Weave.mk head (p :: rest)).fillWith (l :: ls) =
        head ++ (l ++ (Weave.mk p.2 rest).fillWith ls) := by
      simp [Weave.fillWith]
    have hlit := hl l List.mem_cons_self
    have hsound : Sound 0 ((Weave.mk p.2 rest).fillWith ls) :=
      sound_fillWith (fun g hg => (hw' g hg).mono (Nat.zero_le _)) fun x hx => (hl' x hx).sound
    have hmask : Sound 0 (Lifting.mask j ⟨p.2, rest⟩) := (sound_mask hw').mono (Nat.zero_le _)
    have hopens : Opens k (l ++ (Weave.mk p.2 rest).fillWith ls) := by
      obtain ⟨d, l, rfl⟩ := List.exists_cons_of_ne_nil hlit.ne_nil
      exact hlit.opens
    rw [hfill, mask_cons, stray_append_opens (hhead.mono (Nat.zero_le _)) (hlit.sound.append hsound)
      hopens, stray_append_token hj (hhead.mono (Nat.zero_le _)) hmask,
      hlit.closes _ hsound (hafter p rest ls (List.suffix_refl _)), hmore]
    simp only [List.mem_cons, exists_eq_or_imp]
    grind

end VbTidy
