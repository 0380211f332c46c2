import VbTidy.Proofs.Lift

/-
One kind put back. Three facts about a cut that is filled with literals, each for a single kind: NUL
characters add up (`count_fillWith`); if the filled text is sound and no token reaches into a
literal, then the cut was made at real tokens only (`sound_gaps_of_fill`); and a cut at real tokens
is determined by the text, so two texts that agree apart from white space and letter case are cut at
the same places (`gaps_unique`).
-/
namespace VbTidy

namespace Weave

/-- A cut with a function applied to each text between its matches. -/
def mapGaps (f : Text → Text) (w : Weave) : Weave :=
  ⟨f w.head, w.rest.map fun p => (p.1, f p.2)⟩

@[simp] theorem gaps_mapGaps (f : Text → Text) (w : Weave) : (w.mapGaps f).gaps = w.gaps.map f := by
  simp [mapGaps, gaps]

theorem fillWith_hits (w : Weave) : w.fillWith w.hits = w.source := by
  simp [fillWith, hits, source, List.zip_map']

/-- What a filled cut is depends on the texts between the matches only. -/
theorem fillWith_congr {w v : Weave} (h : w.gaps = v.gaps) (ls : List Text) :
    w.fillWith ls = v.fillWith ls := by
  obtain ⟨h1, h2⟩ := List.cons.inj h
  rw [fillWith, fillWith, h1, h2]

theorem rest_length_of_gaps {w v : Weave} (h : w.gaps = v.gaps) :
    w.rest.length = v.rest.length := by
  have := congrArg List.length h
  simpa [gaps] using this

/-- What joining texts keeps holds of a filled cut if it holds of the pieces and of the literals. -/
theorem fillWith_induction {P : Text → Prop} (append : ∀ {s t}, P s → P t → P (s ++ t)) {w : Weave}
    {ls : List Text} (hw : ∀ g ∈ w.gaps, P g) (hl : ∀ l ∈ ls, P l) : P (w.fillWith ls) := by
  obtain ⟨head, rest⟩ := w
  have hhead := hw head List.mem_cons_self
  induction rest generalizing head ls with
  | nil => simpa [fillWith] using hhead
  | cons p rest ih =>
    cases ls with
    | nil => simpa [fillWith] using hhead
    | cons l ls =>
      have hfill : (Weave.mk head (p :: rest)).fillWith (l :: ls) =
          head ++ (l ++ (Weave.mk p.2 rest).fillWith ls) := by
        simp [fillWith]
      have hrest : ∀ g ∈ (Weave.mk p.2 rest).gaps, P g :=
        fun g hg => hw g (List.mem_cons_of_mem _ hg)
      have hmore := ih (fun l' hl' => hl l' (List.mem_cons_of_mem _ hl')) p.2 hrest
        (hrest _ List.mem_cons_self)
      rw [hfill]
      exact append hhead (append (hl l List.mem_cons_self) hmore)

/-- The same text in place of every match. -/
theorem replace_eq_fillWith (t : Text) (w : Weave) :
    w.replace (fun _ => t) = w.fillWith (List.replicate w.rest.length t) := by
  obtain ⟨head, rest⟩ := w
  simp only [replace, fillWith]
  congr 1
  induction rest with
  | nil => rfl
  | cons p rest ih => simp [List.replicate_succ, ih]

theorem squeezed_fillWith (ls : List Text) (w : Weave) :
    squeezed (w.fillWith ls) = (w.mapGaps squeezed).fillWith (ls.map squeezed) := by
  obtain ⟨head, rest⟩ := w
  simp only [fillWith, mapGaps, squeezed_append]
  congr 1
  induction rest generalizing ls with
  | nil => simp
  | cons p rest ih =>
    cases ls with
    | nil => simp
    | cons l ls => simp [ih ls]

/-- The occurrences of a character in a filled cut are those between the matches and those in the
literals. -/
theorem count_fillWith (c : Char) {ls : List Text} {w : Weave} (h : ls.length = w.rest.length) :
    (w.fillWith ls).count c = w.gaps.flatten.count c + ls.flatten.count c := by
  obtain ⟨head, rest⟩ := w
  simp only [fillWith, gaps, List.count_append, List.flatten_cons, Nat.add_assoc]
  congr 1
  induction rest generalizing ls with
  | nil =>
    obtain rfl : ls = [] := List.eq_nil_of_length_eq_zero h
    simp
  | cons p rest ih =>
    obtain ⟨l, ls, rfl⟩ := List.exists_cons_of_length_pos (l := ls) (by simp at h; omega)
    have := @ih ls (by simpa using h)
    simp only [List.map_cons, List.zip_cons_cons, List.flatMap_cons, List.count_append,
      List.flatten_cons, this]
    omega

end Weave

/-! ## Cuts at tokens -/

theorem Lifting.mask_eq (k : Kind) (w : Weave) :
    Lifting.mask k w = w.fillWith (List.replicate w.rest.length k.token) :=
  Weave.replace_eq_fillWith k.token w

/-- Tokens in place of the matches of a cut at tokens give the text back. -/
theorem mask_cutTokens (k : Kind) (t : Text) : Lifting.mask k (cutTokens k t) = t := by
  rw [cutTokens]
  induction t using Pattern.cut_induction k.token_ne_nil with
  | nil =>
    rw [Pattern.weave_nil k.token_ne_nil]
    rfl
  | hit t ih =>
    rw [Pattern.weave_hit k.token_ne_nil, Lifting.mask, Weave.replace_pushHit]
    exact congrArg (k.token ++ ·) ih
  | miss c t hc ih =>
    rw [Pattern.weave_miss hc, Lifting.mask, Weave.replace_push]
    exact congrArg (c :: ·) ih

/-- If the filled text is sound and no token reaches into a literal, the cut was made at tokens
only. -/
theorem sound_gaps_of_fill {n : Nat} {w : Weave} {ls : List Text} (hlen : ls.length = w.rest.length)
    (hl : ∀ l ∈ ls, Sound n l ∧ ∀ z, Sound.Clean n (l ++ z)) (h : Sound n (w.fillWith ls)) :
    ∀ g ∈ w.gaps, Sound n g := by
  obtain ⟨head, rest⟩ := w
  induction rest generalizing head ls with
  | nil =>
    intro g hg
    obtain rfl : g = head := by simpa [Weave.gaps] using hg
    simpa [Weave.fillWith] using h
  | cons p rest ih =>
    obtain ⟨l, ls, rfl⟩ := List.exists_cons_of_length_pos (l := ls) (by simp at hlen; omega)
    have hfill : (Weave.mk head (p :: rest)).fillWith (l :: ls) =
        head ++ (l ++ (Weave.mk p.2 rest).fillWith ls) := by
      simp [Weave.fillWith]
    rw [hfill] at h
    obtain ⟨hsound, hclean⟩ := hl l List.mem_cons_self
    obtain ⟨hhead, hrest⟩ := Sound.split (hclean _) h
    have hmore := ih (fun l' hl' => hl l' (List.mem_cons_of_mem _ hl')) p.2
      (by simpa using hlen) (Sound.cancel hsound hrest)
    intro g hg
    rcases List.mem_cons.mp hg with rfl | hg
    · exact hhead
    · exact hmore g hg

/-- A text with sound texts between its tokens is sound. -/
theorem sound_of_gaps {k : Kind} {t : Text} (h : ∀ g ∈ (cutTokens k t).gaps, Sound (k.turn + 1) g) :
    Sound k.turn t := by
  rw [← mask_cutTokens k t]
  exact sound_mask h

/-- Nothing, or a token of a kind and what follows it. -/
def AtToken (k : Kind) (t : Text) : Prop :=
  t = [] ∨ ∃ u, t = (Mark.kind k).token ++ u

theorem not_atToken_char {k : Kind} {c : Char} (hc : c ≠ '\x00') (t : Text) :
    ¬ AtToken k (c :: t) := by
  rintro (h | ⟨u, h⟩)
  · cases h
  · rw [Mark.token_append] at h
    exact hc (List.cons.inj h).1

theorem not_atToken_token {k : Kind} {m : Mark} (hm : k.turn + 1 ≤ m.turn) (t : Text) :
    ¬ AtToken k (m.token ++ t) := by
  rintro (h | ⟨u, h⟩)
  · simp [Mark.token, tokenOf] at h
  · obtain ⟨rfl, _⟩ := token_append_inj h
    have : k.turn = (Mark.kind k).turn := rfl
    omega

/-- Up to the first token of a kind there is one sound text only. -/
theorem sound_prefix_unique {k : Kind} {g g' t t' : Text} (hg : Sound (k.turn + 1) g)
    (hg' : Sound (k.turn + 1) g') (ht : AtToken k t) (ht' : AtToken k t') (h : g ++ t = g' ++ t') :
    g = g' ∧ t = t' := by
  induction hg generalizing g' with
  | nil =>
    cases hg' with
    | nil => exact ⟨rfl, h⟩
    | char hc _ =>
      rw [List.nil_append] at h
      exact absurd (h ▸ ht) (not_atToken_char hc _)
    | token hm _ =>
      rw [List.nil_append, List.append_assoc] at h
      exact absurd (h ▸ ht) (not_atToken_token hm _)
  | @char c g hc _ ih =>
    cases hg' with
    | nil =>
      rw [List.nil_append, List.cons_append] at h
      exact absurd (h ▸ ht') (not_atToken_char hc _)
    | char _ hg' =>
      obtain ⟨rfl, hrest⟩ := List.cons.inj h
      obtain ⟨rfl, rfl⟩ := ih hg' hrest
      exact ⟨rfl, rfl⟩
    | token _ _ =>
      rw [List.append_assoc, Mark.token_append] at h
      exact absurd (List.cons.inj h).1 hc
  | @token m g hm _ ih =>
    cases hg' with
    | nil =>
      rw [List.nil_append, List.append_assoc] at h
      exact absurd (h ▸ ht') (not_atToken_token hm _)
    | char hc _ =>
      rw [List.append_assoc, Mark.token_append] at h
      exact absurd (List.cons.inj h).1.symm hc
    | token _ hg' =>
      rw [List.append_assoc, List.append_assoc] at h
      obtain ⟨rfl, hrest⟩ := token_append_inj h
      obtain ⟨rfl, rfl⟩ := ih hg' hrest
      exact ⟨rfl, rfl⟩

/-- Sound texts between tokens of a kind are determined by the whole. -/
theorem gaps_unique {k : Kind} {w v : Weave} (hw : ∀ g ∈ w.gaps, Sound (k.turn + 1) g)
    (hv : ∀ g ∈ v.gaps, Sound (k.turn + 1) g) (h : Lifting.mask k w = Lifting.mask k v) :
    w.gaps = v.gaps := by
  have hmask : ∀ (head : Text) (rest : List (Text × Text)), ∃ t,
      Lifting.mask k ⟨head, rest⟩ = head ++ t ∧ AtToken k t ∧
      (rest = [] → t = []) ∧
      ∀ p more, rest = p :: more → t = (Mark.kind k).token ++ Lifting.mask k ⟨p.2, more⟩ := by
    intro head rest
    cases rest with
    | nil => exact ⟨[], by simp [Lifting.mask, Weave.replace], .inl rfl, fun _ => rfl, by simp⟩
    | cons p rest =>
      refine ⟨(Mark.kind k).token ++ Lifting.mask k ⟨p.2, rest⟩, ?_, .inr ⟨_, rfl⟩, by simp, ?_⟩
      · have htok : (Mark.kind k).token = k.token := rfl
        simp [Lifting.mask, Weave.replace, htok]
      · intro q more hq
        obtain ⟨rfl, rfl⟩ := List.cons.inj hq
        rfl
  have hne : ∀ t, (Mark.kind k).token ++ t ≠ [] := by simp [Mark.token, tokenOf]
  obtain ⟨head, rest⟩ := w
  obtain ⟨head', rest'⟩ := v
  induction rest generalizing head head' rest' with
  | nil =>
    obtain ⟨t, ht, hat, hnil, _⟩ := hmask head []
    obtain ⟨t', ht', hat', hnil', hcons'⟩ := hmask head' rest'
    rw [ht, ht'] at h
    obtain ⟨rfl, rfl⟩ := sound_prefix_unique (hw head List.mem_cons_self)
      (hv head' List.mem_cons_self) hat hat' h
    cases rest' with
    | nil => rfl
    | cons p more => exact absurd ((hcons' p more rfl).symm.trans (hnil rfl)) (hne _)
  | cons p rest ih =>
    obtain ⟨t, ht, hat, _, hcons⟩ := hmask head (p :: rest)
    obtain ⟨t', ht', hat', hnil', hcons'⟩ := hmask head' rest'
    rw [ht, ht'] at h
    obtain ⟨rfl, rfl⟩ := sound_prefix_unique (hw head List.mem_cons_self)
      (hv head' List.mem_cons_self) hat hat' h
    cases rest' with
    | nil => exact absurd ((hcons p rest rfl).symm.trans (hnil' rfl)) (hne _)
    | cons p' rest' =>
      have heq := (hcons p rest rfl).symm.trans (hcons' p' rest' rfl)
      have := ih p.2 (fun g hg => hw g (List.mem_cons_of_mem _ hg)) p'.2 rest'
        (fun g hg => hv g (List.mem_cons_of_mem _ hg)) (List.append_cancel_left heq)
      exact congrArg (head :: ·) this

end VbTidy
