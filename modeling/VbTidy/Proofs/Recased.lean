import VbTidy.Proofs.Settled

/-
What recasing leaves of a line. The names in tokens are no keywords, and a NUL is a run of its own,
so tokens stay as they are and where they are, and what stands between them is written letter for
letter (`Recased`). A line that recasing leaves is settled as it was, and has the strays it had:
no keyword is written like a name.
-/
namespace VbTidy

/-! ## Words -/

/-- Characters that may be exchanged: letters and digits of a word. -/
def Alike (c d : Char) : Prop :=
  c = d ∨ isWord c = true ∧ isWord d = true

theorem forall₂_alike_refl (t : Text) : List.Forall₂ Alike t t :=
  List.forall₂_same.mpr fun _ _ => .inl rfl

theorem forall₂_alike_words {s t : Text} (hs : ∀ c ∈ s, isWord c = true)
    (ht : ∀ c ∈ t, isWord c = true) (hlen : s.length = t.length) : List.Forall₂ Alike s t := by
  induction s generalizing t with
  | nil =>
    obtain rfl : t = [] := List.eq_nil_of_length_eq_zero hlen.symm
    exact .nil
  | cons c s ih =>
    cases t with
    | nil => cases hlen
    | cons d t =>
      refine .cons (.inr ⟨hs c List.mem_cons_self, ht d List.mem_cons_self⟩) (ih ?_ ?_ ?_)
      · exact fun e he => hs e (List.mem_cons_of_mem _ he)
      · exact fun e he => ht e (List.mem_cons_of_mem _ he)
      · simpa using hlen

theorem isWord_alpha {c : Char} (h : c.isAlpha = true) :
    isWord c = true ∧ isWord c.toUpper = true ∧ isWord c.toLower = true := by
  have key : ∀ c : Char, c.toNat < 0x80 → c.isAlpha = true →
      isWord c = true ∧ isWord c.toUpper = true ∧ isWord c.toLower = true := of_ascii (by decide)
  exact key c (ascii_of_alpha h) h

theorem isWord_write {k : Text} (h : k ∈ keywords) (case : LetterCase) :
    (∀ c ∈ case.write k, isWord c = true) ∧ (case.write k).length = k.length := by
  have hk := isAlpha_of_keyword h
  have key : ∀ f : Char → Char, (∀ c, c.isAlpha = true → isWord (f c) = true) →
      ∀ c ∈ k.map f, isWord c = true := by
    intro f hf c hc
    obtain ⟨d, hd, rfl⟩ := List.mem_map.mp hc
    exact hf d (hk d hd)
  cases case with
  | proper => exact ⟨fun c hc => (isWord_alpha (hk c hc)).1, rfl⟩
  | upper => exact ⟨key _ fun c hc => (isWord_alpha hc).2.1, List.length_map ..⟩
  | lower => exact ⟨key _ fun c hc => (isWord_alpha hc).2.2, List.length_map ..⟩
  | unchanged => exact ⟨fun c hc => (isWord_alpha (hk c hc)).1, rfl⟩

/-- A recased word is written letter for letter. -/
theorem alike_recaseWord {case : LetterCase} {word out : Text}
    (h : recaseWord case word = .ok out) : List.Forall₂ Alike word out := by
  rcases recaseWord_ok h with rfl | ⟨k, hmem, rfl, hlow⟩
  · exact forall₂_alike_refl _
  · obtain ⟨hwords, hlen⟩ := isWord_write hmem case
    refine forall₂_alike_words (fun c hc => ?_) hwords ?_
    · apply isWord_of_lower
      apply keywords_lower hmem
      rw [hlow]
      exact List.mem_map_of_mem hc
    · rw [hlen]
      have := congrArg List.length hlow
      simpa using this.symm

theorem wordRuns_ne_nil (c : Char) (t : Text) : wordRuns (c :: t) ≠ [] := by
  unfold wordRuns
  split
  · split
    · split <;> simp
    · simp
  · simp

theorem wordRuns_other {c : Char} (hc : isWord c = false) (t : Text) :
    wordRuns (c :: t) = [c] :: wordRuns t := by
  conv_lhs => unfold wordRuns
  rw [if_neg (by simp [hc])]

theorem wordRuns_letter {c d : Char} (hc : isWord c = true) {t run : Text} {runs : List Text}
    (hr : wordRuns (d :: t) = run :: runs) :
    wordRuns (c :: d :: t) =
      if isWord d then (c :: run) :: runs else [c] :: run :: runs := by
  conv_lhs => unfold wordRuns
  rw [if_pos hc]
  simp only [hr]

/-- A character of no word is a run of its own, and keeps what is on either side apart. -/
theorem wordRuns_append {c : Char} (hc : isWord c = false) (a b : Text) :
    wordRuns (a ++ c :: b) = wordRuns a ++ [c] :: wordRuns b := by
  induction a with
  | nil => exact wordRuns_other hc b
  | cons d a ih =>
    cases hd : isWord d with
    | false =>
      rw [List.cons_append, wordRuns_other hd, wordRuns_other hd, ih]
      rfl
    | true =>
      cases a with
      | nil =>
        rw [List.cons_append, List.nil_append, wordRuns_letter hd (wordRuns_other hc b), hc]
        simp [wordRuns, hd]
      | cons e a =>
        obtain ⟨run, runs, hr⟩ := List.exists_cons_of_ne_nil (wordRuns_ne_nil e a)
        rw [hr, List.cons_append, List.cons_append] at ih
        rw [List.cons_append, List.cons_append, wordRuns_letter hd ih, wordRuns_letter hd hr]
        split <;> rfl

theorem wordRuns_word {t : Text} (hne : t ≠ []) (h : ∀ c ∈ t, isWord c = true) :
    wordRuns t = [t] := by
  induction t with
  | nil => exact absurd rfl hne
  | cons c t ih =>
    cases t with
    | nil => simp [wordRuns, h c List.mem_cons_self]
    | cons d t =>
      have hmore := ih (by simp) fun e he => h e (List.mem_cons_of_mem _ he)
      rw [wordRuns_letter (h c List.mem_cons_self) hmore, if_pos (h d (by simp))]

theorem isWord_nameChar {c : Char} (h : isNameChar c = true) : isWord c = true := by
  have key : ∀ c : Char, c.toNat < 0x80 → isNameChar c = true → isWord c = true :=
    of_ascii (by decide)
  have hlt := isNameChar_toNat h
  exact key c (by omega) h

theorem Mark.name_ne_nil (m : Mark) : m.name ≠ [] := by
  have key : ∀ m ∈ Mark.all, m.name ≠ [] := by decide
  exact key m (Mark.mem_all m)

theorem wordRuns_name (m : Mark) : wordRuns m.name = [m.name] :=
  wordRuns_word m.name_ne_nil fun _ hc => isWord_nameChar (Mark.isNameChar_of_mem hc)

theorem wordRuns_token (s : Text) (m : Mark) (t : Text) :
    wordRuns (s ++ (m.token ++ t)) =
      wordRuns s ++ (['\x00'] :: m.name :: ['\x00'] :: wordRuns t) := by
  rw [Mark.token_append, wordRuns_append (by decide), wordRuns_append (by decide), wordRuns_name]
  rfl

/-- Within ASCII a word in any letter case is known by its lower case. -/
theorem lower_of_isSameWord {w t : Text} (hw : ∀ c ∈ w, c.toNat < 0x80)
    (ht : ∀ c ∈ t, c.toNat < 0x80) (h : isSameWord w t = true) :
    w.map Char.toLower = t.map Char.toLower := by
  rw [isSameWord_iff] at h
  induction h with
  | nil => rfl
  | @cons l c w t hlc _ ih =>
    rw [List.forall_mem_cons] at hw ht
    simp only [sameLetter, hw.1, ht.1, decide_true, Bool.and_self, if_true, beq_iff_eq] at hlc
    rw [List.map_cons, List.map_cons, hlc, ih hw.2 ht.2]

/-- Neither a NUL nor a name is a keyword. -/
theorem not_isKeyword_name (m : Mark) : isKeyword m.name = false := by
  rw [isKeyword, List.any_eq_false]
  intro k hk hsame
  have hname : ∀ c ∈ m.name, c.toNat < 0x80 ∧ c.toLower = c := by
    have key : ∀ m ∈ Mark.all, ∀ c ∈ m.name, c.toNat < 0x80 ∧ c.toLower = c := by decide
    exact key m (Mark.mem_all m)
  have := lower_of_isSameWord (fun c hc => ascii_of_alpha (isAlpha_of_keyword hk c hc))
    (fun c hc => (hname c hc).1) hsame
  rw [List.map_congr_left (g := id) fun c hc => (hname c hc).2, List.map_id] at this
  exact (keyword_letters hk).2.2 m this

theorem not_isKeyword_nul : isKeyword ['\x00'] = false := by
  rw [isKeyword, List.any_eq_false]
  intro k hk hsame
  have := lower_of_isSameWord (fun c hc => ascii_of_alpha (isAlpha_of_keyword hk c hc))
    (by decide) hsame
  have hmem : '\x00' ∈ k.map Char.toLower := by
    rw [this]
    decide
  exact absurd (keywords_lower hk _ hmem) (by decide)

theorem recaseWord_name {case : LetterCase} (m : Mark) : recaseWord case m.name = .ok m.name := by
  rw [recaseWord, not_isKeyword_name]
  rfl

theorem recaseWord_nul {case : LetterCase} : recaseWord case ['\x00'] = .ok ['\x00'] := by
  rw [recaseWord, not_isKeyword_nul]
  rfl

/-- No keyword is written like a name. -/
theorem write_ne_name {k : Text} (h : k ∈ keywords) (case : LetterCase) (j : Kind) :
    case.write k ≠ j.name := by
  intro heq
  have hlow := squeezed_write h case
  have hname : squeezed j.name = j.name := by
    have key : ∀ j ∈ Kind.backOrder, squeezed j.name = j.name := by decide
    exact key j (by cases j <;> decide)
  rw [heq, hname] at hlow
  exact (keyword_letters h).2.2 (.kind j) hlow.symm

/-! ## Lines -/

/-- A text without tokens, and how it is written. -/
structure Written (s s' : Text) : Prop where
  free : '\x00' ∉ s
  free' : '\x00' ∉ s'
  alike : List.Forall₂ Alike s s'
  name : ∀ k : Kind, s = k.name ↔ s' = k.name

/-- The words of a line, each as it is written. -/
def Rewrites (case : LetterCase) (runs outs : List Text) : Prop :=
  List.Forall₂ (fun run out => recaseWord case run = .ok out) runs outs

theorem recaseLine_ok {case : LetterCase} {line out : Text} (h : recaseLine case line = .ok out) :
    ∃ outs, Rewrites case (wordRuns line) outs ∧ out = outs.flatten := by
  rw [recaseLine] at h
  cases hr : (wordRuns line).mapM (recaseWord case) with
  | error e => simp [hr, bind, Except.bind] at h
  | ok runs =>
    simp [hr, bind, Except.bind, pure, Except.pure] at h
    exact ⟨runs, mapM_ok_forall₂ hr, h.symm⟩

theorem Rewrites.alike {case : LetterCase} {runs outs : List Text} (h : Rewrites case runs outs) :
    List.Forall₂ Alike runs.flatten outs.flatten := by
  induction h with
  | nil => exact .nil
  | cons hw _ ih => exact List.rel_append (alike_recaseWord hw) ih

theorem forall₂_words {s s' : Text} (h : List.Forall₂ Alike s s')
    (hs : ∀ c ∈ s', isWord c = true) : ∀ c ∈ s, isWord c = true := by
  induction h with
  | nil => intro c hc; cases hc
  | @cons c d s s' hcd _ ih =>
    intro e he
    rcases List.mem_cons.mp he with rfl | he
    · rcases hcd with rfl | ⟨hc, _⟩
      · exact hs _ List.mem_cons_self
      · exact hc
    · exact ih (fun f hf => hs f (List.mem_cons_of_mem _ hf)) e he

theorem forall₂_nul {s s' : Text} (h : List.Forall₂ Alike s s') (hs : '\x00' ∉ s) :
    '\x00' ∉ s' := by
  induction h with
  | nil => simp
  | @cons c d s s' hcd _ ih =>
    rw [List.mem_cons, not_or] at hs ⊢
    refine ⟨?_, ih hs.2⟩
    rintro rfl
    rcases hcd with rfl | ⟨_, hd⟩
    · exact hs.1 rfl
    · exact absurd hd (by decide)

/-- A text without tokens is written letter for letter, a name as it is, and nothing else like a
name. -/
theorem written_of_rewrites {case : LetterCase} {s : Text} {outs : List Text} (hs : '\x00' ∉ s)
    (h : Rewrites case (wordRuns s) outs) : Written s outs.flatten := by
  have halike := h.alike
  rw [flatten_wordRuns] at halike
  refine ⟨hs, forall₂_nul halike hs, halike, fun k => ⟨?_, ?_⟩⟩
  · rintro rfl
    have hruns : wordRuns k.name = [k.name] := wordRuns_name (.kind k)
    rw [hruns] at h
    cases h with
    | cons hw hrest =>
      cases hrest
      have := (recaseWord_name (.kind k)).symm.trans hw
      rw [List.flatten_cons, List.flatten_nil, List.append_nil]
      exact (Except.ok.inj this).symm
  · intro hname
    have hwords : ∀ c ∈ s, isWord c = true := by
      apply forall₂_words halike
      rw [hname]
      exact fun c hc => isWord_nameChar (Mark.isNameChar_of_mem (m := .kind k) hc)
    have hne : s ≠ [] := by
      rintro rfl
      have : k.name = [] := by
        rw [← hname]
        cases h
        rfl
      exact Mark.name_ne_nil (.kind k) this
    rw [wordRuns_word hne hwords] at h
    cases h with
    | cons hw hrest =>
      cases hrest
      rw [List.flatten_cons, List.flatten_nil, List.append_nil] at hname
      rcases recaseWord_ok hw with rfl | ⟨kw, hmem, rfl, _⟩
      · exact hname
      · exact absurd hname (write_ne_name hmem case k)

theorem forall₂_append {α β : Type} {R : α → β → Prop} {as as' : List α} {bs : List β}
    (h : List.Forall₂ R (as ++ as') bs) :
    ∃ bs₁ bs₂, List.Forall₂ R as bs₁ ∧ List.Forall₂ R as' bs₂ ∧ bs = bs₁ ++ bs₂ := by
  induction as generalizing bs with
  | nil => exact ⟨[], bs, .nil, h, rfl⟩
  | cons a as ih =>
    cases h with
    | cons hab h =>
      obtain ⟨bs₁, bs₂, h₁, h₂, rfl⟩ := ih h
      exact ⟨_ :: bs₁, bs₂, .cons hab h₁, h₂, rfl⟩

theorem forall₂_getElem? {α β : Type} {R : α → β → Prop} {as : List α} {bs : List β}
    (h : List.Forall₂ R as bs) {i : Nat} {a : α} (ha : as[i]? = some a) :
    ∃ b, bs[i]? = some b ∧ R a b := by
  induction h generalizing i with
  | nil => simp at ha
  | @cons a' b' _ _ hab _ ih =>
    cases i with
    | zero =>
      obtain rfl : a' = a := by simpa using ha
      exact ⟨b', rfl, hab⟩
    | succ i => exact ih (by simpa using ha)

/-- A token stays as it is, whatever stands next to it. -/
theorem Rewrites.token {case : LetterCase} {s t : Text} {m : Mark} {outs : List Text}
    (h : Rewrites case (wordRuns (s ++ (m.token ++ t))) outs) :
    ∃ outs₁ outs₂, Rewrites case (wordRuns s) outs₁ ∧ Rewrites case (wordRuns t) outs₂ ∧
      outs.flatten = outs₁.flatten ++ (m.token ++ outs₂.flatten) := by
  rw [wordRuns_token] at h
  obtain ⟨outs₁, outs₂, h₁, h₂, rfl⟩ := forall₂_append h
  cases h₂ with
  | cons hnul h₂ =>
    cases h₂ with
    | cons hname h₂ =>
      cases h₂ with
      | @cons _ _ _ outs₃ hnul' h₃ =>
        obtain rfl := Except.ok.inj (recaseWord_nul.symm.trans hnul)
        obtain rfl := Except.ok.inj ((recaseWord_name m).symm.trans hname)
        obtain rfl := Except.ok.inj (recaseWord_nul.symm.trans hnul')
        refine ⟨outs₁, outs₃, h₁, h₃, ?_⟩
        simp [Mark.token, tokenOf]

/-- Texts with the same tokens, and between them one text as the other is written. -/
inductive Recased : Text → Text → Prop
  | free {s s' : Text} (h : Written s s') : Recased s s'
  | token {s s' t t' : Text} {m : Mark} (h : Written s s') (ht : Recased t t') :
    Recased (s ++ (m.token ++ t)) (s' ++ (m.token ++ t'))

/-- A line of whole tokens is recased between them. -/
theorem recased_of_rewrites {case : LetterCase} {t : Text} (ht : Sound 0 t) {s : Text}
    (hs : '\x00' ∉ s) {outs : List Text} (h : Rewrites case (wordRuns (s ++ t)) outs) :
    Recased (s ++ t) outs.flatten := by
  induction ht generalizing s outs with
  | nil =>
    rw [List.append_nil] at h ⊢
    exact .free (written_of_rewrites hs h)
  | @char c t hc _ ih =>
    have hassoc : s ++ c :: t = (s ++ [c]) ++ t := by simp
    rw [hassoc] at h ⊢
    exact ih (by simp [hs, Ne.symm hc]) h
  | token _ _ ih =>
    obtain ⟨outs₁, outs₂, h₁, h₂, hflat⟩ := h.token
    rw [hflat]
    exact .token (written_of_rewrites hs h₁) (ih (s := []) (by simp) h₂)

theorem recased_of_recaseLine {case : LetterCase} {t out : Text} (ht : Sound 0 t)
    (h : recaseLine case t = .ok out) : Recased t out := by
  obtain ⟨outs, hr, rfl⟩ := recaseLine_ok h
  exact recased_of_rewrites ht (s := []) (by simp) hr

namespace Recased

variable {t t' : Text}

theorem sound (h : Recased t t') : Sound 0 t' := by
  induction h with
  | free h => exact .of_nul_free h.free'
  | token h _ ih => exact (Sound.of_nul_free h.free').append (.token (Nat.zero_le _) ih)

theorem alike (h : Recased t t') : List.Forall₂ Alike t t' := by
  induction h with
  | free h => exact h.alike
  | token h _ ih =>
    exact List.rel_append h.alike (List.rel_append (forall₂_alike_refl _) ih)

/-- A token of what is written stands where it stood. -/
theorem occurs (h : Recased t t') {m : Mark} {x' y' : Text} (ho : Occurs m x' y' t') :
    ∃ x y, Occurs m x y t ∧ List.Forall₂ Alike x x' ∧ List.Forall₂ Alike y y' := by
  induction h generalizing x' with
  | free h =>
    have := ho.mem_marks
    rw [marks_nul_free h.free'] at this
    cases this
  | @token s s' t t' m₁ h ht ih =>
    have hs : Sound 0 s := .of_nul_free h.free
    obtain ⟨x₁, h₁, rfl⟩ := ho.of_nul_free_append h.free'
    rcases h₁.of_token with ⟨rfl, rfl, rfl⟩ | ⟨x₂, h₂, rfl⟩
    · refine ⟨s, t, ⟨rfl, hs⟩, ?_, ht.alike⟩
      rw [List.append_nil]
      exact h.alike
    · obtain ⟨x, y, hxy, hx, hy⟩ := ih h₂
      refine ⟨s ++ (m₁.token ++ x), y, ?_, ?_, hy⟩
      · exact (hxy.append_left (.mark (Nat.zero_le _))).append_left hs
      · exact List.rel_append h.alike (List.rel_append (forall₂_alike_refl _) hx)

theorem wordAt_head {x x' : Text} (h : List.Forall₂ Alike x x') :
    wordAt x'.head? = wordAt x.head? := by
  cases h with
  | nil => rfl
  | @cons c d _ _ hcd _ =>
    rcases hcd with rfl | ⟨hc, hd⟩
    · rfl
    · exact hd.trans hc.symm

theorem alike_getLast {x x' : Text} (h : List.Forall₂ Alike x x') :
    wordAt x'.getLast? = wordAt x.getLast? ∧
      ((x.getLast?).all isSpace = true → (x'.getLast?).all isSpace = true) := by
  have hrev := List.rel_reverse h
  rw [← List.head?_reverse, ← List.head?_reverse]
  generalize x.reverse = u at hrev ⊢
  generalize x'.reverse = u' at hrev ⊢
  refine ⟨wordAt_head hrev, fun hx => ?_⟩
  cases hrev with
  | nil => rfl
  | @cons c d _ _ hcd _ =>
    rcases hcd with rfl | ⟨hc, _⟩
    · exact hx
    · have hspace : isSpace c = true := hx
      rw [isWord_of_isBreak (isBreak_of_isSpace hspace)] at hc
      cases hc

/-- A settled line is settled however its words are written. -/
theorem settled (h : Recased t t') (ht : Settled t) : Settled t' where
  sound := h.sound
  calm x' y' ho := by
    obtain ⟨x, y, hxy, hx, hy⟩ := h.occurs ho
    obtain ⟨hl, hr⟩ := ht.calm x y hxy
    exact ⟨(alike_getLast hx).1.trans hl, (wordAt_head hy).trans hr⟩
  last x' y' ho := by
    obtain ⟨x, y, hxy, _, hy⟩ := h.occurs ho
    obtain rfl := ht.last x y hxy
    cases hy
    rfl
  apart x' y' ho := by
    obtain ⟨x, y, hxy, hx, _⟩ := h.occurs ho
    exact (alike_getLast hx).2 (ht.apart x y hxy)

theorem sound_left (h : Recased t t') : Sound 0 t := by
  induction h with
  | free h => exact .of_nul_free h.free
  | token h _ ih => exact (Sound.of_nul_free h.free).append (.token (Nat.zero_le _) ih)

end Recased

/-- The name and a token after it, seen from a text without tokens. -/
theorem nameThenToken_iff {k : Kind} {s t : Text} {m : Mark} (hs : '\x00' ∉ s) :
    NameThenToken k (s ++ (m.token ++ t)) ↔ s = k.name ∧ k.turn ≤ m.turn ∧ Sound 0 t := by
  constructor
  · rintro ⟨m', y, heq, hturn, hy⟩
    rw [Mark.token_append, List.append_assoc, Mark.token_append] at heq
    have hname : '\x00' ∉ k.name := nul_not_mem_name (.kind k)
    have h₁ := cutAt_append hs (m.name ++ '\x00' :: t)
    rw [heq, cutAt_append hname] at h₁
    obtain rfl := (List.cons.inj h₁).1.symm
    have hrest := List.append_cancel_left heq
    rw [← Mark.token_append, ← Mark.token_append] at hrest
    obtain ⟨rfl, rfl⟩ := token_append_inj hrest
    exact ⟨rfl, hturn, hy⟩
  · rintro ⟨rfl, hturn, ht⟩
    exact ⟨m, t, by simp, hturn, ht⟩

theorem not_nameThenToken_nul_free {k : Kind} {s : Text} (hs : '\x00' ∉ s) :
    ¬ NameThenToken k s := by
  rintro ⟨m, y, rfl, _⟩
  exact hs (by simp [Mark.token_append])

theorem Recased.nameThenToken {k : Kind} {t t' : Text} (h : Recased t t') :
    NameThenToken k t' ↔ NameThenToken k t := by
  cases h with
  | free h =>
    have h₁ := not_nameThenToken_nul_free (k := k) h.free
    have h₂ := not_nameThenToken_nul_free (k := k) h.free'
    exact ⟨fun h => absurd h h₂, fun h => absurd h h₁⟩
  | token h ht =>
    rw [nameThenToken_iff h.free, nameThenToken_iff h.free', h.name k]
    have := ht.sound
    have := ht.sound_left
    simp [*]

/-- Recasing neither hides a stray nor makes one. -/
theorem Recased.stray {k : Kind} {t t' : Text} (h : Recased t t') : Stray k t' ↔ Stray k t := by
  induction h with
  | free h =>
    have h₁ := not_stray_nul_free (k := k) h.free
    have h₂ := not_stray_nul_free (k := k) h.free'
    exact ⟨fun h => absurd h h₂, fun h => absurd h h₁⟩
  | token h ht ih =>
    rw [stray_nul_free_append h.free, stray_nul_free_append h.free', stray_token, stray_token, ih,
      ht.nameThenToken]

/-- A line that is left alone. -/
theorem recased_refl {t : Text} (ht : Sound 0 t) {s : Text} (hs : '\x00' ∉ s) :
    Recased (s ++ t) (s ++ t) := by
  have hw : ∀ {s : Text}, '\x00' ∉ s → Written s s := fun {s} h =>
    ⟨h, h, forall₂_alike_refl s, fun _ => Iff.rfl⟩
  induction ht generalizing s with
  | nil =>
    rw [List.append_nil]
    exact .free (hw hs)
  | @char c t hc _ ih =>
    have hassoc : s ++ c :: t = (s ++ [c]) ++ t := by simp
    rw [hassoc]
    exact ih (by simp [hs, Ne.symm hc])
  | token _ _ ih => exact .token (hw hs) (ih (s := []) (by simp))

/-- All lines of a document are recased, or all are left alone. -/
theorem recase_forall₂ {case : LetterCase} {lines out : List Text}
    (hl : ∀ l ∈ lines, Sound 0 l) (h : recase case lines = .ok out) :
    List.Forall₂ Recased lines out := by
  have key : lines.mapM (recaseLine case) = .ok out → List.Forall₂ Recased lines out := by
    intro hm
    have hr := mapM_ok_forall₂ hm
    clear hm h
    induction hr with
    | nil => exact .nil
    | @cons l o ls os hlo _ ih =>
      refine .cons (recased_of_recaseLine (hl l List.mem_cons_self) hlo) (ih ?_)
      exact fun l hl' => hl l (List.mem_cons_of_mem _ hl')
  cases case with
  | unchanged =>
    rw [← Except.ok.inj h]
    exact List.forall₂_same.mpr fun l hmem => recased_refl (hl l hmem) (s := []) (by simp)
  | proper => exact key h
  | upper => exact key h
  | lower => exact key h

end VbTidy
