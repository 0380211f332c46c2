import VbTidy.Proofs.Stray
import VbTidy.Proofs.Passes

/-
A text as beads: runs of characters between white space, with each character of an operator as a
bead of its own. Spacing, indenting and aligning move white space next to white space and operators,
so they leave the beads alone (`beads_spaceOperators`, `beads_spaceContinuation`). No token reaches
over white space or an operator, so whether the tokens of a text are whole can be told from its
beads (`sound_beads`), and two texts with the same beads have whole tokens together.
-/
namespace VbTidy

/-- The characters that operators consist of. -/
def isOperator (c : Char) : Bool :=
  ['<', '>', '=', '!', '&', '+', '-'].contains c

/-- Characters that no bead reaches over. -/
def isBreak (c : Char) : Bool :=
  isSpace c || isOperator c

theorem isBreak_of_isSpace {c : Char} (h : isSpace c = true) : isBreak c = true := by
  simp [isBreak, h]

theorem isBreak_of_isOperator {c : Char} (h : isOperator c = true) : isBreak c = true := by
  simp [isBreak, h]

theorem isSpace_of_isOperator {c : Char} (h : isOperator c = true) : isSpace c = false := by
  simp only [isOperator, List.contains_iff_mem] at h
  have key : ∀ c ∈ ['<', '>', '=', '!', '&', '+', '-'], isSpace c = false := by decide
  exact key c h

theorem isBlank_of_isOperator {c : Char} (h : isOperator c = true) : isBlank c = false := by
  cases hb : isBlank c with
  | false => rfl
  | true =>
    have hs := isSpace_of_isBlank hb
    rw [isSpace_of_isOperator h] at hs
    cases hs

/-- A break is in no token. -/
theorem isNameChar_of_isBreak {c : Char} (h : isBreak c = true) : isNameChar c = false := by
  rw [isBreak, Bool.or_eq_true] at h
  cases hn : isNameChar c with
  | false => rfl
  | true =>
    rcases h with h | h
    · rw [isSpace_nameChar hn] at h
      cases h
    · simp only [isOperator, List.contains_iff_mem] at h
      have key : ∀ c ∈ ['<', '>', '=', '!', '&', '+', '-'], isNameChar c = false := by decide
      rw [key c h] at hn
      cases hn

theorem ne_nul_of_isBreak {c : Char} (h : isBreak c = true) : c ≠ '\x00' := by
  rintro rfl
  revert h
  decide

theorem not_mem_name_of_isBreak {c : Char} (h : isBreak c = true) (m : Mark) : c ∉ m.name := by
  intro hm
  have hn := Mark.isNameChar_of_mem hm
  rw [isNameChar_of_isBreak h] at hn
  cases hn

/-- The beads of a text. -/
def beads : Text → List Text
  | [] => []
  | c :: t =>
    if isSpace c then beads t
    else if isOperator c then [c] :: beads t
    else if (t.head?).all isBreak then [c] :: beads t
    else (c :: (beads t).headD []) :: (beads t).tail

@[simp] theorem beads_nil : beads [] = [] := rfl

theorem beads_space {c : Char} (h : isSpace c = true) (t : Text) : beads (c :: t) = beads t := by
  rw [beads, if_pos h]

theorem beads_operator {c : Char} (h : isOperator c = true) (t : Text) :
    beads (c :: t) = [c] :: beads t := by
  rw [beads, if_neg (by simp [isSpace_of_isOperator h]), if_pos h]

theorem beads_plain {c : Char} (h : isBreak c = false) (t : Text) :
    beads (c :: t) = if (t.head?).all isBreak then [c] :: beads t
      else (c :: (beads t).headD []) :: (beads t).tail := by
  rw [isBreak, Bool.or_eq_false_iff] at h
  rw [beads, if_neg (by simp [h.1]), if_neg (by simp [h.2])]

theorem beads_ne_nil {c : Char} (h : isBreak c = false) (t : Text) : beads (c :: t) ≠ [] := by
  rw [beads_plain h]
  split <;> simp

theorem head_breaks {s : Text} (h : ∀ c ∈ s, isBreak c = true) : (s.head?).all isBreak = true := by
  cases s with
  | nil => rfl
  | cons c s => exact h c List.mem_cons_self

theorem head_breaks_append {s : Text} (hne : s ≠ []) (h : ∀ c ∈ s, isBreak c = true) (t : Text) :
    ((s ++ t).head?).all isBreak = true := by
  obtain ⟨c, s, rfl⟩ := List.exists_cons_of_ne_nil hne
  exact h c List.mem_cons_self

/-- No bead reaches from one text into the next. -/
def Loose (x y : Text) : Prop :=
  ∀ c d, x.getLast? = some c → y.head? = some d → isBreak c = true ∨ isBreak d = true

theorem loose_of_head {x y : Text} (h : (y.head?).all isBreak = true) : Loose x y := by
  intro c d _ hd
  rw [hd] at h
  exact .inr h

theorem loose_of_last {x y : Text} (h : (x.getLast?).all isBreak = true) : Loose x y := by
  intro c d hc _
  rw [hc] at h
  exact .inl h

theorem Loose.tail {c : Char} {x y : Text} (h : Loose (c :: x) y) : Loose x y := by
  intro d e hd he
  refine h d e ?_ he
  rw [List.getLast?_cons, hd]
  rfl

/-- The beads of two texts in a row, if none reaches across. -/
theorem beads_append {x y : Text} (h : Loose x y) : beads (x ++ y) = beads x ++ beads y := by
  induction x with
  | nil => rfl
  | cons c x ih =>
    have ih := ih h.tail
    rw [List.cons_append]
    cases hs : isSpace c with
    | true => rw [beads_space hs, beads_space hs, ih]
    | false =>
      cases ho : isOperator c with
      | true => rw [beads_operator ho, beads_operator ho, ih, List.cons_append]
      | false =>
        have hb : isBreak c = false := by simp [isBreak, hs, ho]
        rw [beads_plain hb, beads_plain hb, ih]
        cases x with
        | nil =>
          -- the bead ends here: what follows starts with a break
          have hy : (y.head?).all isBreak = true := by
            cases hd : y.head? with
            | none => rfl
            | some d =>
              rcases h c d rfl hd with hc | hd
              · rw [hb] at hc
                cases hc
              · exact hd
          simp [hy]
        | cons d x =>
          have hhead : ∀ z : Text, ((d :: z).head?).all isBreak = isBreak d := fun _ => rfl
          rw [List.cons_append, hhead, hhead]
          by_cases hd : isBreak d = true
          · rw [if_pos hd, if_pos hd, List.cons_append]
          · obtain ⟨b, bs, hbs⟩ := List.exists_cons_of_ne_nil (beads_ne_nil (by simpa using hd) x)
            rw [if_neg hd, if_neg hd, hbs]
            rfl

theorem beads_spaces {t : Text} (h : ∀ c ∈ t, isSpace c = true) : beads t = [] := by
  induction t with
  | nil => rfl
  | cons c t ih =>
    rw [beads_space (h c List.mem_cons_self), ih fun d hd => h d (List.mem_cons_of_mem _ hd)]

/-- White space between two texts belongs to no bead. -/
theorem beads_append_spaces {x s y : Text} (hne : s ≠ []) (hs : ∀ c ∈ s, isSpace c = true) :
    beads (x ++ s ++ y) = beads x ++ beads y := by
  have hlast : Loose (x ++ s) y := by
    apply loose_of_last
    have hc := List.getLast?_eq_some_getLast hne
    rw [List.getLast?_append, hc]
    exact isBreak_of_isSpace (hs _ (List.mem_of_getLast? hc))
  have hhead : Loose x s :=
    loose_of_head (head_breaks fun c hc => isBreak_of_isSpace (hs c hc))
  rw [beads_append hlast, beads_append hhead, beads_spaces hs, List.append_nil]

theorem beads_dropWhile {p : Char → Bool} (hp : ∀ c, p c = true → isSpace c = true) (t : Text) :
    beads (t.dropWhile p) = beads t := by
  induction t with
  | nil => rfl
  | cons c t ih =>
    rw [List.dropWhile_cons]
    split
    · rw [ih, beads_space (hp c ‹_›)]
    · rfl

theorem dropEnd_append (p : Char → Bool) (t : Text) :
    ∃ s, t = dropEnd p t ++ s ∧ ∀ c ∈ s, p c = true := by
  refine ⟨(t.reverse.takeWhile p).reverse, ?_, ?_⟩
  · rw [dropEnd, ← List.reverse_append, List.takeWhile_append_dropWhile, List.reverse_reverse]
  · intro c hc
    exact List.all_eq_true.mp List.all_takeWhile c (List.mem_reverse.mp hc)

theorem dropEnd_append_all {p : Char → Bool} {t s : Text} (hs : ∀ c ∈ s, p c = true) :
    dropEnd p (t ++ s) = dropEnd p t := by
  have hrev : ∀ c ∈ s.reverse, p c = true := fun c hc => hs c (List.mem_reverse.mp hc)
  rw [dropEnd, dropEnd, List.reverse_append, List.dropWhile_append_of_pos hrev]

theorem dropEnd_cut {p : Char → Bool} {c : Char} (hc : p c = false) (x y : Text) :
    dropEnd p (x ++ c :: y) = x ++ c :: dropEnd p y := by
  rw [dropEnd, List.reverse_append, List.reverse_cons, List.append_assoc, List.dropWhile_append]
  split
  · next h =>
    have hnil : y.reverse.dropWhile p = [] := by simpa using h
    rw [List.singleton_append, List.dropWhile_cons_of_neg (by simp [hc]), dropEnd, hnil]
    simp
  · rw [dropEnd]
    simp

theorem dropWhile_cut {α : Type} {p : α → Bool} {c : α} (hc : p c = false) (x y : List α) :
    (x ++ c :: y).dropWhile p = x.dropWhile p ++ c :: y := by
  rw [List.dropWhile_append]
  split
  · next h =>
    have hnil : x.dropWhile p = [] := by simpa using h
    rw [List.dropWhile_cons_of_neg (by simp [hc]), hnil, List.nil_append]
  · rfl

theorem beads_dropEnd {p : Char → Bool} (hp : ∀ c, p c = true → isSpace c = true) (t : Text) :
    beads (dropEnd p t) = beads t := by
  obtain ⟨s, hs, hspace⟩ := dropEnd_append p t
  cases s with
  | nil => rw [← List.append_nil (dropEnd p t), ← hs]
  | cons c s =>
    have := beads_append_spaces (x := dropEnd p t) (y := []) (List.cons_ne_nil c s)
      fun d hd => hp d (hspace d hd)
    rw [List.append_nil, ← hs, beads_nil, List.append_nil] at this
    exact this.symm

@[simp] theorem beads_trim (t : Text) : beads (trim t) = beads t := by
  rw [trim, trimBy, beads_dropEnd (fun _ h => h), beads_dropWhile (fun _ h => h)]

/-- Breaks by themselves are the characters of operators. -/
theorem beads_breaks {t : Text} (h : ∀ c ∈ t, isBreak c = true) :
    beads t = (t.filter isOperator).map ([·]) := by
  induction t with
  | nil => rfl
  | cons c t ih =>
    have ih := ih fun d hd => h d (List.mem_cons_of_mem _ hd)
    cases ho : isOperator c with
    | true =>
      rw [beads_operator ho, ih]
      simp [ho]
    | false =>
      have hs : isSpace c = true := by
        have := h c List.mem_cons_self
        simpa [isBreak, ho] using this
      rw [beads_space hs, ih]
      simp [ho]

theorem loose_breaks_left {x y : Text} (h : ∀ c ∈ x, isBreak c = true) : Loose x y := by
  intro c d hc _
  exact .inl (h c (List.mem_of_getLast? hc))

theorem loose_breaks_right {x y : Text} (h : ∀ c ∈ y, isBreak c = true) : Loose x y := by
  intro c d _ hd
  exact .inr (h d (List.mem_of_head? hd))

/-- Induction along the beads: over breaks and the runs of characters between them. -/
theorem bead_induction {motive : Text → Prop} (nil : motive [])
    (skip : ∀ c t, isBreak c = true → motive t → motive (c :: t))
    (run : ∀ w t, w ≠ [] → (∀ c ∈ w, isBreak c = false) → (t.head?).all isBreak = true →
      motive t → motive (w ++ t)) (t : Text) : motive t := by
  induction hn : t.length using Nat.strongRecOn generalizing t with
  | ind n ih =>
    cases t with
    | nil => exact nil
    | cons c t =>
      cases hc : isBreak c with
      | true => exact skip c t hc (ih t.length (by simp at hn; omega) t rfl)
      | false =>
        have hsplit := List.takeWhile_append_dropWhile (p := fun c => !isBreak c) (l := c :: t)
        have hpos : 0 < ((c :: t).takeWhile fun c => !isBreak c).length := by
          simp [hc]
        have hlen := congrArg List.length hsplit
        rw [List.length_append] at hlen
        rw [← hsplit]
        refine run _ _ (List.ne_nil_of_length_pos hpos) ?_ ?_ (ih _ (by omega) _ rfl)
        · intro d hd
          simpa using List.all_eq_true.mp List.all_takeWhile d hd
        · have hhead := List.head?_dropWhile_not (fun c => !isBreak c) (c :: t)
          cases hd : ((c :: t).dropWhile fun c => !isBreak c).head? with
          | none => rfl
          | some d =>
            rw [hd] at hhead
            simpa using hhead

theorem beads_run {w : Text} (hne : w ≠ []) (hw : ∀ c ∈ w, isBreak c = false) :
    beads w = [w] := by
  induction w with
  | nil => exact absurd rfl hne
  | cons c w ih =>
    have hc : isBreak c = false := hw c List.mem_cons_self
    rw [beads_plain hc]
    cases w with
    | nil => rfl
    | cons d w =>
      have hd : isBreak d = false := hw d (by simp)
      have ih := ih (by simp) fun e he => hw e (List.mem_cons_of_mem _ he)
      rw [ih]
      simp [hd]

/-- A bead is a character of an operator or has no break. -/
theorem beads_break_cons {c : Char} (hc : isBreak c = true) (t : Text) :
    beads (c :: t) = (if isOperator c then [[c]] else []) ++ beads t := by
  cases ho : isOperator c with
  | true => rw [beads_operator ho]; rfl
  | false =>
    have hs : isSpace c = true := by simpa [isBreak, ho] using hc
    rw [beads_space hs]
    rfl

/-- No token reaches into a text that is empty or starts with a break. -/
theorem clean_of_head {n : Nat} {t : Text} (h : (t.head?).all isBreak = true) :
    Sound.Clean n t := by
  cases t with
  | nil => exact Sound.clean_nil
  | cons c t => exact Sound.clean_cons (ne_nul_of_isBreak h) (isNameChar_of_isBreak h)

/-- The tokens of a text are whole if those of its beads are. -/
theorem sound_beads {n : Nat} (t : Text) : Sound n t ↔ ∀ b ∈ beads t, Sound n b := by
  induction t using bead_induction with
  | nil => simp [Sound.nil]
  | skip c t hc ih =>
    have hnul := ne_nul_of_isBreak hc
    have hcons : Sound n (c :: t) ↔ Sound n t := ⟨Sound.tail hnul, Sound.char hnul⟩
    rw [beads_break_cons hc, hcons, ih]
    split <;> simp [Sound.char hnul Sound.nil]
  | run w t hne hw ht ih =>
    rw [beads_append (loose_of_head ht), beads_run hne hw]
    simp only [List.cons_append, List.nil_append, List.mem_cons, forall_eq_or_imp]
    constructor
    · intro h
      obtain ⟨hs, hr⟩ := Sound.split (clean_of_head ht) h
      exact ⟨hs, ih.mp hr⟩
    · rintro ⟨hs, hr⟩
      exact hs.append (ih.mpr hr)

theorem sound_of_beads {n : Nat} {s t : Text} (h : beads s = beads t) (hs : Sound n s) :
    Sound n t := by
  rw [sound_beads] at hs ⊢
  rwa [← h]

/-! ## Spacing -/

theorem dropPair?_eq_some {second : Char} {t rest : Text} (h : dropPair? second t = some rest) :
    ∃ blanks, t = blanks ++ second :: rest ∧ ∀ c ∈ blanks, isBlank c = true := by
  refine ⟨t.takeWhile isBlank, ?_, fun c hc => List.all_eq_true.mp List.all_takeWhile c hc⟩
  have hsplit := List.takeWhile_append_dropWhile (p := isBlank) (l := t)
  unfold dropPair? at h
  split at h
  · rename_i c r hr
    split at h
    · rename_i hc
      cases h
      rw [hr, beq_iff_eq.mp hc] at hsplit
      exact hsplit.symm
    · cases h
  · cases h

theorem getD_or_cases {a b : Option Text} {t rest : Text} (h : (a.or b).getD t = rest) :
    rest = t ∨ a = some rest ∨ b = some rest := by
  cases a <;> cases b <;> simp_all

theorem dropOperator?_cases {c : Char} {t rest : Text} (h : dropOperator? (c :: t) = some rest) :
    isOperator c = true ∧
      (rest = t ∨ ∃ second, isOperator second = true ∧ dropPair? second t = some rest) := by
  rw [dropOperator?] at h
  split at h
  · rename_i hc
    refine ⟨by rw [beq_iff_eq.mp hc]; decide, ?_⟩
    rcases getD_or_cases (Option.some.inj h) with h | h | h
    · exact .inl h
    · exact .inr ⟨'>', by decide, h⟩
    · exact .inr ⟨'=', by decide, h⟩
  split at h
  · rename_i _ hc
    refine ⟨by rw [beq_iff_eq.mp hc]; decide, ?_⟩
    rcases getD_or_cases (Option.some.inj h) with h | h | h
    · exact .inl h
    · exact .inr ⟨'<', by decide, h⟩
    · exact .inr ⟨'>', by decide, h⟩
  split at h
  · rename_i _ _ hc
    refine ⟨by rw [beq_iff_eq.mp hc]; decide, ?_⟩
    rcases getD_or_cases (b := none) (by simpa using h) with h | h | h
    · exact .inl h
    · exact .inr ⟨'=', by decide, h⟩
    · cases h
  split at h
  · rename_i _ _ _ hc
    exact ⟨by rw [beq_iff_eq.mp hc]; decide, .inr ⟨'=', by decide, h⟩⟩
  split at h
  · rename_i _ _ _ _ hc
    refine ⟨?_, .inl (Option.some.inj h).symm⟩
    simp only [Bool.or_eq_true, beq_iff_eq] at hc
    rcases hc with (rfl | rfl) | rfl <;> decide
  · cases h

/-- An operator is its first character, with blanks and a second character or without. -/
theorem dropOperator?_eq_some {t rest : Text} (h : dropOperator? t = some rest) :
    ∃ c op, t = c :: (op ++ rest) ∧ isOperator c = true ∧
      ∀ d ∈ op, isBlank d = true ∨ isOperator d = true := by
  cases t with
  | nil => cases h
  | cons c t =>
    obtain ⟨hc, rfl | ⟨second, hsecond, hpair⟩⟩ := dropOperator?_cases h
    · exact ⟨c, [], rfl, hc, by simp⟩
    · obtain ⟨blanks, rfl, hblank⟩ := dropPair?_eq_some hpair
      refine ⟨c, blanks ++ [second], by simp, hc, fun e he => ?_⟩
      rcases List.mem_append.mp he with he | he
      · exact .inl (hblank e he)
      · obtain rfl : e = second := by simpa using he
        exact .inr hsecond

/-- A match of an operator starts with a character of one, and else has such and blanks only. -/
theorem hit_operator {t h : Text} (hh : h ∈ (operatorPattern.weave t).hits) :
    ∃ c op, h = c :: op ∧ isOperator c = true ∧
      ∀ d ∈ op, isBlank d = true ∨ isOperator d = true := by
  obtain ⟨b, u, n, hn, rfl⟩ := mem_hits_weave hh
  obtain ⟨rest, hrest, rfl⟩ := Option.map_eq_some_iff.mp hn
  obtain ⟨c, op, rfl, hc, hop⟩ := dropOperator?_eq_some hrest
  refine ⟨c, op, ?_, hc, hop⟩
  have hlen : (c :: (op ++ rest)).length - rest.length = op.length + 1 := by
    simp
    omega
  rw [hlen, List.take_succ_cons, List.take_left]

theorem beads_setOperator {back op : Text} (hop : ∀ c ∈ op, isBreak c = true) (how : Setting) :
    beads (setOperator back op how).reverse = beads back.reverse ++ beads op.reverse := by
  have hrev : ∀ c ∈ op.reverse, isBreak c = true := fun c hc => hop c (List.mem_reverse.mp hc)
  have hbare : beads (back.dropWhile isBlank).reverse = beads back.reverse := by
    have := beads_dropEnd (p := isBlank) (fun _ => isSpace_of_isBlank) back.reverse
    rwa [dropEnd, List.reverse_reverse] at this
  have hblank : ∀ c ∈ [' '], isSpace c = true := by decide
  have hspace : ∀ x : Text, beads (x ++ [' ']) = beads x := by
    intro x
    have := beads_append_spaces (x := x) (y := []) (by simp) hblank
    rwa [List.append_nil, beads_nil, List.append_nil] at this
  cases how with
  | exponent =>
    rw [setOperator, List.reverse_append, beads_append (loose_breaks_right hrev)]
  | sign =>
    rw [setOperator, ← hbare]
    split
    · rename_i h
      rw [h]
      rfl
    · rename_i bare h
      rw [h, List.reverse_append, beads_append (loose_breaks_right hrev)]
    · rename_i bare _ _
      rw [List.reverse_append, List.reverse_cons, beads_append_spaces (by simp) hblank]
  | binary =>
    rw [setOperator, ← hbare]
    split
    · rename_i h
      rw [h, List.reverse_cons, hspace]
      rfl
    · rw [List.cons_append, List.reverse_cons, hspace, List.reverse_append, List.reverse_cons,
        beads_append_spaces (by simp) hblank]

/-- What an operator is set into ends with a break. -/
theorem last_setOperator {back op : Text} (hop : ∀ c ∈ op, isBreak c = true) (hne : op ≠ [])
    (how : Setting) : ((setOperator back op how).head?).all isBreak = true := by
  obtain ⟨c, op, rfl⟩ := List.exists_cons_of_ne_nil hne
  have hc : isBreak c = true := hop c List.mem_cons_self
  cases how with
  | exponent => simpa [setOperator] using hc
  | sign =>
    rw [setOperator]
    split <;> simpa using hc
  | binary =>
    rw [setOperator]
    split <;> rfl

/-- A match of an operator: breaks only, and not all of them blanks. -/
def OperatorHit (h : Text) : Prop :=
  (∀ c ∈ h, isBreak c = true) ∧ ∃ c ∈ h, isOperator c = true

theorem operatorHit_of_mem {t h : Text} (hh : h ∈ (operatorPattern.weave t).hits) :
    OperatorHit h := by
  obtain ⟨c, op, rfl, hc, hop⟩ := hit_operator hh
  refine ⟨fun d hd => ?_, c, List.mem_cons_self, hc⟩
  rcases List.mem_cons.mp hd with rfl | hd
  · exact isBreak_of_isOperator hc
  · rcases hop d hd with h | h
    · exact isBreak_of_isSpace (isSpace_of_isBlank h)
    · exact isBreak_of_isOperator h

theorem OperatorHit.beads_filter {h : Text} (hh : OperatorHit h) :
    beads (h.filter (!isBlank ·)) = beads h := by
  rw [beads_breaks hh.1, beads_breaks fun c hc => hh.1 c (List.mem_of_mem_filter hc),
    List.filter_filter]
  congr 2
  funext c
  cases ho : isOperator c with
  | false => rfl
  | true => simp [isBlank_of_isOperator ho]

theorem beads_setOperators {back : Text} {rest : List (Text × Text)}
    (h : ∀ p ∈ rest, OperatorHit p.1) :
    beads (setOperators back rest).reverse =
      beads back.reverse ++ rest.flatMap fun p => beads p.1 ++ beads p.2 := by
  induction rest generalizing back with
  | nil => simp [setOperators]
  | cons p rest ih =>
    obtain ⟨hit, after⟩ := p
    have hhit : OperatorHit hit := h (hit, after) List.mem_cons_self
    have hops : ∀ c ∈ (hit.filter (!isBlank ·)).reverse, isBreak c = true :=
      fun c hc => hhit.1 c (List.mem_of_mem_filter (List.mem_reverse.mp hc))
    have hne : (hit.filter (!isBlank ·)).reverse ≠ [] := by
      obtain ⟨c, hc, hop⟩ := hhit.2
      intro hnil
      have : c ∈ hit.filter (!isBlank ·) := by
        rw [List.mem_filter, isBlank_of_isOperator hop]
        exact ⟨hc, rfl⟩
      rw [List.reverse_eq_nil_iff.mp hnil] at this
      cases this
    rw [setOperators, ih fun q hq => h q (List.mem_cons_of_mem _ hq), List.reverse_append,
      List.reverse_reverse, beads_append, beads_setOperator hops, List.reverse_reverse,
      hhit.beads_filter, beads_dropWhile fun _ => isSpace_of_isBlank]
    · simp
    · apply loose_of_last
      rw [List.getLast?_reverse]
      exact last_setOperator hops hne _

theorem beads_source {w : Weave} (h : ∀ p ∈ w.rest, OperatorHit p.1) :
    beads w.source = beads w.head ++ w.rest.flatMap fun p => beads p.1 ++ beads p.2 := by
  obtain ⟨head, rest⟩ := w
  induction rest generalizing head with
  | nil => simp [Weave.source]
  | cons p rest ih =>
    have hhit : OperatorHit p.1 := h p List.mem_cons_self
    have hmore : beads (Weave.mk p.2 rest).source =
        beads p.2 ++ rest.flatMap fun p => beads p.1 ++ beads p.2 :=
      ih p.2 fun q hq => h q (List.mem_cons_of_mem _ hq)
    have hsource : (Weave.mk head (p :: rest)).source =
        (head ++ p.1) ++ (Weave.mk p.2 rest).source := by
      simp [Weave.source]
    have hlast : Loose (head ++ p.1) (Weave.mk p.2 rest).source := by
      apply loose_of_last
      obtain ⟨c, hc, _⟩ := hhit.2
      have hl := List.getLast?_eq_some_getLast (List.ne_nil_of_mem hc)
      rw [List.getLast?_append, hl]
      exact hhit.1 _ (List.mem_of_getLast? hl)
    rw [hsource, beads_append hlast, beads_append (loose_breaks_right hhit.1), hmore]
    simp

@[simp] theorem beads_spaceOperators (code : Text) : beads (spaceOperators code) = beads code := by
  have hhits : ∀ p ∈ (operatorPattern.weave code).rest, OperatorHit p.1 :=
    fun p hp => operatorHit_of_mem (List.mem_map_of_mem hp)
  have hsource := beads_source hhits
  rw [operatorPattern, Pattern.source_weave] at hsource
  have hend : ∀ t : Text, beads (t.dropWhile isBlank).reverse = beads t.reverse := by
    intro t
    have := beads_dropEnd (p := isBlank) (fun _ => isSpace_of_isBlank) t.reverse
    rwa [dropEnd, List.reverse_reverse] at this
  rw [spaceOperators, hend, beads_setOperators hhits, List.reverse_reverse, hsource]
  rfl

@[simp] theorem beads_spaceContinuation (code : Text) :
    beads (spaceContinuation code) = beads code := by
  rw [spaceContinuation]
  split
  · rename_i c t hrev
    split
    · rename_i hc
      -- blanks in front of the mark are exchanged for one
      obtain ⟨s, hs, hblank⟩ := dropEnd_append isBlank (c :: t).reverse
      have hcode : code = dropEnd isBlank (c :: t).reverse ++ s ++ ['_'] := by
        rw [← hs, ← List.reverse_reverse code, hrev]
        simp
      have hne : s ≠ [] := by
        rintro rfl
        have hlen := congrArg List.length hs
        simp only [dropEnd, List.reverse_reverse, List.dropWhile_cons, hc, if_true,
          List.length_reverse, List.append_nil, List.length_cons] at hlen
        have := (List.dropWhile_suffix isBlank (l := t)).length_le
        omega
      have hsplit : ∀ x : Text, x ++ [' ', '_'] = x ++ [' '] ++ ['_'] := by simp
      have hdrop : ((c :: t).dropWhile isBlank).reverse = dropEnd isBlank (c :: t).reverse := by
        rw [dropEnd, List.reverse_reverse]
      rw [hdrop, hsplit, beads_append_spaces (by simp) (by decide), hcode,
        beads_append_spaces hne fun d hd => isSpace_of_isBlank (hblank d hd)]
    · rfl
  · rfl

end VbTidy
