import VbTidy.Proofs.Lift

/-
Strings and comments of one line. A line is read as characters, closed strings and at most one
quote that no other closes; `line_induction` follows that reading. The comment of a line is found at
the same place before and after its strings were masked (`splitFrom_masked`), and two lines that
differ only inside their strings and behind the apostrophe of their comment (`SameCode`) are masked
to the same line (`SameCode.masked_eq`).
-/
namespace VbTidy

theorem startsStatement_char {c : Char} (hc : c ≠ '\x00') (before : Text) :
    startsStatement (c :: before) = if isSpace c then startsStatement before else c == ':' := by
  by_cases hs : isSpace c = true
  · simp [startsStatement, hs]
  · have hdrop : (c :: before).dropWhile isSpace = c :: before := by simp [hs]
    have htoken : Kind.markup.token.reverse.isPrefixOf (c :: before) = false := by
      have h : Kind.markup.token.reverse = '\x00' :: "lmth\x00".toList := rfl
      rw [h, List.isPrefixOf_cons_cons]
      simp [Ne.symm hc]
    rw [startsStatement, hdrop, if_neg hs]
    by_cases hcolon : c = ':'
    · subst hcolon
      rfl
    · split
      · simp_all
      · simp_all
      · simp_all

theorem startsStatement_quote (before : Text) : startsStatement ('"' :: before) = false := by
  rw [startsStatement_char (by decide)]
  rfl

theorem startsStatement_string (before : Text) :
    startsStatement (Kind.string.token.reverse ++ before) = false := by
  rfl

/-- Two texts that agree up to a place where neither goes on with a letter of Rem or a white space
character. -/
inductive Near : Text → Text → Prop
  | same (t : Text) : Near t t
  | cons (c : Char) {t t' : Text} (h : Near t t') : Near (c :: t) (c :: t')
  | stop {c d : Char} (hc : c ∈ ['"', '\'', '\x00']) (hd : d ∈ ['"', '\'', '\x00']) (t t' : Text) :
    Near (c :: t) (d :: t')

theorem isRem_eq (t : Text) :
    isRem t = (((t.head?).any fun c => lowerChar c == 'r') &&
      ((t.tail.head?).any fun c => lowerChar c == 'e') &&
      ((t.tail.tail.head?).any fun c => lowerChar c == 'm') &&
      (t.tail.tail.tail.head?).all isSpace) := by
  unfold isRem
  split
  · rfl
  · next h =>
    rcases t with _ | ⟨a, _ | ⟨b, _ | ⟨c, t⟩⟩⟩
    · rfl
    · simp
    · simp
    · exact absurd rfl (h a b c t)

theorem Near.head {t t' : Text} (h : Near t t') (p : Char → Bool)
    (hp : ∀ c ∈ ['"', '\'', '\x00'], p c = false) :
    (t.head?).any p = (t'.head?).any p ∧ (t.head?).all p = (t'.head?).all p := by
  cases h with
  | same => exact ⟨rfl, rfl⟩
  | cons => exact ⟨rfl, rfl⟩
  | stop hc hd =>
    constructor
    · simp [hp _ hc, hp _ hd]
    · simp [hp _ hc, hp _ hd]

theorem Near.tail_of_head {t t' : Text} (h : Near t t') {p : Char → Bool}
    (hp : ∀ c ∈ ['"', '\'', '\x00'], p c = false) (ht : (t.head?).any p = true) :
    Near t.tail t'.tail := by
  cases h with
  | same => exact .same _
  | cons _ h => exact h
  | stop hc => simp [hp _ hc] at ht

/-- Whether Rem stands at a place does not depend on what follows a character that is neither a
letter nor white space. -/
theorem isRem_near {t t' : Text} (h : Near t t') : isRem t = isRem t' := by
  have hletter : ∀ l ∈ ['r', 'e', 'm'], ∀ c ∈ ['"', '\'', '\x00'], (lowerChar c == l) = false := by
    decide
  have hspace : ∀ c ∈ ['"', '\'', '\x00'], isSpace c = false := by decide
  have hr := hletter 'r' (by decide)
  have he := hletter 'e' (by decide)
  have hm := hletter 'm' (by decide)
  rw [isRem_eq, isRem_eq, ← (h.head _ hr).1]
  cases h₁ : (t.head?).any fun c => lowerChar c == 'r' with
  | false => rfl
  | true =>
    have n₁ := h.tail_of_head hr h₁
    rw [← (n₁.head _ he).1]
    cases h₂ : (t.tail.head?).any fun c => lowerChar c == 'e' with
    | false => rfl
    | true =>
      have n₂ := n₁.tail_of_head he h₂
      rw [← (n₂.head _ hm).1]
      cases h₃ : (t.tail.tail.head?).any fun c => lowerChar c == 'm' with
      | false => rfl
      | true => rw [((n₂.tail_of_head hm h₃).head _ hspace).2]

/-- A line as its code and its comment, where `before` stands in front of the line, last character
first. -/
def splitFrom (before line : Text) : Text × Text :=
  match remarkFrom false before line with
  | none => (line, [])
  | some i => line.splitAt i

theorem splitRemark_eq (line : Text) : splitRemark line = splitFrom [] line := rfl

/-- Whether a comment starts at a place behind `before`. -/
def remarkHere (before t : Text) : Bool :=
  t.head? == some '\'' || (isRem t && startsStatement before)

theorem splitFrom_here {before : Text} {c : Char} {t : Text} (hc : c ≠ '"')
    (h : remarkHere before (c :: t) = true) : splitFrom before (c :: t) = ([], c :: t) := by
  have hs : (c == '\'' || (isRem (c :: t) && startsStatement before)) = true := by
    simpa [remarkHere] using h
  have : remarkFrom false before (c :: t) = some 0 := by
    rw [remarkFrom, if_neg (by simpa using hc), if_pos (by simpa using hs)]
  rw [splitFrom, this]
  rfl

/-- What a text in front of a line adds to its code. -/
theorem splitFrom_of_map {before before' s t : Text}
    (h : remarkFrom false before (s ++ t) = (remarkFrom false before' t).map (· + s.length)) :
    splitFrom before (s ++ t) = (s ++ (splitFrom before' t).1, (splitFrom before' t).2) := by
  rw [splitFrom, splitFrom, h]
  cases remarkFrom false before' t with
  | none => rfl
  | some i =>
    show (s ++ t).splitAt (i + s.length) = (s ++ (t.splitAt i).1, (t.splitAt i).2)
    rw [List.splitAt_eq, List.splitAt_eq, Nat.add_comm, List.take_length_add_append,
      List.drop_length_add_append]

theorem splitFrom_char {before : Text} {c : Char} {t : Text} (hc : c ≠ '"')
    (h : remarkHere before (c :: t) = false) :
    splitFrom before (c :: t) =
      (c :: (splitFrom (c :: before) t).1, (splitFrom (c :: before) t).2) := by
  have hs : (c == '\'' || (isRem (c :: t) && startsStatement before)) = false := by
    simpa [remarkHere] using h
  apply splitFrom_of_map (s := [c])
  show remarkFrom false before (c :: t) = _
  rw [remarkFrom, if_neg (by simpa using hc), if_neg (by simp [hs])]
  rfl

/-- A text without the characters that end a string before its quote does. -/
def OneLine (t : Text) : Prop :=
  '\r' ∉ t ∧ '\n' ∉ t

theorem OneLine.tail {c : Char} {t : Text} (h : OneLine (c :: t)) : OneLine t :=
  ⟨fun hr => h.1 (List.mem_cons_of_mem _ hr), fun hn => h.2 (List.mem_cons_of_mem _ hn)⟩

theorem OneLine.append {s t : Text} (h : OneLine (s ++ t)) : OneLine s ∧ OneLine t := by
  simp only [OneLine, List.mem_append, not_or] at h ⊢
  exact ⟨⟨h.1.1, h.2.1⟩, ⟨h.1.2, h.2.2⟩⟩

theorem oneLine_of_no_lineEnd {t : Text} (h : ∀ c ∈ t, isLineEnd c = false) : OneLine t :=
  ⟨fun hr => absurd (h _ hr) (by decide), fun hn => absurd (h _ hn) (by decide)⟩

/-- A string, without a quote or a line break inside. -/
def Quotable (b : Text) : Prop :=
  ∀ c ∈ b, c ≠ '"' ∧ isLineEnd c = false

theorem Quotable.oneLine {b : Text} (h : Quotable b) : OneLine b :=
  oneLine_of_no_lineEnd fun c hc => (h c hc).2

theorem remarkFrom_quoted {b : Text} (hb : '"' ∉ b) (before t : Text) :
    remarkFrom true before (b ++ '"' :: t) =
      (remarkFrom false (('"' :: b.reverse) ++ before) t).map (· + (b.length + 1)) := by
  induction b generalizing before with
  | nil => rfl
  | cons c b ih =>
    have hc : c ≠ '"' := fun h => hb (by simp [h])
    rw [List.cons_append, remarkFrom, if_neg (by simpa using hc), if_neg (by simp),
      ih fun h => hb (by simp [h])]
    simp only [List.reverse_cons, List.append_assoc, List.cons_append, List.nil_append,
      Option.map_map, List.length_cons]
    congr 1

theorem remarkFrom_unclosed {b : Text} (hb : '"' ∉ b) (before : Text) :
    remarkFrom true before b = none := by
  induction b generalizing before with
  | nil => rfl
  | cons c b ih =>
    have hc : c ≠ '"' := fun h => hb (by simp [h])
    rw [remarkFrom, if_neg (by simpa using hc), if_neg (by simp), ih fun h => hb (by simp [h])]
    rfl

theorem splitFrom_string {b : Text} (hb : '"' ∉ b) (before t : Text) :
    splitFrom before ('"' :: (b ++ '"' :: t)) =
      ('"' :: (b ++ '"' :: (splitFrom (('"' :: b.reverse) ++ '"' :: before) t).1),
        (splitFrom (('"' :: b.reverse) ++ '"' :: before) t).2) := by
  have hstart : remarkFrom false before ('"' :: (b ++ ['"']) ++ t) =
      (remarkFrom false (('"' :: b.reverse) ++ '"' :: before) t).map
        (· + ('"' :: (b ++ ['"'])).length) := by
    rw [List.cons_append, remarkFrom, if_pos (by rfl), List.append_assoc]
    show (remarkFrom true ('"' :: before) (b ++ '"' :: t)).map _ = _
    rw [remarkFrom_quoted hb, Option.map_map]
    simp only [List.length_cons, List.length_append, List.length_nil]
    congr 1
  simpa using splitFrom_of_map hstart

theorem splitFrom_unclosed {b : Text} (hb : '"' ∉ b) (before : Text) :
    splitFrom before ('"' :: b) = ('"' :: b, []) := by
  have h : remarkFrom false before ('"' :: b) = none := by
    rw [remarkFrom, if_pos (by rfl)]
    show (remarkFrom true ('"' :: before) b).map _ = _
    rw [remarkFrom_unclosed hb]
    rfl
  rw [splitFrom, h]

/-- A line is made of characters, closed strings and at most one quote that stays open. -/
theorem line_induction {motive : Text → Prop} (nil : motive [])
    (char : ∀ c t, c ≠ '"' → motive t → motive (c :: t))
    (string : ∀ b t, '"' ∉ b → motive t → motive ('"' :: (b ++ '"' :: t)))
    (unclosed : ∀ b, '"' ∉ b → motive ('"' :: b)) (t : Text) : motive t := by
  -- By length, since a string is passed over as a whole.
  induction hn : t.length using Nat.strongRecOn generalizing t with
  | ind n ih =>
    subst hn
    cases t with
    | nil => exact nil
    | cons c t =>
      by_cases hc : c = '"'
      · subst hc
        by_cases hq : '"' ∈ t
        · obtain ⟨b, u, rfl, hb⟩ := List.eq_append_cons_of_mem hq
          exact string b u hb (ih u.length (by simp; omega) u rfl)
        · exact unclosed t hq
      · exact char c t hc (ih t.length (by simp) t rfl)

/-- Code with its strings masked. -/
def maskStrings (code : Text) : Text :=
  Lifting.mask .string ((Pattern.ofRest dropString?).weave code)

@[simp] theorem maskStrings_nil : maskStrings [] = [] := rfl

theorem maskStrings_char {c : Char} {t : Text} (h : dropString? (c :: t) = none) :
    maskStrings (c :: t) = c :: maskStrings t := by
  rw [maskStrings, Pattern.weave_ofRest_miss h]
  exact Weave.replace_push ..

theorem dropString?_char {c : Char} (hc : c ≠ '"') (t : Text) : dropString? (c :: t) = none := by
  unfold dropString?
  split
  · next h => simp_all
  · rfl

theorem dropWhile_quotable {b : Text} (hq : '"' ∉ b) (hb : OneLine b) (t : Text) :
    (b ++ '"' :: t).dropWhile (fun c => c != '"' && c != '\r' && c != '\n') = '"' :: t := by
  have hall : ∀ c ∈ b, (c != '"' && c != '\r' && c != '\n') = true := by
    intro c hc
    simp only [Bool.and_eq_true, bne_iff_ne]
    refine ⟨⟨?_, ?_⟩, ?_⟩
    · rintro rfl
      exact hq hc
    · rintro rfl
      exact hb.1 hc
    · rintro rfl
      exact hb.2 hc
  rw [List.dropWhile_append_of_pos hall]
  rfl

theorem dropString?_string {b : Text} (hq : '"' ∉ b) (hb : OneLine b) (t : Text) :
    dropString? ('"' :: (b ++ '"' :: t)) = some t := by
  rw [dropString?, dropWhile_quotable hq hb]
  rfl

theorem dropString?_unclosed {b : Text} (hb : '"' ∉ b) : dropString? ('"' :: b) = none := by
  rw [dropString?]
  split
  · next h =>
    have hmem : '"' ∈ b := (List.dropWhile_sublist _).subset (h ▸ List.mem_cons_self)
    exact absurd hmem hb
  · rfl

theorem maskStrings_string {b : Text} (hq : '"' ∉ b) (hb : OneLine b) (t : Text) :
    maskStrings ('"' :: (b ++ '"' :: t)) = Kind.string.token ++ maskStrings t := by
  have hsplit : '"' :: (b ++ '"' :: t) = '"' :: (b ++ ['"']) ++ t := by simp
  have hdrop : dropString? ('"' :: (b ++ ['"']) ++ t) = some t := by
    rw [← hsplit, dropString?_string hq hb]
  rw [maskStrings, hsplit, Pattern.weave_ofRest_hit (List.cons_ne_nil _ _) hdrop]
  exact Weave.replace_pushHit ..

theorem maskStrings_quote_free {t : Text} (h : '"' ∉ t) : maskStrings t = t := by
  induction t with
  | nil => rfl
  | cons c t ih =>
    have hc : c ≠ '"' := fun e => h (by simp [e])
    rw [maskStrings_char (dropString?_char hc t), ih fun e => h (by simp [e])]

theorem maskStrings_unclosed {b : Text} (hb : '"' ∉ b) : maskStrings ('"' :: b) = '"' :: b := by
  rw [maskStrings_char (dropString?_unclosed hb), maskStrings_quote_free hb]

/-- A line with the strings of its code masked. -/
def stringsMasked (before line : Text) : Text :=
  maskStrings (splitFrom before line).1 ++ (splitFrom before line).2

theorem mask_cutStrings (line : Text) :
    Lifting.mask .string (cutStrings line) = stringsMasked [] line := by
  rw [cutStrings_eq, Lifting.mask, Weave.replace_append]
  simp [stringsMasked, maskStrings, Lifting.mask, splitRemark_eq, Weave.replace]

theorem stringsMasked_here {before : Text} {c : Char} {t : Text} (hc : c ≠ '"')
    (h : remarkHere before (c :: t) = true) : stringsMasked before (c :: t) = c :: t := by
  rw [stringsMasked, splitFrom_here hc h]
  rfl

theorem stringsMasked_char {before : Text} {c : Char} {t : Text} (hc : c ≠ '"')
    (h : remarkHere before (c :: t) = false) :
    stringsMasked before (c :: t) = c :: stringsMasked (c :: before) t := by
  rw [stringsMasked, splitFrom_char hc h, maskStrings_char (dropString?_char hc _)]
  rfl

theorem stringsMasked_string {b : Text} (hq : '"' ∉ b) (hb : OneLine b) (before t : Text) :
    stringsMasked before ('"' :: (b ++ '"' :: t)) =
      Kind.string.token ++ stringsMasked (('"' :: b.reverse) ++ '"' :: before) t := by
  rw [stringsMasked, splitFrom_string hq, maskStrings_string hq hb, List.append_assoc]
  rfl

theorem stringsMasked_unclosed {b : Text} (hb : '"' ∉ b) (before : Text) :
    stringsMasked before ('"' :: b) = '"' :: b := by
  rw [stringsMasked, splitFrom_unclosed hb, maskStrings_unclosed hb, List.append_nil]

/-- Characters that may stand on a line of plain script. -/
def OnLine (t : Text) : Prop :=
  ∀ c ∈ t, c ≠ '\x00' ∧ isLineEnd c = false

theorem OnLine.tail {c : Char} {t : Text} (h : OnLine (c :: t)) : OnLine t :=
  fun d hd => h d (by simp [hd])

theorem OnLine.string {b t : Text} (h : OnLine ('"' :: (b ++ '"' :: t))) (hb : '"' ∉ b) :
    Quotable b ∧ OnLine t := by
  constructor
  · intro c hc
    exact ⟨fun e => hb (e ▸ hc), (h c (by simp [hc])).2⟩
  · intro c hc
    exact h c (by simp [hc])

theorem OnLine.oneLine {t : Text} (h : OnLine t) : OneLine t :=
  oneLine_of_no_lineEnd fun c hc => (h c hc).2

theorem OnLine.sound {t : Text} (h : OnLine t) : Sound 1 t :=
  .of_nul_free fun hnul => (h _ hnul).1 rfl

/-! ## Tokens on a line -/

/-- Strings of a line may hold tokens, since no token holds a quote. -/
theorem sound_string {n : Nat} {b t : Text} (h : Sound n ('"' :: (b ++ '"' :: t))) :
    Sound n t := by
  have hrest := (Sound.split (Sound.clean_cons (by decide) (by decide)) (h.tail (by decide))).2
  exact hrest.tail (by decide)

/-- A line of whole tokens is made of characters, tokens, closed strings and at most one quote that
stays open. -/
theorem sound_line_induction {n : Nat} {motive : (t : Text) → Sound n t → Prop}
    (nil : motive [] .nil)
    (char : ∀ c t (hc : c ≠ '\x00') (ht : Sound n t), c ≠ '"' → motive t ht →
      motive (c :: t) (.char hc ht))
    (token : ∀ m t (hm : n ≤ Mark.turn m) (ht : Sound n t), motive t ht →
      motive (m.token ++ t) (.token hm ht))
    (string : ∀ b t (h : Sound n ('"' :: (b ++ '"' :: t))) (ht : Sound n t), '"' ∉ b →
      motive t ht → motive ('"' :: (b ++ '"' :: t)) h)
    (unclosed : ∀ b (h : Sound n ('"' :: b)), '"' ∉ b → motive ('"' :: b) h)
    {t : Text} (h : Sound n t) : motive t h := by
  induction hlen : t.length using Nat.strongRecOn generalizing t with
  | ind len ih =>
    subst hlen
    cases h with
    | nil => exact nil
    | @token m t hm ht =>
      have hpos : 0 < m.token.length := by simp [Mark.token, tokenOf]
      exact token m t hm ht (ih t.length (by rw [List.length_append]; omega) ht rfl)
    | @char c t hc ht =>
      by_cases hquote : c = '"'
      · subst hquote
        by_cases hq : '"' ∈ t
        · obtain ⟨b, u, rfl, hb⟩ := List.eq_append_cons_of_mem hq
          have hu := sound_string (.char hc ht)
          exact string b u (.char hc ht) hu hb (ih u.length (by simp; omega) hu rfl)
        · exact unclosed t (.char hc ht) hq
      · exact char c t hc ht hquote (ih t.length (by simp) ht rfl)

/-- No comment starts in a token, those for error phrases apart. -/
theorem not_remarkHere_token {m : Mark} (hm : 1 ≤ m.turn) {v : Text} (hv : v <:+ m.token)
    (hne : v ≠ []) (before t : Text) : remarkHere before (v ++ t) = false := by
  cases hr : remarkHere before (v ++ t) with
  | false => rfl
  | true =>
    have hstart : StartsRemark (v ++ t) := by
      rw [remarkHere, Bool.or_eq_true, beq_iff_eq, Bool.and_eq_true] at hr
      exact hr.imp id And.left
    -- a token would reach into the comment, or the comment would start with its NUL
    rcases hstart.clean (Nat.le_refl 1) [] m hm v hv (by simp) with h | h
    · exact absurd h hne
    · rw [h] at hstart
      rcases hstart with h | h
      · simp [Mark.token, tokenOf] at h
      · rw [isRem_eq] at h
        have hnul : lowerChar '\x00' ≠ 'r' := by decide
        simp [Mark.token, tokenOf, hnul] at h

/-- A text in which no comment starts and no quote stands is passed over. -/
theorem splitFrom_pass {s t : Text} (hq : '"' ∉ s)
    (h : ∀ b v, v <:+ s → v ≠ [] → remarkHere b (v ++ t) = false) (before : Text) :
    splitFrom before (s ++ t) =
      (s ++ (splitFrom (s.reverse ++ before) t).1, (splitFrom (s.reverse ++ before) t).2) := by
  induction s generalizing before with
  | nil => rfl
  | cons c s ih =>
    rw [List.mem_cons, not_or] at hq
    have hhere := h before (c :: s) (List.suffix_refl _) (List.cons_ne_nil c s)
    rw [List.cons_append] at hhere ⊢
    rw [splitFrom_char (Ne.symm hq.1) hhere,
      ih hq.2 fun b v hv => h b v (hv.trans (List.suffix_cons c s))]
    simp

theorem splitFrom_token {m : Mark} (hm : 1 ≤ m.turn) (before t : Text) :
    splitFrom before (m.token ++ t) =
      (m.token ++ (splitFrom (m.token.reverse ++ before) t).1,
        (splitFrom (m.token.reverse ++ before) t).2) :=
  splitFrom_pass (Mark.not_mem_token (by decide) (by decide))
    (fun b _ hv hne => not_remarkHere_token hm hv hne b t) before

theorem maskStrings_append {s : Text} (hq : '"' ∉ s) (t : Text) :
    maskStrings (s ++ t) = s ++ maskStrings t := by
  induction s with
  | nil => rfl
  | cons c s ih =>
    rw [List.mem_cons, not_or] at hq
    rw [List.cons_append, maskStrings_char (dropString?_char (Ne.symm hq.1) _), ih hq.2,
      List.cons_append]

theorem stringsMasked_token {m : Mark} (hm : 1 ≤ m.turn) (before t : Text) :
    stringsMasked before (m.token ++ t) =
      m.token ++ stringsMasked (m.token.reverse ++ before) t := by
  rw [stringsMasked, splitFrom_token hm,
    maskStrings_append (Mark.not_mem_token (by decide) (by decide)), List.append_assoc]
  rfl

/-- Behind a token it does not count what stands in front of that. -/
theorem startsStatement_token (m : Mark) (before before' : Text) :
    startsStatement (m.token.reverse ++ before) = startsStatement (m.token.reverse ++ before') := by
  cases m with
  | kind k => cases k <;> rfl
  | fence => rfl

theorem Near.prepend {t t' : Text} (s : Text) (h : Near t t') : Near (s ++ t) (s ++ t') := by
  induction s with
  | nil => exact h
  | cons c s ih => exact .cons c ih

theorem near_stringsMasked {t : Text} (ht : Sound 1 t) (hline : OneLine t) (before : Text) :
    Near t (stringsMasked before t) := by
  induction ht using sound_line_induction generalizing before with
  | nil => exact .same _
  | char c t _ _ hc ih =>
    cases hr : remarkHere before (c :: t) with
    | true =>
      rw [stringsMasked_here hc hr]
      exact .same _
    | false =>
      rw [stringsMasked_char hc hr]
      exact .cons c (ih hline.tail _)
  | token m t hm _ ih =>
    rw [stringsMasked_token hm]
    exact (ih hline.append.2 _).prepend _
  | string b t _ _ hb _ =>
    rw [stringsMasked_string hb hline.tail.append.1]
    exact .stop (by decide) (by decide) _ _
  | unclosed b _ hb =>
    rw [stringsMasked_unclosed hb]
    exact .same _

theorem remarkHere_congr {before before' : Text} {c : Char} {t t' : Text}
    (hb : startsStatement before = startsStatement before') (h : Near t t') :
    remarkHere before (c :: t) = remarkHere before' (c :: t') := by
  rw [remarkHere, remarkHere, hb, isRem_near (.cons c h)]
  rfl

theorem startsStatement_congr {before before' : Text} {c : Char} (hc : c ≠ '\x00')
    (h : startsStatement before = startsStatement before') :
    startsStatement (c :: before) = startsStatement (c :: before') := by
  rw [startsStatement_char hc, startsStatement_char hc, h]

/-- The comment of a line stands at the same place once the strings are masked. -/
theorem splitFrom_masked {t : Text} (ht : Sound 1 t) (hline : OneLine t) {before before' : Text}
    (hb : startsStatement before = startsStatement before') :
    splitFrom before' (stringsMasked before t) =
      (maskStrings (splitFrom before t).1, (splitFrom before t).2) := by
  induction ht using sound_line_induction generalizing before before' with
  | nil => rfl
  | char c t hnul ht hc ih =>
    have hnear := near_stringsMasked ht hline.tail (c :: before)
    cases hr : remarkHere before (c :: t) with
    | true =>
      have hr' : remarkHere before' (c :: t) = true := by
        rw [← remarkHere_congr hb (.same t), hr]
      rw [stringsMasked_here hc hr, splitFrom_here hc hr, splitFrom_here hc hr']
      rfl
    | false =>
      have hr' : remarkHere before' (c :: stringsMasked (c :: before) t) = false := by
        rw [← remarkHere_congr hb hnear, hr]
      rw [stringsMasked_char hc hr, splitFrom_char hc hr', splitFrom_char hc hr,
        ih hline.tail (startsStatement_congr hnul hb), maskStrings_char (dropString?_char hc _)]
  | token m t hm _ ih =>
    rw [stringsMasked_token hm, splitFrom_token hm, splitFrom_token hm,
      ih hline.append.2 (startsStatement_token m before before'),
      maskStrings_append (Mark.not_mem_token (by decide) (by decide))]
  | string b t _ _ hb' ih =>
    have hstart : startsStatement (('"' :: b.reverse) ++ '"' :: before) =
        startsStatement (Kind.string.token.reverse ++ before') := by
      rw [startsStatement_string]
      exact startsStatement_quote _
    have htoken := @splitFrom_token (.kind .string) (by decide) before'
    rw [stringsMasked_string hb' hline.tail.append.1, splitFrom_string hb',
      maskStrings_string hb' hline.tail.append.1]
    refine (htoken _).trans ?_
    rw [show (Mark.kind .string).token = Kind.string.token from rfl,
      ih hline.tail.append.2.tail hstart]
  | unclosed b _ hb' =>
    rw [stringsMasked_unclosed hb', splitFrom_unclosed hb', splitFrom_unclosed hb',
      maskStrings_unclosed hb']

/-- A line with its strings and its comment masked. -/
def masked (line : Text) : Text :=
  Lifting.mask .remark (cutRemark (Lifting.mask .string (cutStrings line)))

theorem mask_cutRemark (line : Text) :
    Lifting.mask .remark (cutRemark line) =
      (splitRemark line).1 ++ if (splitRemark line).2 = [] then [] else Kind.remark.token := by
  obtain ⟨h, hr⟩ | ⟨h, hr⟩ := cutRemark_eq line
  · simp [h, hr, Lifting.mask, Weave.replace]
  · have hne : (splitRemark line).2 ≠ [] := by
      intro e
      rw [e] at hr
      obtain hr | hr := hr
      · simp at hr
      · simp [isRem] at hr
    simp [h, hne, Lifting.mask, Weave.replace]

theorem masked_eq {line : Text} (h : OnLine line) :
    masked line = maskStrings (splitRemark line).1 ++
      if (splitRemark line).2 = [] then [] else Kind.remark.token := by
  rw [masked, mask_cutRemark, mask_cutStrings, splitRemark_eq, splitFrom_masked h.sound h.oneLine rfl,
    ← splitRemark_eq]

/-- Two lines that differ only inside strings, and behind the apostrophe of a comment. -/
inductive SameCode : Text → Text → Prop
  | same (t : Text) : SameCode t t
  | char {c : Char} {t t' : Text} (hc : c ≠ '"') (h : SameCode t t') : SameCode (c :: t) (c :: t')
  | string {b b' t t' : Text} (hb : Quotable b) (hb' : Quotable b') (h : SameCode t t') :
    SameCode ('"' :: (b ++ '"' :: t)) ('"' :: (b' ++ '"' :: t'))
  | remark (b b' : Text) : SameCode ('\'' :: b) ('\'' :: b')

namespace SameCode

theorem near {t t' : Text} (h : SameCode t t') : Near t t' := by
  induction h with
  | same t => exact .same t
  | char _ _ ih => exact .cons _ ih
  | string => exact .stop (by decide) (by decide) _ _
  | remark => exact .stop (by decide) (by decide) _ _

/-- The code of a text does not depend on what stands before it but through the start of a
statement. -/
theorem splitFrom_congr {t : Text} (ht : OnLine t) {before before' : Text}
    (hb : startsStatement before = startsStatement before') :
    splitFrom before t = splitFrom before' t := by
  induction t using line_induction generalizing before before' with
  | nil => rfl
  | char c t hc ih =>
    have hr' := remarkHere_congr (c := c) hb (.same t)
    cases hr : remarkHere before (c :: t) with
    | true => rw [splitFrom_here hc hr, splitFrom_here hc (hr'.symm.trans hr)]
    | false =>
      rw [splitFrom_char hc hr, splitFrom_char hc (hr'.symm.trans hr),
        ih ht.tail (startsStatement_congr (ht c (by simp)).1 hb)]
  | string b t hb' ih =>
    have hstart : startsStatement (('"' :: b.reverse) ++ '"' :: before) =
        startsStatement (('"' :: b.reverse) ++ '"' :: before') :=
      (startsStatement_quote _).trans (startsStatement_quote _).symm
    rw [splitFrom_string hb', splitFrom_string hb', ih (ht.string hb').2 hstart]
  | unclosed b hb' => rw [splitFrom_unclosed hb', splitFrom_unclosed hb']

theorem split {t t' : Text} (h : SameCode t t') (ht : OnLine t) (ht' : OnLine t')
    {before before' : Text} (hb : startsStatement before = startsStatement before') :
    maskStrings (splitFrom before t).1 = maskStrings (splitFrom before' t').1 ∧
      ((splitFrom before t).2 = [] ↔ (splitFrom before' t').2 = []) := by
  induction h generalizing before before' with
  | same t => rw [splitFrom_congr ht hb]; exact ⟨rfl, Iff.rfl⟩
  | @char c t t' hc h ih =>
    have hr' := remarkHere_congr (c := c) hb h.near
    cases hr : remarkHere before (c :: t) with
    | true =>
      rw [splitFrom_here hc hr, splitFrom_here hc (hr'.symm.trans hr)]
      simp
    | false =>
      rw [splitFrom_char hc hr, splitFrom_char hc (hr'.symm.trans hr)]
      have h' := ih ht.tail ht'.tail (startsStatement_congr (ht c (by simp)).1 hb)
      constructor
      · rw [maskStrings_char (dropString?_char hc _), maskStrings_char (dropString?_char hc _), h'.1]
      · exact h'.2
  | @string b b' t t' hq hq' h ih =>
    have hq₁ : '"' ∉ b := fun e => (hq _ e).1 rfl
    have hq₂ : '"' ∉ b' := fun e => (hq' _ e).1 rfl
    have hstart : startsStatement (('"' :: b.reverse) ++ '"' :: before) =
        startsStatement (('"' :: b'.reverse) ++ '"' :: before') :=
      (startsStatement_quote _).trans (startsStatement_quote _).symm
    have h' := ih (ht.string hq₁).2 (ht'.string hq₂).2 hstart
    rw [splitFrom_string hq₁, splitFrom_string hq₂]
    constructor
    · rw [maskStrings_string hq₁ hq.oneLine, maskStrings_string hq₂ hq'.oneLine, h'.1]
    · exact h'.2
  | remark b b' =>
    rw [splitFrom_here (by decide) (by simp [remarkHere]),
      splitFrom_here (by decide) (by simp [remarkHere])]
    simp

/-- Lines that differ only inside their strings and comments are masked to the same line. -/
theorem masked_eq {t t' : Text} (h : SameCode t t') (ht : OnLine t) (ht' : OnLine t') :
    masked t = masked t' := by
  obtain ⟨hcode, hremark⟩ := h.split ht ht' (rfl : startsStatement [] = startsStatement [])
  rw [VbTidy.masked_eq ht, VbTidy.masked_eq ht', splitRemark_eq, splitRemark_eq, hcode]
  simp only [hremark]

end SameCode

end VbTidy
