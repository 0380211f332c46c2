import VbTidy.Proofs.Beads

/-
Operators apart from blanks. An operator of two characters may have blanks between them, so where
operators start and end depends on the other characters alone: the cut of a text without its blanks
is the cut of the text, each part without its blanks (`weave_bare`). Since operators have no blanks
at their ends, two cuts of one text that are the same without blanks are the same
(`weave_of_bare`). The cut of two texts in a row is that of each of them, unless the second starts
with a character that may come second in an operator (`weave_detached`).
-/
namespace VbTidy

/-- A text without its blanks. -/
def bare (t : Text) : Text :=
  t.filter (!isBlank ·)

@[simp] theorem bare_nil : bare [] = [] := rfl

@[simp] theorem bare_append (s t : Text) : bare (s ++ t) = bare s ++ bare t :=
  List.filter_append ..

theorem bare_blank {c : Char} (hc : isBlank c = true) (t : Text) : bare (c :: t) = bare t := by
  rw [bare, List.filter_cons_of_neg (by simp [hc])]
  rfl

theorem bare_plain {c : Char} (hc : isBlank c = false) (t : Text) :
    bare (c :: t) = c :: bare t := by
  rw [bare, List.filter_cons_of_pos (by simp [hc])]
  rfl

@[simp] theorem bare_bare (t : Text) : bare (bare t) = bare t := by
  simp [bare]

@[simp] theorem bare_reverse (t : Text) : bare t.reverse = (bare t).reverse :=
  List.filter_reverse ..

@[simp] theorem bare_dropWhile (t : Text) : bare (t.dropWhile isBlank) = bare t := by
  induction t with
  | nil => rfl
  | cons c t ih =>
    rw [List.dropWhile_cons]
    split
    · rename_i hc
      rw [ih, bare_blank hc]
    · rfl

theorem bare_of_blanks {t : Text} (h : ∀ c ∈ t, isBlank c = true) : bare t = [] := by
  apply List.filter_eq_nil_iff.mpr
  intro c hc
  simp [h c hc]

theorem blank_cases {c : Char} (h : isBlank c = true) : c = ' ' ∨ c = '\t' := by
  simpa only [isBlank, Bool.or_eq_true, beq_iff_eq] using h

theorem dropBlanks_plain {c : Char} (hc : isBlank c = false) (t : Text) :
    (c :: t).dropWhile isBlank = c :: t :=
  List.dropWhile_cons_of_neg (by simp [hc])

/-- The first character behind blanks is none. -/
theorem head_dropBlanks {c : Char} {t rest : Text} (h : t.dropWhile isBlank = c :: rest) :
    isBlank c = false := by
  have hhead := List.head?_dropWhile_not isBlank t
  rw [h] at hhead
  simpa using hhead

/-! ## One operator -/

/-- The characters that may come second in an operator. -/
def seconds (c : Char) : List Char :=
  if c == '<' then ['>', '=']
  else if c == '=' then ['<', '>']
  else if c == '>' || c == '!' then ['=']
  else []

/-- The characters that are operators by themselves. -/
def standsAlone (c : Char) : Bool :=
  ['<', '=', '>', '&', '+', '-'].contains c

/-- An operator has a second character, with blanks before it or not, or stands alone. -/
theorem dropOperator?_cons (c : Char) (t : Text) :
    dropOperator? (c :: t) =
      match t.dropWhile isBlank with
      | d :: rest =>
        if (seconds c).contains d then some rest else if standsAlone c then some t else none
      | [] => if standsAlone c then some t else none := by
  rw [dropOperator?, seconds, standsAlone]
  unfold dropPair?
  cases t.dropWhile isBlank with
  | nil =>
    simp only [Option.or_none, Option.getD_none]
    split <;> grind
  | cons d rest =>
    grind

/-- Blanks do not count for where an operator ends. -/
theorem dropOperator?_bare {c : Char} (hc : isBlank c = false) (t : Text) :
    dropOperator? (bare (c :: t)) = (dropOperator? (c :: t)).map bare := by
  have hdrop : (bare t).dropWhile isBlank = bare (t.dropWhile isBlank) := by
    rw [bare_dropWhile]
    cases hb : bare t with
    | nil => rfl
    | cons d u =>
      have hd : d ∈ bare t := by rw [hb]; exact List.mem_cons_self
      exact dropBlanks_plain (by simpa using (List.mem_filter.mp hd).2) u
  rw [bare_plain hc, dropOperator?_cons, dropOperator?_cons, hdrop]
  cases hr : t.dropWhile isBlank with
  | nil =>
    simp only [bare_nil]
    split <;> rfl
  | cons d rest =>
    rw [bare_plain (head_dropBlanks hr)]
    simp only
    split
    · rfl
    · split <;> rfl

/-- A text with the character of an operator at either end. -/
def Edged (t : Text) : Prop :=
  (∃ c ∈ t.head?, isOperator c = true) ∧ ∃ c ∈ t.getLast?, isOperator c = true

/-- An operator is the first part of its text. -/
theorem dropOperator?_edged {t rest : Text} (h : dropOperator? t = some rest) :
    ∃ hit, t = hit ++ rest ∧ Edged hit := by
  cases t with
  | nil => cases h
  | cons c t =>
    obtain ⟨hc, rfl | ⟨second, hsecond, hpair⟩⟩ := dropOperator?_cases h
    · exact ⟨[c], rfl, ⟨c, rfl, hc⟩, c, rfl, hc⟩
    · obtain ⟨blanks, rfl, _⟩ := dropPair?_eq_some hpair
      refine ⟨c :: (blanks ++ [second]), by simp, ⟨c, rfl, hc⟩, second, ?_, hsecond⟩
      rw [List.getLast?_cons, List.getLast?_append]
      rfl

theorem Edged.ne_nil {t : Text} (h : Edged t) : t ≠ [] := by
  rintro rfl
  obtain ⟨⟨c, hc, _⟩, _⟩ := h
  cases hc

/-! ## The cut at operators -/

/-- Induction along the cut: over operators and the characters between them. -/
theorem operator_induction {motive : Text → Prop} (nil : motive [])
    (miss : ∀ c t, dropOperator? (c :: t) = none → motive t → motive (c :: t))
    (hit : ∀ hit rest, Edged hit → dropOperator? (hit ++ rest) = some rest → motive rest →
      motive (hit ++ rest)) (t : Text) : motive t := by
  -- an operator may be of any length, since blanks may stand in it
  induction hn : t.length using Nat.strongRecOn generalizing t with
  | ind n ih =>
    cases t with
    | nil => exact nil
    | cons c t =>
      cases hop : dropOperator? (c :: t) with
      | none => exact miss c t hop (ih t.length (by simp at hn; omega) t rfl)
      | some rest =>
        obtain ⟨op, hop', hedged⟩ := dropOperator?_edged hop
        have hpos := List.length_pos_iff.mpr hedged.ne_nil
        have hlen := congrArg List.length hop'
        rw [List.length_append] at hlen
        rw [hop'] at hop ⊢
        exact hit op rest hedged hop (ih rest.length (by omega) rest rfl)

theorem weave_operator_nil : operatorPattern.weave [] = ⟨[], []⟩ := rfl

theorem weave_operator_miss {c : Char} {t : Text} (h : dropOperator? (c :: t) = none) :
    operatorPattern.weave (c :: t) = (operatorPattern.weave t).push c :=
  Pattern.weave_ofRest_miss h

theorem weave_operator_hit {hit rest : Text} (hne : hit ≠ [])
    (h : dropOperator? (hit ++ rest) = some rest) :
    operatorPattern.weave (hit ++ rest) = (operatorPattern.weave rest).pushHit hit :=
  Pattern.weave_ofRest_hit hne h

theorem edged_hits (t : Text) : ∀ p ∈ (operatorPattern.weave t).rest, Edged p.1 := by
  induction t using operator_induction with
  | nil => intro p hp; cases hp
  | miss c t h ih => rw [weave_operator_miss h]; exact ih
  | hit op rest hedged h ih =>
    rw [weave_operator_hit hedged.ne_nil h]
    intro p hp
    rcases List.mem_cons.mp hp with rfl | hp
    · exact hedged
    · exact ih p hp

namespace Weave

/-- A cut, each part without its blanks. -/
def bare (w : Weave) : Weave :=
  ⟨VbTidy.bare w.head, w.rest.map fun p => (VbTidy.bare p.1, VbTidy.bare p.2)⟩

theorem bare_source (w : Weave) : w.bare.source = VbTidy.bare w.source := by
  obtain ⟨head, rest⟩ := w
  rw [source, source, bare, bare_append]
  congr 1
  induction rest with
  | nil => rfl
  | cons p rest ih =>
    rw [List.map_cons, List.flatMap_cons, List.flatMap_cons, bare_append, bare_append, ih]

theorem bare_push_blank {c : Char} (hc : isBlank c = true) (w : Weave) :
    (w.push c).bare = w.bare := by
  rw [push, bare, bare_blank hc]
  rfl

theorem bare_push_plain {c : Char} (hc : isBlank c = false) (w : Weave) :
    (w.push c).bare = w.bare.push c := by
  rw [push, bare, bare_plain hc]
  rfl

end Weave

/-- Blanks do not count for where operators start and end. -/
theorem weave_bare (t : Text) :
    operatorPattern.weave (bare t) = (operatorPattern.weave t).bare := by
  induction t using operator_induction with
  | nil => rfl
  | miss c t h ih =>
    rw [weave_operator_miss h]
    cases hc : isBlank c with
    | true => rw [bare_blank hc, ih, Weave.bare_push_blank hc]
    | false =>
      have hnone : dropOperator? (c :: bare t) = none := by
        rw [← bare_plain hc, dropOperator?_bare hc, h]
        rfl
      rw [bare_plain hc, weave_operator_miss hnone, ih, Weave.bare_push_plain hc]
  | hit op rest hedged h ih =>
    obtain ⟨⟨c, hhead, hoperator⟩, _⟩ := hedged
    have hc := isBlank_of_isOperator hoperator
    obtain ⟨op, rfl⟩ := List.head?_eq_some_iff.mp hhead
    have hsome : dropOperator? (bare (c :: op) ++ bare rest) = some (bare rest) := by
      rw [← bare_append, List.cons_append, dropOperator?_bare hc, ← List.cons_append, h]
      rfl
    rw [bare_append, weave_operator_hit (by simp [bare_plain hc]) hsome, ih,
      weave_operator_hit (List.cons_ne_nil c op) h]
    rfl

/-! ## Cuts that are the same without blanks -/

theorem blanks_of_bare {t : Text} (h : bare t = []) : ∀ c ∈ t, isBlank c = true := by
  intro c hc
  simpa using List.filter_eq_nil_iff.mp h c hc

/-- A text is cut at one place only if the second part starts with no blank. -/
theorem append_inj_of_head {a b a' b' : Text} (h : a ++ b = a' ++ b') (hbare : bare a = bare a')
    (hb : ∃ c ∈ b.head?, isBlank c = false) (hb' : ∃ c ∈ b'.head?, isBlank c = false) :
    a = a' ∧ b = b' := by
  -- what one first part has more than the other are blanks at the start of a second part
  have key : ∀ {x u v : Text}, (∃ c ∈ (x ++ v).head?, isBlank c = false) → bare u = bare (u ++ x) →
      x = [] := by
    rintro x u v ⟨c, hc, hplain⟩ hx
    rw [bare_append, List.self_eq_append_right] at hx
    cases x with
    | nil => rfl
    | cons d x =>
      obtain rfl : d = c := by simpa using hc
      have hblank := blanks_of_bare hx d List.mem_cons_self
      rw [hplain] at hblank
      cases hblank
  rcases List.append_eq_append_iff.mp h with ⟨x, rfl, rfl⟩ | ⟨x, rfl, rfl⟩
  · obtain rfl := key hb hbare
    exact ⟨(List.append_nil a).symm, rfl⟩
  · obtain rfl := key hb' hbare.symm
    exact ⟨List.append_nil a', rfl⟩

/-- A text is cut at one place only if the first part ends with no blank. -/
theorem append_inj_of_last {a b a' b' : Text} (h : a ++ b = a' ++ b') (hbare : bare a = bare a')
    (ha : ∃ c ∈ a.getLast?, isBlank c = false) (ha' : ∃ c ∈ a'.getLast?, isBlank c = false) :
    a = a' ∧ b = b' := by
  have hhead : ∀ {t : Text}, (∃ c ∈ t.getLast?, isBlank c = false) →
      ∃ c ∈ t.reverse.head?, isBlank c = false := by
    intro t ht
    rwa [List.head?_reverse]
  have hrest : bare b = bare b' := by
    have hwhole := congrArg bare h
    rw [bare_append, bare_append, hbare] at hwhole
    exact List.append_cancel_left hwhole
  have hreverse := congrArg List.reverse h
  rw [List.reverse_append, List.reverse_append] at hreverse
  obtain ⟨hb, ha⟩ := append_inj_of_head hreverse (by rw [bare_reverse, bare_reverse, hrest])
    (hhead ha) (hhead ha')
  exact ⟨List.reverse_inj.mp ha, List.reverse_inj.mp hb⟩

/-- Two cuts of one text at operators are the same if they are without blanks. -/
theorem Weave.eq_of_bare {w v : Weave} (hsource : w.source = v.source) (hbare : w.bare = v.bare)
    (hw : ∀ p ∈ w.rest, Edged p.1) (hv : ∀ p ∈ v.rest, Edged p.1) : w = v := by
  obtain ⟨head, rest⟩ := w
  obtain ⟨head', rest'⟩ := v
  induction rest generalizing head head' rest' with
  | nil =>
    obtain rfl : rest' = [] := by simpa [Weave.bare] using (congrArg Weave.rest hbare).symm
    rw [source, source, List.flatMap_nil, List.append_nil, List.append_nil] at hsource
    exact congrArg (mk · []) hsource
  | cons p rest ih =>
    obtain ⟨hit, after⟩ := p
    cases rest' with
    | nil => cases congrArg Weave.rest hbare
    | cons q rest' =>
      obtain ⟨hit', after'⟩ := q
      have hedged : Edged hit := hw _ List.mem_cons_self
      have hedged' : Edged hit' := hv _ List.mem_cons_self
      have hheads : VbTidy.bare head = VbTidy.bare head' := congrArg Weave.head hbare
      obtain ⟨hpair, hrests⟩ := List.cons.inj (congrArg Weave.rest hbare)
      obtain ⟨hhits, hafters⟩ := Prod.mk.inj hpair
      have hstart : ∀ {hit : Text} (t : Text), Edged hit →
          ∃ c ∈ (hit ++ t).head?, isBlank c = false := by
        rintro hit t ⟨⟨c, hc, hoperator⟩, _⟩
        exact ⟨c, by rw [List.head?_append, hc]; rfl, isBlank_of_isOperator hoperator⟩
      have hend : ∀ {hit : Text}, Edged hit → ∃ c ∈ hit.getLast?, isBlank c = false := by
        rintro hit ⟨_, c, hc, hoperator⟩
        exact ⟨c, hc, isBlank_of_isOperator hoperator⟩
      have hsplit : ∀ (head hit after : Text) (rest : List (Text × Text)),
          (mk head ((hit, after) :: rest)).source = head ++ (hit ++ (mk after rest).source) := by
        intro head hit after rest
        simp [source]
      -- what stands before an operator ends where the operator starts, and it where its last
      -- character stands
      rw [hsplit, hsplit] at hsource
      obtain ⟨rfl, htail⟩ := append_inj_of_head hsource hheads (hstart _ hedged) (hstart _ hedged')
      obtain ⟨rfl, hmore⟩ := append_inj_of_last htail hhits (hend hedged) (hend hedged')
      have heq := ih after (fun p hp => hw p (List.mem_cons_of_mem _ hp)) after' rest'
        (fun p hp => hv p (List.mem_cons_of_mem _ hp)) hmore (congrArg₂ Weave.mk hafters hrests)
      obtain ⟨rfl, rfl⟩ := Weave.mk.inj heq
      rfl

/-- A cut is the one at the operators of its text if it is without blanks. -/
theorem weave_of_bare {w : Weave} {t : Text} (hbare : bare w.source = bare t)
    (hsame : w.bare = (operatorPattern.weave t).bare) (hw : ∀ p ∈ w.rest, Edged p.1) :
    operatorPattern.weave w.source = w := by
  apply Weave.eq_of_bare _ _ (edged_hits w.source) hw
  · exact Pattern.source_weave operatorPattern w.source
  · rw [hsame, ← weave_bare, ← weave_bare, hbare]

/-! ## Two texts in a row -/

/-- A text whose first character behind blanks comes second in no operator. -/
def Detached (y : Text) : Prop :=
  ∀ c ∈ (y.dropWhile isBlank).head?, c ∉ ['<', '>', '=']

theorem mem_seconds {c d : Char} (h : (seconds c).contains d = true) : d ∈ ['<', '>', '='] := by
  rw [seconds] at h
  grind

theorem dropOperator?_detached {c : Char} {x y : Text} (hy : Detached y) :
    dropOperator? (c :: (x ++ y)) = (dropOperator? (c :: x)).map (· ++ y) := by
  rw [dropOperator?_cons, dropOperator?_cons, List.dropWhile_append]
  cases hx : x.dropWhile isBlank with
  | nil =>
    rw [List.isEmpty_nil, if_pos rfl]
    cases hd : y.dropWhile isBlank with
    | nil => simp only; split <;> rfl
    | cons d rest =>
      have hsecond : (seconds c).contains d = false := by
        cases hs : (seconds c).contains d with
        | false => rfl
        | true => exact absurd (mem_seconds hs) (hy d (by rw [hd]; rfl))
      simp only [hsecond, if_neg Bool.false_ne_true]
      split <;> rfl
  | cons d rest =>
    rw [List.isEmpty_cons, if_neg Bool.false_ne_true, List.cons_append]
    simp only
    split
    · rfl
    · split <;> rfl

/-- No operator reaches into a detached text. -/
theorem weave_detached (x : Text) {y : Text} (hy : Detached y) :
    operatorPattern.weave (x ++ y) =
      (operatorPattern.weave x).append (operatorPattern.weave y) := by
  apply Pattern.weaveFrom_append (Nat.zero_le _)
  · exact fun _ => rfl
  · intro b s n _ hn
    obtain ⟨rest, _, rfl⟩ := Option.map_eq_some_iff.mp hn
    exact Nat.sub_le _ _
  · intro b s _ hs
    obtain ⟨c, s, rfl⟩ := List.exists_cons_of_ne_nil hs
    rw [operatorPattern, Pattern.ofRest, Pattern.ofRest, List.cons_append,
      dropOperator?_detached hy, Option.map_map]
    congr 1
    funext rest
    simp only [Function.comp_apply, List.length_cons, List.length_append]
    omega
  · exact fun _ _ => rfl

/-- Characters that are in no operator belong to the gap before the next. -/
theorem weave_plain_append {x : Text} (h : ∀ c ∈ x, isOperator c = false) (y : Text) :
    operatorPattern.weave (x ++ y) = (operatorPattern.weave y).prepend x := by
  induction x with
  | nil => rfl
  | cons c x ih =>
    have hnone : dropOperator? (c :: (x ++ y)) = none := by
      cases hop : dropOperator? (c :: (x ++ y)) with
      | none => rfl
      | some rest =>
        have hc := (dropOperator?_cases hop).1
        rw [h c List.mem_cons_self] at hc
        cases hc
    rw [List.cons_append, weave_operator_miss hnone, ih fun d hd => h d (List.mem_cons_of_mem _ hd)]
    rfl

/-- A text without the characters of operators has no operators. -/
theorem weave_plain {t : Text} (h : ∀ c ∈ t, isOperator c = false) :
    operatorPattern.weave t = ⟨t, []⟩ := by
  have hwhole := weave_plain_append h []
  rw [List.append_nil] at hwhole
  rw [hwhole, weave_operator_nil, Weave.prepend, List.append_nil]

end VbTidy
