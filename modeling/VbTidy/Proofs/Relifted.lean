import VbTidy.Proofs.LineWords
import VbTidy.Proofs.Remarked

/-
Putting aside again what was put back. A line whose tokens are filled with their literals is cut into
the same texts between them: at strings (`stringsFrom_fill`), at the comment and at error phrases.
-/
namespace VbTidy

/-! ## Strings -/

/-- A line behind `before` cut at the strings of its code. -/
def stringsFrom (before line : Text) : Weave :=
  ((Pattern.ofRest dropString?).weave (splitFrom before line).1).append
    ⟨(splitFrom before line).2, []⟩

theorem cutStrings_from (line : Text) : cutStrings line = stringsFrom [] line := by
  rw [cutStrings_eq, splitRemark_eq, stringsFrom]

theorem stringsFrom_here {before : Text} {c : Char} {t : Text} (hc : c ≠ '"')
    (h : remarkHere before (c :: t) = true) : stringsFrom before (c :: t) = ⟨c :: t, []⟩ := by
  rw [stringsFrom, splitFrom_here hc h]
  rfl

theorem stringsFrom_char {before : Text} {c : Char} {t : Text} (hc : c ≠ '"')
    (h : remarkHere before (c :: t) = false) :
    stringsFrom before (c :: t) = (stringsFrom (c :: before) t).push c := by
  rw [stringsFrom, splitFrom_char hc h, Pattern.weave_ofRest_miss (dropString?_char hc _),
    Weave.append_push]
  rfl

/-- A string in double quotes on one line. -/
def QuotedString (s : Text) : Prop :=
  ∃ b, Quotable b ∧ s = '"' :: (b ++ ['"'])

theorem stringsFrom_string {b : Text} (hb : Quotable b) (before t : Text) :
    stringsFrom before ('"' :: (b ++ '"' :: t)) =
      (stringsFrom (('"' :: b.reverse) ++ '"' :: before) t).pushHit ('"' :: (b ++ ['"'])) := by
  have hquote : '"' ∉ b := fun h => (hb _ h).1 rfl
  have hsource : ∀ u : Text, '"' :: (b ++ '"' :: u) = ('"' :: (b ++ ['"'])) ++ u := by simp
  have hdrop : ∀ u : Text, dropString? (('"' :: (b ++ ['"'])) ++ u) = some u := by
    intro u
    rw [← hsource]
    exact dropString?_string hquote hb.oneLine u
  rw [stringsFrom, splitFrom_string hquote, hsource,
    Pattern.weave_ofRest_hit (List.cons_ne_nil _ _) (hdrop _), Weave.append_pushHit]
  rfl

/-- Up to its first string a line is the same with the strings masked. -/
theorem near_strings {g : Text} {rest : List (Text × Text)} {ls : List Text}
    (hlen : ls.length = rest.length) (hls : ∀ s ∈ ls, QuotedString s) :
    Near (Weave.fillWith ls ⟨g, rest⟩) (Lifting.mask .string ⟨g, rest⟩) := by
  cases rest with
  | nil =>
    rw [fillWith_stop _ _ _ (.inr rfl)]
    simpa [Lifting.mask, Weave.replace] using Near.same g
  | cons p rest =>
    cases ls with
    | nil => cases hlen
    | cons s ls =>
      obtain ⟨b, _, rfl⟩ := hls s List.mem_cons_self
      rw [fillWith_cons, mask_cons]
      exact (Near.stop (by decide) (by decide) _ _).prepend g

/-- Code without quotes does not start with one. -/
theorem head_ne_quote {before line : Text} (h : '"' ∉ (splitFrom before line).1) :
    line.head? ≠ some '"' := by
  induction line using line_induction with
  | nil => simp
  | char c t hc _ => simpa using hc
  | string b t hb _ =>
    rw [splitFrom_string hb] at h
    exact absurd List.mem_cons_self h
  | unclosed b hb =>
    rw [splitFrom_unclosed hb] at h
    exact absurd List.mem_cons_self h

section
variable {rest : List (Text × Text)} {ls : List Text} (hlen : ls.length = rest.length)
  (hls : ∀ s ∈ ls, QuotedString s)
include hlen hls

/-- One character in front of a line that is cut at its strings. -/
theorem stringsFrom_fill_char {d : Char} {g before before' : Text}
    (hstart : startsStatement before = startsStatement before')
    (hquote : '"' ∉ (splitFrom before' (Lifting.mask .string ⟨d :: g, rest⟩)).1)
    (hremark : '\x00' ∉ (splitFrom before' (Lifting.mask .string ⟨d :: g, rest⟩)).2)
    (ih : '"' ∉ (splitFrom (d :: before') (Lifting.mask .string ⟨g, rest⟩)).1 →
      '\x00' ∉ (splitFrom (d :: before') (Lifting.mask .string ⟨g, rest⟩)).2 →
      stringsFrom (d :: before) (Weave.fillWith ls ⟨g, rest⟩) =
        ⟨g, ls.zip (rest.map Prod.snd)⟩) :
    stringsFrom before (Weave.fillWith ls ⟨d :: g, rest⟩) =
      ⟨d :: g, ls.zip (rest.map Prod.snd)⟩ := by
  have hcons : Lifting.mask .string ⟨d :: g, rest⟩ = d :: Lifting.mask .string ⟨g, rest⟩ := rfl
  have hfill : Weave.fillWith ls ⟨d :: g, rest⟩ = d :: Weave.fillWith ls ⟨g, rest⟩ := rfl
  have hdq : d ≠ '"' := by
    have := head_ne_quote hquote
    simpa [hcons] using this
  have hhere := remarkHere_congr (c := d) hstart (near_strings (g := g) hlen hls)
  rw [hcons] at hquote hremark
  rw [hfill]
  cases h : remarkHere before' (d :: Lifting.mask .string ⟨g, rest⟩) with
  | true =>
    -- the comment takes the rest of the line, in which no token is left
    rw [splitFrom_here hdq h] at hremark
    obtain rfl : rest = [] := by
      cases rest with
      | nil => rfl
      | cons p rest =>
        refine absurd (List.mem_cons_of_mem d ?_) hremark
        simp [Lifting.mask, Weave.replace, Kind.token, tokenOf]
    rw [stringsFrom_here hdq (hhere.trans h), fillWith_stop _ _ _ (.inr rfl)]
    simp
  | false =>
    rw [splitFrom_char hdq h] at hquote hremark
    rw [stringsFrom_char hdq (hhere.trans h),
      ih (fun hmem => hquote (List.mem_cons_of_mem d hmem)) hremark]
    rfl

end

/-- A line with its strings in place is cut at them. -/
theorem stringsFrom_fill {rest : List (Text × Text)} {g : Text} {ls : List Text}
    {before before' : Text} (hstart : startsStatement before = startsStatement before')
    (hlen : ls.length = rest.length) (hls : ∀ s ∈ ls, QuotedString s)
    (hnul : ∀ x ∈ (Weave.mk g rest).gaps, '\x00' ∉ x)
    (hquote : '"' ∉ (splitFrom before' (Lifting.mask .string ⟨g, rest⟩)).1)
    (hremark : '\x00' ∉ (splitFrom before' (Lifting.mask .string ⟨g, rest⟩)).2) :
    stringsFrom before (Weave.fillWith ls ⟨g, rest⟩) = ⟨g, ls.zip (rest.map Prod.snd)⟩ := by
  induction rest generalizing g ls before before' with
  | nil =>
    induction g generalizing before before' with
    | nil =>
      rw [fillWith_stop _ _ _ (.inr rfl), List.map_nil, List.zip_nil_right]
      rfl
    | cons d g ih =>
      have hd : d ≠ '\x00' := fun h => hnul _ List.mem_cons_self (h ▸ List.mem_cons_self)
      refine stringsFrom_fill_char hlen hls hstart hquote hremark ?_
      refine ih (startsStatement_congr hd hstart) fun x hx hmem => ?_
      rcases List.mem_cons.mp hx with rfl | hx
      · exact hnul _ List.mem_cons_self (List.mem_cons_of_mem d hmem)
      · cases hx
  | cons p rest ih =>
    obtain ⟨s, ls, rfl⟩ := List.exists_cons_of_length_eq_add_one hlen
    induction g generalizing before before' with
    | nil =>
      obtain ⟨b, hb, rfl⟩ := hls s List.mem_cons_self
      have htoken : Lifting.mask .string ⟨[], p :: rest⟩ =
          (Mark.kind .string).token ++ Lifting.mask .string ⟨p.2, rest⟩ := mask_cons .string [] p rest
      have hfill : Weave.fillWith (('"' :: (b ++ ['"'])) :: ls) ⟨[], p :: rest⟩ =
          '"' :: (b ++ '"' :: Weave.fillWith ls ⟨p.2, rest⟩) := by
        rw [fillWith_cons]
        simp
      have hstart' : startsStatement (('"' :: b.reverse) ++ '"' :: before) =
          startsStatement ((Mark.kind .string).token.reverse ++ before') :=
        (startsStatement_quote _).trans (startsStatement_string before').symm
      rw [htoken, splitFrom_token (by decide)] at hquote hremark
      rw [hfill, stringsFrom_string hb, ih hstart' (Nat.succ.inj hlen)
        (fun s hs => hls s (List.mem_cons_of_mem _ hs))
        (fun x hx => hnul x (List.mem_cons_of_mem _ hx))
        (fun hmem => hquote (List.mem_append_right _ hmem)) hremark]
      rfl
    | cons d g ihg =>
      have hd : d ≠ '\x00' := fun h => hnul _ List.mem_cons_self (h ▸ List.mem_cons_self)
      refine stringsFrom_fill_char hlen hls hstart hquote hremark ?_
      refine ihg (startsStatement_congr hd hstart) fun x hx hmem => ?_
      rcases List.mem_cons.mp hx with rfl | hx
      · exact hnul _ List.mem_cons_self (List.mem_cons_of_mem d hmem)
      · exact hnul x (List.mem_cons_of_mem _ hx) hmem

/-! ## Comments -/

/-- No word stands at the end of a text behind which a statement starts. -/
theorem wordAt_of_startsStatement {u : Text} (h : startsStatement u.reverse = true) :
    wordAt u.getLast? = false := by
  rcases List.eq_nil_or_concat u with rfl | ⟨u, c, rfl⟩
  · rfl
  · rw [List.concat_eq_append] at h ⊢
    rw [List.getLast?_concat]
    by_cases hnul : c = '\x00'
    · rw [hnul]
      decide
    · rw [List.reverse_append, List.reverse_singleton, List.singleton_append,
        startsStatement_char hnul] at h
      cases hspace : isSpace c with
      | true => exact isWord_of_isBreak (isBreak_of_isSpace hspace)
      | false =>
        rw [hspace, if_neg (by decide), beq_iff_eq] at h
        rw [h]
        decide

/-- The word Rem between two texts that no word joins to it is one of the words. -/
theorem rem_mem_lineWords {u v : Text} {r e m : Char} (hr : r ∈ ['r', 'R']) (he : e ∈ ['e', 'E'])
    (hm : m ∈ ['m', 'M']) (hu : wordAt u.getLast? = false) (hv : wordAt v.head? = false) :
    "rem".toList ∈ lineWords (u ++ ([r, e, m] ++ v)) := by
  have key : ∀ r ∈ ['r', 'R'], ∀ e ∈ ['e', 'E'], ∀ m ∈ ['m', 'M'],
      ([r, e, m].all isWord && squeezed [r, e, m] == "rem".toList) = true := by decide
  have hword := key r hr e he m hm
  rw [Bool.and_eq_true, List.all_eq_true, beq_iff_eq] at hword
  rw [lineWords_append (.inl hu), lineWords_append (.inr hv),
    lineWords_word (List.cons_ne_nil r _) hword.1, hword.2]
  simp

/-- What a comment starts with. -/
theorem remarkHere_head {before c : Text} (h : remarkHere before c = true) :
    ∃ d ∈ c.head?, d ∈ ['\'', 'r', 'R'] := by
  rw [remarkHere, Bool.or_eq_true, beq_iff_eq, Bool.and_eq_true, isRem_iff] at h
  rcases h with h | ⟨⟨r, e, m, after, rfl, hr, _⟩, _⟩
  · exact ⟨_, h, by decide⟩
  · exact ⟨r, rfl, List.mem_cons_of_mem _ hr⟩

/-- Where no word Rem stands in the code no comment starts in it, whatever comes behind. -/
theorem not_remarkHere {u v c : Text} {d : Char} (hd : d ≠ '\'')
    (hrem : "rem".toList ∉ lineWords (u ++ d :: v))
    (hc : c = [] ∨ remarkHere (u ++ d :: v).reverse c = true) :
    remarkHere u.reverse (d :: (v ++ c)) = false := by
  have hhead : ∀ x ∈ c.head?, x ∈ ['\'', 'r', 'R'] := by
    rcases hc with rfl | hc
    · simp
    · obtain ⟨x, hx, hmem⟩ := remarkHere_head hc
      intro y hy
      rwa [Option.some.inj (Option.mem_def.mp hy ▸ Option.mem_def.mp hx : some y = some x)]
  have hapart : ∀ x ∈ ['\'', 'r', 'R'],
      x ∉ ['e', 'E'] ∧ x ∉ ['m', 'M'] ∧ isSpace x = false := by decide
  rw [← Bool.not_eq_true]
  intro hhere
  rw [remarkHere, Bool.or_eq_true, beq_iff_eq, Bool.and_eq_true, isRem_iff] at hhere
  rcases hhere with h | ⟨⟨r, e, m, after, heq, hr, he, hm, hafter⟩, hstart⟩
  · exact hd (Option.some.inj h)
  · obtain ⟨rfl, h₁⟩ := List.cons.inj heq
    cases v with
    | nil =>
      -- the second letter would be the first character of the comment
      replace h₁ : c = e :: m :: after := h₁
      exact (hapart e (hhead e (by rw [h₁]; rfl))).1 he
    | cons e' v =>
      obtain ⟨rfl, h₂⟩ := List.cons.inj h₁
      cases v with
      | nil =>
        replace h₂ : c = m :: after := h₂
        exact (hapart m (hhead m (by rw [h₂]; rfl))).2.1 hm
      | cons m' v =>
        obtain ⟨rfl, h₃⟩ := List.cons.inj h₂
        refine hrem (rem_mem_lineWords hr he hm (wordAt_of_startsStatement hstart) ?_)
        cases v with
        | nil => rfl
        | cons x v =>
          refine isWord_of_isBreak (isBreak_of_isSpace (hafter x ?_))
          rw [← h₃]
          rfl

/-- A comment starts where the code of a line ends. -/
theorem remarkHere_splitFrom {before line : Text} (h : (splitFrom before line).2 ≠ []) :
    remarkHere ((splitFrom before line).1.reverse ++ before) (splitFrom before line).2 = true := by
  induction line using line_induction generalizing before with
  | nil => exact absurd rfl h
  | char c t hc ih =>
    cases hhere : remarkHere before (c :: t) with
    | true =>
      rw [splitFrom_here hc hhere]
      exact hhere
    | false =>
      rw [splitFrom_char hc hhere] at h ⊢
      simpa using ih h
  | string b t hb ih =>
    rw [splitFrom_string hb] at h ⊢
    simpa using ih h
  | unclosed b hb =>
    rw [splitFrom_unclosed hb] at h
    exact absurd rfl h

/-- Code without quotes has no apostrophe either. -/
theorem sign_not_mem_code {before line : Text} (h : '"' ∉ (splitFrom before line).1) :
    '\'' ∉ (splitFrom before line).1 := by
  induction line using line_induction generalizing before with
  | nil => exact List.not_mem_nil
  | char c t hc ih =>
    cases hhere : remarkHere before (c :: t) with
    | true =>
      rw [splitFrom_here hc hhere]
      exact List.not_mem_nil
    | false =>
      rw [splitFrom_char hc hhere] at h ⊢
      rw [List.mem_cons, not_or] at h ⊢
      refine ⟨?_, ih h.2⟩
      rintro rfl
      cases hhere
  | string b t hb _ =>
    rw [splitFrom_string hb] at h
    exact absurd List.mem_cons_self h
  | unclosed b hb =>
    rw [splitFrom_unclosed hb] at h
    exact absurd List.mem_cons_self h

/-- A line that is put together from its code and its comment is split there. -/
theorem splitFrom_comment {u v c : Text} (hquote : '"' ∉ v) (hsign : '\'' ∉ v)
    (hrem : "rem".toList ∉ lineWords (u ++ v))
    (hc : c = [] ∨ remarkHere (u ++ v).reverse c = true) :
    splitFrom u.reverse (v ++ c) = (v, c) := by
  induction v generalizing u with
  | nil =>
    rcases hc with rfl | hc
    · rfl
    · obtain ⟨d, hd, hmem⟩ := remarkHere_head hc
      obtain ⟨c, rfl⟩ := List.head?_eq_some_iff.mp hd
      rw [List.append_nil] at hc
      refine splitFrom_here ?_ hc
      rintro rfl
      exact absurd hmem (by decide)
  | cons d v ih =>
    rw [List.mem_cons, not_or] at hquote hsign
    have hline : u ++ d :: v = (u ++ [d]) ++ v := by simp
    have hrest := @ih (u ++ [d]) hquote.2 hsign.2 (hline ▸ hrem) (hline ▸ hc)
    rw [List.reverse_append, List.reverse_singleton, List.singleton_append] at hrest
    rw [List.cons_append, splitFrom_char (Ne.symm hquote.1)
      (not_remarkHere (Ne.symm hsign.1) hrem hc), hrest]

end VbTidy
