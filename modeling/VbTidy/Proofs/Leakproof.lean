import VbTidy.Proofs.Posts

/-
No boundary token comes out of a document that has its script tags in host markup, in strings and in
comments. What is proved:

1. a boundary token in a string or in a comment stands right behind the end of a tag, whatever was
   put aside around it (`led_shelves`), so each of them is a post if its fence is whole
   (`posts_shelves`);
2. the boundary tokens of a document are those of its lines and those of its literals
   (`fences_takenFrom`, `fences_lines`);
3. if none is left in the lines, then the posts that the literals bring back are as many as there
   are boundary tokens between the runs of markup, so there is no NUL but theirs
   (`opened_backCut`), all fences are whole, and all are taken away (`format_nul_free`).

In live code the bracket behind a boundary token is an operator. It gets its space, the fence is none
any more, and the token comes out (`format_taggedCode`).
-/
namespace VbTidy

/-! ## What stands before a boundary token -/

/-- A character right before a boundary token is the end of a tag. -/
def Led (t : Text) : Prop :=
  ∀ x c y, c ≠ '\x00' → Occurs .fence (x ++ [c]) y t → c = '>'

namespace Led
variable {a b t : Text}

theorem nil : Led [] := by
  intro x c y _ h
  exact absurd h.mem_marks (by simp)

theorem left (h : Led (a ++ b)) : Led a :=
  fun x c _ hc hocc => h x c _ hc (hocc.append_right b)

theorem right (ha : Sound 0 a) (h : Led (a ++ b)) : Led b := by
  intro x c y hc hocc
  refine h (a ++ x) c y hc ?_
  rw [List.append_assoc]
  exact hocc.append_left ha

/-- The pieces of a text and what is taken out of it. -/
theorem cut {n : Nat} {w : Weave} (hw : SoundCut n w) (h : Led w.source) :
    (∀ g ∈ w.gaps, Led g) ∧ ∀ l ∈ w.hits, Led l := by
  obtain ⟨head, rest⟩ := w
  induction rest generalizing head with
  | nil =>
    have hhead : Led head := by simpa [Weave.source] using h
    exact ⟨by simpa [Weave.gaps] using hhead, by simp [Weave.hits]⟩
  | cons p rest ih =>
    have hsource : (Weave.mk head (p :: rest)).source =
        head ++ (p.1 ++ (Weave.mk p.2 rest).source) := by
      simp [Weave.source]
    rw [hsource] at h
    have hrest := h.right (hw.head.mono (Nat.zero_le _))
    obtain ⟨hgaps, hhits⟩ := ih p.2 hw.tail.2 (hrest.right (hw.tail.1.mono (Nat.zero_le _)))
    refine ⟨fun g hg => ?_, fun l hl => ?_⟩
    · rcases List.mem_cons.mp hg with rfl | hg
      · exact h.left
      · exact hgaps g hg
    · rcases List.mem_cons.mp hl with rfl | hl
      · exact hrest.left
      · exact hhits l hl

/-- Tokens between the pieces. -/
theorem mask {k : Kind} {w : Weave} (hw : ∀ g ∈ w.gaps, Sound (k.turn + 1) g)
    (h : ∀ g ∈ w.gaps, Led g) : Led (Lifting.mask k w) := by
  obtain ⟨head, rest⟩ := w
  have hhead := h head List.mem_cons_self
  induction rest generalizing head with
  | nil => simpa [Lifting.mask, Weave.replace] using hhead
  | cons p rest ih =>
    have hmore : Led (Lifting.mask k ⟨p.2, rest⟩) :=
      ih p.2 (fun g hg => hw g (List.mem_cons_of_mem _ hg))
        (fun g hg => h g (List.mem_cons_of_mem _ hg)) (h p.2 (by simp [Weave.gaps]))
    rw [mask_cons]
    intro x c y hc hocc
    rcases hocc.of_append ((hw head List.mem_cons_self).mono (Nat.zero_le _)) with
      ⟨y', hin, _⟩ | ⟨x', hin, hx⟩
    · exact hhead x c y' hc hin
    · rcases hin.of_token with ⟨hmark, _⟩ | ⟨z, hlater, rfl⟩
      · cases hmark
      · rcases List.eq_nil_or_concat' z with rfl | ⟨z, d, rfl⟩
        · -- a token ends with a NUL
          have htoken : x ++ [c] = (head ++ '\x00' :: k.name) ++ ['\x00'] := by
            rw [hx, List.append_nil, List.append_assoc]
            rfl
          exact absurd (List.append_singleton_inj.mp htoken).2 hc
        · rw [← List.append_assoc, ← List.append_assoc] at hx
          obtain ⟨_, rfl⟩ := List.append_singleton_inj.mp hx
          exact hmore z c y hc hlater

end Led

/-- The first line is the start of the text. -/
theorem prefix_splitLines {t first : Text} {rest : List Text} (h : splitLines t = first :: rest) :
    first <+: t := by
  induction t using splitLines.induct generalizing first rest with
  | case1 => cases h
  | case2 t _ =>
    rw [splitLines] at h
    obtain ⟨rfl, _⟩ := List.cons.inj h
    exact List.nil_prefix
  | case3 c t hcr hc _ =>
    rw [splitLines, if_pos hc] at h
    · obtain ⟨rfl, _⟩ := List.cons.inj h
      exact List.nil_prefix
    · exact hcr
  | case4 c t hcr hc ht _ =>
    rw [splitLines_char (by simpa using hc), ht] at h
    obtain ⟨rfl, _⟩ := List.cons.inj h
    exact ⟨t, rfl⟩
  | case5 c t hcr hc line lines ht ih =>
    rw [splitLines_char (by simpa using hc), ht] at h
    obtain ⟨rfl, _⟩ := List.cons.inj h
    exact (List.prefix_cons_inj c).mpr (ih ht)

theorem led_splitLines {n : Nat} {t : Text} (ht : Sound n t) (h : Led t) :
    ∀ line ∈ splitLines t, Led line := by
  -- the first line is a start of the text, and the others are lines of what is left of it
  have first : ∀ {s t : Text}, Led (s ++ t) → (∀ line ∈ splitLines t, Led line) →
      ∀ line ∈ (s ++ (splitLines t).headD []) :: (splitLines t).tail, Led line := by
    intro s t h ih line hl
    rcases List.mem_cons.mp hl with rfl | hl
    · cases hlines : splitLines t with
      | nil =>
        rw [List.headD_nil, List.append_nil]
        exact h.left
      | cons line lines =>
        obtain ⟨u, rfl⟩ := prefix_splitLines hlines
        rw [← List.append_assoc] at h
        exact h.left
    · exact ih line (List.mem_of_mem_tail hl)
  induction ht with
  | nil => simp [splitLines]
  | @char c t hc ht ih =>
    have hfree : Sound 0 [c] := .char hc .nil
    have hmore := ih (h.right (a := [c]) hfree)
    cases he : isLineEnd c with
    | true =>
      intro line hl
      rcases splitLines_lineEnd he t with hsplit | ⟨u, rfl, hsplit⟩
      · rw [hsplit] at hl
        rcases List.mem_cons.mp hl with rfl | hl
        · exact .nil
        · exact hmore line hl
      · rw [hsplit] at hl
        have hu : splitLines ('\n' :: u) = [] :: splitLines u := by
          rw [splitLines]
          · rfl
          · rintro _ hfeed
            cases hfeed
        exact hmore line (hu ▸ hl)
    | false =>
      rw [splitLines_char he]
      exact first (s := [c]) h hmore
  | @token m t hm ht ih =>
    rw [splitLines_append (fun c hc => isLineEnd_token hc) (by simp [Mark.token, tokenOf])]
    exact first h (ih (h.right (.mark (Nat.zero_le _))))

theorem led_fenceScripts {raw : Text} (hnul : '\x00' ∉ raw) : Led (fenceScripts raw) := by
  intro x c y _ hocc
  have hlast := (bordered_fenceScripts hnul _ _ hocc).1
  simpa using hlast

section
variable {raw : Text} (hnul : '\x00' ∉ raw)
include hnul

theorem led_strings : ∀ w ∈ Lifting.strings raw,
    (∀ g ∈ w.gaps, Led g) ∧ ∀ l ∈ w.hits, Led l := by
  have hmarkup : SoundCut 5 (Lifting.markup raw) := soundCut_markup (sound_fenceScripts hnul)
  have hdelimiter : SoundCut 4 (Lifting.delimiter raw) :=
    soundCut_delimiter (hmarkup.mask (k := .markup))
  have hcode : Led (Lifting.mask .markup (Lifting.markup raw)) := by
    refine Led.mask hmarkup.gaps (Led.cut hmarkup ?_).1
    rw [Lifting.markup, source_cutMarkup]
    exact led_fenceScripts hnul
  have hlines : Led (Lifting.mask .delimiter (Lifting.delimiter raw)) := by
    refine Led.mask hdelimiter.gaps (Led.cut hdelimiter ?_).1
    rwa [Lifting.delimiter, Pattern.source_weave]
  intro w hw
  obtain ⟨line, hline, rfl⟩ := List.mem_map.mp hw
  have hsound := hdelimiter.mask (k := .delimiter)
  refine Led.cut (soundCut_string (n := 3) (by omega) (sound_splitLines hsound line hline)) ?_
  rw [source_cutStrings]
  exact led_splitLines hsound hlines line hline

theorem led_remarks : ∀ w ∈ Lifting.remarks raw, ∀ l ∈ w.hits, Led l := by
  intro w hw
  obtain ⟨line, hline, rfl⟩ := List.mem_map.mp hw
  obtain ⟨v, hv, rfl⟩ := List.mem_map.mp hline
  have hsound := soundCut_strings hnul v hv
  have hmask : Sound 2 (Lifting.mask .string v) := hsound.mask (k := .string)
  refine (Led.cut (soundCut_remark (n := 2) (by omega) hmask) ?_).2
  rw [source_cutRemark]
  exact Led.mask hsound.gaps (led_strings hnul v hv).1

/-- A tag ends right before each boundary token in a string or a comment. -/
theorem led_shelves {k : Kind} (hk : k = .string ∨ k = .remark) :
    ∀ l ∈ (Lifting.result raw).shelves.get k, Led l := by
  intro l hl
  rcases hk with rfl | rfl
  · rw [shelves_eq, if_neg (by decide), liftCut_string, Weave.hits_unlines] at hl
    obtain ⟨w, hw, hl⟩ := List.mem_flatMap.mp hl
    exact (led_strings hnul w hw).2 l hl
  · rw [shelves_eq, if_neg (by decide), liftCut_remark, Weave.hits_unlines] at hl
    obtain ⟨w, hw, hl⟩ := List.mem_flatMap.mp hl
    exact led_remarks hnul w hw l hl

end

/-! ## Posts of literals -/

/-- The number of boundary tokens in a text. -/
def fences (t : Text) : Nat :=
  (marks t).count .fence

/-- Behind each boundary token stands the delimiter of an opening fence. -/
def Backed (t : Text) : Prop :=
  ∀ x y, Occurs .fence x y t → ['<', '%'] <+: y

/-- What a text of whole tokens ends with. -/
theorem Sound.last {n : Nat} {t : Text} (h : Sound n t) :
    t = [] ∨ (∃ u c, t = u ++ [c] ∧ c ≠ '\x00') ∨
      ∃ (u : Text) (m : Mark), t = u ++ m.token ∧ Sound n u := by
  induction h with
  | nil => exact .inl rfl
  | @char c t hc _ ih =>
    refine .inr ?_
    rcases ih with rfl | ⟨u, d, rfl, hd⟩ | ⟨u, m, rfl, hu⟩
    · exact .inl ⟨[], c, rfl, hc⟩
    · exact .inl ⟨c :: u, d, rfl, hd⟩
    · exact .inr ⟨c :: u, m, rfl, .char hc hu⟩
  | @token m t hm _ ih =>
    refine .inr ?_
    rcases ih with rfl | ⟨u, d, rfl, hd⟩ | ⟨u, m', rfl, hu⟩
    · exact .inr ⟨[], m, by simp, .nil⟩
    · exact .inl ⟨m.token ++ u, d, by simp, hd⟩
    · exact .inr ⟨m.token ++ u, m', by simp, .token hm hu⟩

/-- In a literal each boundary token stands behind an end. -/
theorem Led.ends {l : Text} (h : Led l) (hsound : Sound 2 l) (hbacked : Backed l)
    (hstart : l.head? ≠ some '\x00') {x y : Text} (hocc : Occurs .fence x y l) : Ends x := by
  rcases hocc.sound.last with rfl | ⟨u, c, rfl, hc⟩ | ⟨u, m, rfl, hu⟩
  · rw [hocc.eq, List.nil_append, Mark.token_append] at hstart
    exact absurd rfl hstart
  · obtain rfl := h u c y hc hocc
    exact .inl ⟨u, '>', rfl, by decide, by decide⟩
  · have hbefore : Occurs m u (Mark.fence.token ++ y) l := ⟨by rw [hocc.eq, List.append_assoc], hu⟩
    cases m with
    | fence =>
      obtain ⟨v, hv⟩ := hbacked u _ hbefore
      rw [Mark.token_append] at hv
      exact absurd (List.cons.inj hv).1 (by decide)
    | kind j =>
      refine .inr ⟨j, turn_of_mem_marks hsound _ hbefore.mem_marks, ?_⟩
      exact ⟨u ++ ['\x00'], List.append_assoc u ['\x00'] _⟩

theorem fences_char {c : Char} (hc : c ≠ '\x00') (t : Text) : fences (c :: t) = fences t := by
  rw [fences, marks_char hc, fences]

theorem fences_token (m : Mark) (t : Text) :
    fences (m.token ++ t) = fences t + if m = .fence then 1 else 0 := by
  rw [fences, marks_token, List.count_cons, fences]
  simp

theorem opening_before_token {m : Mark} {x y : Text} (h : ['<', '%'] <+: x ++ (m.token ++ y)) :
    ['<', '%'] <+: x := by
  obtain ⟨v, hv⟩ := h
  rw [Mark.token_append] at hv
  match x with
  | [] => exact absurd (List.cons.inj hv).1 (by decide)
  | [c] => exact absurd (List.cons.inj (List.cons.inj hv).2).1 (by decide)
  | c :: d :: x =>
    obtain ⟨rfl, rfl, _⟩ : '<' = c ∧ '%' = d ∧ _ := by simpa using hv
    exact List.prefix_append _ _

/-- A text of whole tokens with a post for each boundary token. -/
theorem Sound.posts {n : Nat} {t : Text} (h : Sound n t)
    (hposts : ∀ x y, Occurs .fence x y t → Ends x ∧ ['<', '%'] <+: y) : Posts (fences t) t := by
  suffices hall : ∀ s, (∀ x y, Occurs .fence x y t → Ends (s ++ x) ∧ ['<', '%'] <+: y) →
      Posts (fences t) (s ++ t) from hall [] hposts
  clear hposts
  induction h with
  | nil => exact fun s _ => .plain _
  | @char c t hc _ ih =>
    intro s hposts
    have hassoc : s ++ c :: t = (s ++ [c]) ++ t := by simp
    rw [hassoc, fences_char hc]
    refine ih _ fun x y hocc => ?_
    rw [List.append_assoc]
    exact hposts _ y (hocc.append_left (a := [c]) (.char hc .nil))
  | @token m t _ ht ih =>
    intro s hposts
    have hlater : ∀ x y, Occurs .fence x y t →
        Ends ((s ++ m.token) ++ x) ∧ ['<', '%'] <+: y := by
      intro x y hocc
      rw [List.append_assoc]
      exact hposts _ y (hocc.append_left (.mark (Nat.zero_le _)))
    by_cases hm : m = .fence
    · subst hm
      obtain ⟨hs, ht'⟩ := hposts [] t ⟨rfl, .nil⟩
      rw [List.append_nil] at hs
      rw [fences_token, if_pos rfl]
      refine .post hs ht' (ih [] fun x y hocc => ?_)
      obtain ⟨hends, hy⟩ := hlater x y hocc
      refine ⟨hends.of_opening ?_, hy⟩
      rw [hocc.eq] at ht'
      exact opening_before_token ht'
    · rw [fences_token, if_neg hm, Nat.add_zero, ← List.append_assoc]
      exact ih _ hlater

theorem ends_shelves {raw : Text} {k : Kind} (hk : k ≠ .markup) (hturn : 2 ≤ k.turn) :
    ∀ l ∈ (Lifting.result raw).shelves.get k, Ends l := by
  intro l hl
  rw [shelves_eq] at hl
  cases k with
  | resume => exact absurd hturn (by decide)
  | remark => exact absurd hturn (by decide)
  | string =>
    rw [if_neg (by decide)] at hl
    obtain ⟨body, rfl⟩ := string_of_hit hl
    exact .inl ⟨'"' :: body, '"', rfl, by decide, by decide⟩
  | delimiter =>
    rw [if_neg (by decide)] at hl
    rcases hit_delimiter hl with rfl | rfl
    · exact .inl ⟨"<!-".toList, '-', by decide, by decide, by decide⟩
    · exact .inl ⟨"--".toList, '>', by decide, by decide, by decide⟩
  | markup => exact absurd rfl hk

section
variable {raw : Text} (hnul : '\x00' ∉ raw)
include hnul

theorem posts_shelves {k : Kind} (hk : k ≠ .markup)
    (hbacked : k = .string ∨ k = .remark → ∀ l ∈ (Lifting.result raw).shelves.get k, Backed l) :
    ∀ l ∈ (Lifting.result raw).shelves.get k, Posts (fences l) l := by
  intro l hl
  have hsound := sound_shelves hnul k l hl
  by_cases hkind : k = .string ∨ k = .remark
  · have hturn : 2 ≤ k.turn + 1 := by rcases hkind with rfl | rfl <;> decide
    have hdel := hbacked hkind l hl
    have hbefore : k.turn < Kind.markup.turn := by rcases hkind with rfl | rfl <;> decide
    have hstart : l.head? ≠ some '\x00' :=
      fun h => ((shuts_shelves hnul hbefore hl).opens _ h).1 rfl
    exact hsound.posts fun x y hocc =>
      ⟨(led_shelves hnul hkind l hl).ends (hsound.mono hturn) hdel hstart hocc, hdel x y hocc⟩
  · have hfree : '\x00' ∉ l := by
      rw [shelves_eq] at hl
      cases k with
      | resume =>
        rw [if_pos rfl] at hl
        obtain ⟨_, _, rfl⟩ := List.mem_map.mp hl
        decide
      | delimiter =>
        rw [if_neg (by decide)] at hl
        rcases hit_delimiter hl with rfl | rfl <;> decide
      | string => exact absurd (.inl rfl) hkind
      | remark => exact absurd (.inr rfl) hkind
      | markup => exact absurd rfl hk
    rw [fences, marks_nul_free hfree]
    exact .plain l

end

/-! ## Counting -/

theorem sum_fences_eq_zero {ls : List Text} :
    (ls.map fences).sum = 0 ↔ ∀ l ∈ ls, Mark.fence ∉ marks l := by
  have hcount : (ls.flatMap marks).count .fence = (ls.map fences).sum := List.count_flatMap
  rw [← hcount, List.count_eq_zero, List.mem_flatMap]
  simp

theorem count_restock {k : Kind} {m : Mark} (hm : m ≠ .kind k) {ls : List (List Mark)}
    {ms : List Mark} (hlen : ms.count (.kind k) = ls.length) :
    (restock k ls ms).count m = ms.count m + (ls.map (List.count m)).sum := by
  induction ms generalizing ls with
  | nil =>
    obtain rfl : ls = [] := List.eq_nil_of_length_eq_zero (by simpa using hlen.symm)
    rfl
  | cons m' ms ih =>
    rw [restock]
    split
    · rename_i heq
      rw [heq, List.count_cons_self] at hlen
      obtain ⟨l, ls, rfl⟩ := List.exists_cons_of_length_pos (l := ls) (by omega)
      rw [List.headD_cons, List.tail_cons, List.count_append,
        ih (by simpa using hlen), heq, List.count_cons_of_ne (Ne.symm hm)]
      simp
      omega
    · rename_i hne
      rw [List.count_cons_of_ne hne] at hlen
      rw [List.count_cons, List.count_cons, ih hlen]
      omega

section
variable {raw : Text} (hnul : '\x00' ∉ raw)
include hnul

/-- The boundary tokens of a text are left in it, or put aside with its literals. -/
theorem fences_takenFrom (k : Kind) :
    fences (takenFrom raw k) = fences (Lifting.mask k ((liftCut raw).get k)) +
      (((Lifting.result raw).shelves.get k).map fences).sum := by
  have hlen : (marks (Lifting.mask k ((liftCut raw).get k))).count (.kind k) =
      (((Lifting.result raw).shelves.get k).map marks).length := by
    rw [count_marks_mask (soundCut_lift hnul k).gaps, List.length_map, shelves_length]
  rw [fences, ← restock_shelves hnul, count_restock (by simp) hlen, List.map_map]
  rfl

omit hnul in
theorem Sound.nuls_fences {t : Text} (h : Sound 5 t) : nuls t = 2 * fences t := by
  have hall : (marks t).count .fence = (marks t).length :=
    List.count_eq_length.mpr fun m hm => (Mark.eq_fence (turn_of_mem_marks h m hm)).symm
  rw [h.nuls_eq, fences, hall]

omit hnul in
theorem nuls_flatten_fences {ls : List Text} (h : ∀ l ∈ ls, Sound 5 l) :
    nuls ls.flatten = 2 * (ls.map fences).sum := by
  induction ls with
  | nil => rfl
  | cons l ls ih =>
    have hl := (h l List.mem_cons_self).nuls_fences
    have hmore := ih fun l' hl' => h l' (List.mem_cons_of_mem _ hl')
    rw [nuls] at hl hmore
    rw [nuls, List.flatten_cons, List.count_append, List.map_cons, List.sum_cons, hl, hmore]
    omega

/-- The number of boundary tokens in the literals of a kind. -/
def shelved (raw : Text) (k : Kind) : Nat :=
  (((Lifting.result raw).shelves.get k).map fences).sum

/-- The boundary tokens left in the lines are those left at the end. -/
theorem fences_lines :
    fences (Lifting.mask .resume ((liftCut raw).get .resume)) =
      (((Lifting.result raw).lines).map fences).sum := by
  have hsound : ∀ l ∈ (Lifting.result raw).lines, Sound 0 l :=
    fun l hl => (orderly_liftedLines hnul l hl).sound
  rw [fences, ← marks_squeezed (soundCut_lift hnul .resume).mask, ← squeezed_liftedLines,
    ← marks_squeezed_lines hsound, List.count_flatMap]
  rfl

/-- Where no boundary token is left in the lines, all are put aside. -/
theorem fences_fenceScripts (hlines : ∀ l ∈ (Lifting.result raw).lines, Mark.fence ∉ marks l) :
    fences (fenceScripts raw) = shelved raw .markup + shelved raw .delimiter + shelved raw .string +
      shelved raw .remark + shelved raw .resume := by
  have hnone := sum_fences_eq_zero.mpr hlines
  rw [← fences_lines hnul] at hnone
  have hmarkup := fences_takenFrom hnul .markup
  have hdelimiter := fences_takenFrom hnul .delimiter
  have hstring := fences_takenFrom hnul .string
  have hremark := fences_takenFrom hnul .remark
  have hresume := fences_takenFrom hnul .resume
  simp only [takenFrom] at hmarkup hdelimiter hstring hremark hresume
  simp only [shelved]
  omega

end

/-! ## Putting back -/

section
variable {raw t : Text} (hnul : '\x00' ∉ raw) (hm : Matched (Lifting.result raw).shelves t)
  (hbacked : ∀ k, k = .string ∨ k = .remark →
    ∀ l ∈ (Lifting.result raw).shelves.get k, Backed l)
include hnul hm hbacked

theorem posts_filled {k : Kind} (hk : k ≠ .markup) {n : Nat} {u : Text} (hu : Posts n u)
    (hcut : cutTokens k u = backCut (Lifting.result raw).shelves t k) :
    Posts (n + shelved raw k) (filled (Lifting.result raw).shelves t k) := by
  rw [filled, ← hcut]
  refine hu.fill ?_ (posts_shelves hnul hk (hbacked k)) fun hturn => ends_shelves hk hturn
  rw [hcut, hm k]

/-- The text that host markup is put back into has a post for each boundary token of the
literals. -/
theorem posts_back :
    Posts (shelved raw .resume + shelved raw .remark + shelved raw .string +
      shelved raw .delimiter) (filled (Lifting.result raw).shelves t .delimiter) := by
  have hresume := posts_filled hnul hm hbacked (k := .resume) (by decide) (.plain t)
    (backCut_resume _ t).symm
  have hremark := posts_filled hnul hm hbacked (by decide) hresume (backCut_remark _ t).symm
  have hstring := posts_filled hnul hm hbacked (by decide) hremark (backCut_string _ t).symm
  have hdelimiter := posts_filled hnul hm hbacked (by decide) hstring
    (backCut_delimiter _ t).symm
  rwa [Nat.zero_add] at hdelimiter

/-- Then the pieces between the runs of markup have whole fences. -/
theorem opened_backCut (hlines : ∀ l ∈ (Lifting.result raw).lines, Mark.fence ∉ marks l)
    (hn : nuls t = nuls (Lifting.mask .resume ((liftCut raw).get .resume))) :
    ∀ g ∈ (backCut (Lifting.result raw).shelves t .markup).gaps, Opened g := by
  have hposts := posts_back hnul hm hbacked
  have hall : nuls (filled (Lifting.result raw).shelves t .markup) =
      2 * fences (fenceScripts raw) := by
    rw [nuls_filled hm hn]
    exact (sound_fenceScripts hnul).nuls_fences
  have hhosts : nuls ((Lifting.result raw).shelves.get .markup).flatten =
      2 * shelved raw .markup := nuls_flatten_fences (sound_shelves hnul .markup)
  rw [filled, nuls_fillWith (hm .markup).symm, hhosts, fences_fenceScripts hnul hlines] at hall
  rw [backCut_markup] at hall ⊢
  exact hposts.opened_gaps.2 (by omega)

end

/-! ## No boundary token comes out -/

/-- A document whose boundary tokens are all in host markup, in strings and in comments, those in
strings and comments with the delimiter of their fence. -/
structure Enclosed (raw : Text) : Prop where
  lines : ∀ l ∈ (Lifting.result raw).lines, Mark.fence ∉ marks l
  literals : ∀ k, k = .string ∨ k = .remark →
    ∀ l ∈ (Lifting.result raw).shelves.get k, Backed l

theorem fences_mask_free {k : Kind} {w : Weave} (hw : ∀ g ∈ w.gaps, '\x00' ∉ g) :
    fences (Lifting.mask k w) = 0 := by
  obtain ⟨head, rest⟩ := w
  induction rest generalizing head with
  | nil =>
    have hhead := hw head List.mem_cons_self
    rw [show Lifting.mask k ⟨head, []⟩ = head by simp [Lifting.mask, Weave.replace], fences,
      marks_nul_free hhead]
    rfl
  | cons p rest ih =>
    have hhead := hw head List.mem_cons_self
    have hmore := ih p.2 fun g hg => hw g (List.mem_cons_of_mem _ hg)
    rw [mask_cons, fences, marks_append (.of_nul_free (n := 0) hhead), marks_nul_free hhead,
      List.nil_append, ← fences, fences_token, hmore]
    simp

/-- Script tags in host markup only. -/
theorem enclosed_of_markup {raw : Text} (hnul : '\x00' ∉ raw)
    (hgaps : ∀ g ∈ (Lifting.markup raw).gaps, '\x00' ∉ g) : Enclosed raw := by
  have hmarkup : fences (Lifting.mask .markup ((liftCut raw).get .markup)) = 0 :=
    fences_mask_free hgaps
  have hdelimiter := fences_takenFrom hnul .delimiter
  have hstring := fences_takenFrom hnul .string
  have hremark := fences_takenFrom hnul .remark
  have hresume := fences_takenFrom hnul .resume
  simp only [takenFrom] at hdelimiter hstring hremark hresume
  refine ⟨fun l hl => ?_, fun k hk l hl => ?_⟩
  · have hsum : (((Lifting.result raw).lines).map fences).sum = 0 := by
      rw [← fences_lines hnul]
      omega
    exact sum_fences_eq_zero.mp hsum l hl
  · have hsum : (((Lifting.result raw).shelves.get k).map fences).sum = 0 := by
      rcases hk with rfl | rfl <;> omega
    exact fun _ _ hocc => absurd hocc.mem_marks (sum_fences_eq_zero.mp hsum l hl)

theorem backed_of_opened {t : Text} (h : Opened t) : Backed t := by
  induction h with
  | nil => exact fun _ _ hocc => absurd hocc.mem_marks (by simp)
  | @char c t hc _ ih =>
    intro x y hocc
    obtain ⟨x', hlater, _⟩ := Occurs.of_nul_free_append (a := [c]) (by simpa using hc.symm) hocc
    exact ih x' y hlater
  | @opening t _ ih =>
    intro x y hocc
    have hfence : openFence ++ t = Mark.fence.token ++ (['<', '%'] ++ t) :=
      List.append_assoc Mark.fence.token ['<', '%'] t
    rw [hfence] at hocc
    rcases hocc.of_token with ⟨_, _, rfl⟩ | ⟨x', hlater, _⟩
    · exact List.prefix_append _ _
    · obtain ⟨z, hlater, _⟩ := hlater.of_nul_free_append (by decide)
      exact ih z y hlater

/-- What comes out of a document without NUL has none, unless script tags stand in live code. -/
theorem format_nul_free {settings : Settings} {raw : Text} {f : Formatted} (hnul : '\x00' ∉ raw)
    (henclosed : Enclosed raw) (hok : format settings raw = .ok f) : '\x00' ∉ f.text := by
  obtain ⟨style, worked, hstyle, _, hwork, hm, _, htext⟩ := format_ok hok
  obtain ⟨hu, _⟩ := Settings.style_ok hstyle
  have hopened := opened_backCut hnul hm henclosed.literals henclosed.lines
    (nuls_workedText hnul hu hwork)
  have hwhole : Whole (backText (Lifting.result raw).shelves (workedText raw worked)) := by
    refine whole_joinPadded (hopened _ (Weave.head_mem_gaps _)).whole fun p hp => ?_
    obtain ⟨hhost, hafter⟩ := List.of_mem_zip hp
    exact ⟨whole_markup hnul hhost, (hopened _ (List.mem_cons_of_mem _ hafter)).whole⟩
  rw [htext]
  exact nul_not_mem_unfenceScripts (newlineOf_hard raw).1 hwhole

/-- A script tag in a comment. -/
def taggedRemark : Text :=
  "<%'<script vbscript>\n%>".toList

theorem enclosed_taggedRemark : Enclosed taggedRemark := by
  have hstring : (Lifting.result taggedRemark).shelves.get .string = [] := by decide +kernel
  have hremark : (Lifting.result taggedRemark).shelves.get .remark =
      ["'<script vbscript>".toList ++ (openFence ++ [])] := by decide +kernel
  refine ⟨by decide +kernel, ?_⟩
  rintro k (rfl | rfl) l hl
  · rw [hstring] at hl
    cases hl
  · rw [hremark] at hl
    obtain rfl := List.mem_singleton.mp hl
    exact backed_of_opened ((Opened.opening .nil).free_append (by decide))

theorem format_taggedRemark :
    ∃ f, format {} taggedRemark = .ok f ∧
      f.text = "<% '<script vbscript>\n%>".toList := by
  refine ⟨⟨_, true, {
    totalLines := 2
    declarationsSplit := 0
    maxDepth := 0
    assignmentBlocks := 0
    remarkBlocks := 0
    literals := ⟨2, 0, 0, 1, 0⟩ }⟩, ?_, rfl⟩
  decide +kernel

theorem taggedRemark_nul_free :
    '\x00' ∉ taggedRemark ∧ Enclosed taggedRemark ∧
      ∃ f, format {} taggedRemark = .ok f ∧ '\x00' ∉ f.text := by
  obtain ⟨f, hf, _⟩ := format_taggedRemark
  exact ⟨by decide, enclosed_taggedRemark, f, hf,
    format_nul_free (by decide) enclosed_taggedRemark hf⟩

/-- A script tag in live code. -/
def taggedCode : Text :=
  "<% <script vbscript> %>".toList

theorem format_taggedCode :
    '\x00' ∉ taggedCode ∧ ∃ f, format {} taggedCode = .ok f ∧ '\x00' ∈ f.text := by
  refine ⟨by decide, ⟨"<% < script vbscript > \x00clientscript\x00 < % %>".toList, true, {
    totalLines := 1
    declarationsSplit := 0
    maxDepth := 0
    assignmentBlocks := 0
    remarkBlocks := 0
    literals := ⟨2, 0, 0, 0, 0⟩ }⟩, ?_, by decide⟩
  decide +kernel

end VbTidy
