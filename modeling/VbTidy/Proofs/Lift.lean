import VbTidy.Proofs.Run
import VbTidy.Proofs.Squeeze

/-
What putting aside leaves and what it puts aside. Each cut is made at places into which no token
reaches: at a delimiter, at a double quote, at an apostrophe or the word Rem, at the word On. So the
texts between the literals and the literals themselves are sound again (`SoundCut`), and no token
reaches into a literal when it comes back.
-/
namespace VbTidy

/-- A cut into sound texts and sound matches. -/
structure SoundCut (n : Nat) (w : Weave) : Prop where
  gaps : ∀ g ∈ w.gaps, Sound n g
  hits : ∀ h ∈ w.hits, Sound n h

namespace SoundCut

variable {n : Nat} {w v : Weave}

theorem nil : SoundCut n ⟨[], []⟩ where
  gaps := by simp [Weave.gaps, Sound.nil]
  hits := by simp [Weave.hits]

theorem head (h : SoundCut n w) : Sound n w.head :=
  h.gaps _ w.head_mem_gaps

theorem prepend {s : Text} (hs : Sound n s) (h : SoundCut n w) : SoundCut n (w.prepend s) where
  gaps := by
    intro g hg
    rcases List.mem_cons.mp hg with rfl | hg
    · exact hs.append h.head
    · exact h.gaps g (List.mem_cons_of_mem _ hg)
  hits := h.hits

theorem push {c : Char} (hc : c ≠ '\x00') (h : SoundCut n w) : SoundCut n (w.push c) :=
  prepend (Sound.char hc .nil) h

theorem pushHit {hit : Text} (hh : Sound n hit) (h : SoundCut n w) :
    SoundCut n (w.pushHit hit) where
  gaps := by
    intro g hg
    rcases List.mem_cons.mp hg with rfl | hg
    · exact .nil
    · exact h.gaps g hg
  hits := by
    intro l hl
    rcases List.mem_cons.mp hl with rfl | hl
    · exact hh
    · exact h.hits l hl

theorem tail {head : Text} {p : Text × Text} {rest : List (Text × Text)}
    (h : SoundCut n ⟨head, p :: rest⟩) : Sound n p.1 ∧ SoundCut n ⟨p.2, rest⟩ := by
  refine ⟨h.hits _ List.mem_cons_self, fun g hg => ?_, fun l hl => ?_⟩
  · exact h.gaps g (List.mem_cons_of_mem _ hg)
  · exact h.hits l (List.mem_cons_of_mem _ hl)

theorem append (hw : SoundCut n w) (hv : SoundCut n v) : SoundCut n (w.append v) := by
  obtain ⟨head, rest⟩ := w
  induction rest generalizing head with
  | nil => exact prepend hw.head hv
  | cons p rest ih => exact prepend hw.head (pushHit hw.tail.1 (ih p.2 hw.tail.2))

theorem unlines {ws : List Weave} (h : ∀ w ∈ ws, SoundCut n w) : SoundCut n (Weave.unlines ws) := by
  induction ws with
  | nil => exact nil
  | cons w ws ih =>
    exact append (h w List.mem_cons_self)
      (push (by decide) (ih fun v hv => h v (List.mem_cons_of_mem _ hv)))

/-- A cut of a sound text is sound if no token reaches into or out of a match. -/
theorem of_source (hs : Sound n w.source) (hopen : ∀ h ∈ w.hits, ∀ z, Sound.Clean n (h ++ z))
    (hclose : ∀ h ∈ w.hits, ∀ z, Sound n (h ++ z) → Sound n h) : SoundCut n w := by
  obtain ⟨head, rest⟩ := w
  induction rest generalizing head with
  | nil =>
    have hh : Sound n head := by simpa [Weave.source] using hs
    exact ⟨by simpa [Weave.gaps] using hh, by simp [Weave.hits]⟩
  | cons p rest ih =>
    have hp : p.1 ∈ (Weave.mk head (p :: rest)).hits := List.mem_cons_self
    have hsource : (Weave.mk head (p :: rest)).source =
        head ++ (p.1 ++ (Weave.mk p.2 rest).source) := by
      simp [Weave.source]
    rw [hsource] at hs
    obtain ⟨hhead, hrest⟩ := Sound.split (hopen p.1 hp _) hs
    have hhit := hclose p.1 hp _ hrest
    have hafter := Sound.cancel hhit hrest
    have := ih p.2 hafter (fun h hh => hopen h (List.mem_cons_of_mem _ hh))
      (fun h hh => hclose h (List.mem_cons_of_mem _ hh))
    have hw : Weave.mk head (p :: rest) = ((Weave.mk p.2 rest).pushHit p.1).prepend head := by
      simp [Weave.pushHit, Weave.prepend]
    rw [hw]
    exact prepend hhead (pushHit hhit this)

end SoundCut

/-- Tokens between sound texts make a sound text. -/
theorem sound_mask {k : Kind} {w : Weave} (h : ∀ g ∈ w.gaps, Sound (k.turn + 1) g) :
    Sound k.turn (Lifting.mask k w) := by
  obtain ⟨head, rest⟩ := w
  have hhead : Sound k.turn head := (h head List.mem_cons_self).mono (Nat.le_succ _)
  induction rest generalizing head with
  | nil => simpa [Lifting.mask, Weave.replace] using hhead
  | cons p rest ih =>
    have hafter : ∀ g ∈ (Weave.mk p.2 rest).gaps, Sound (k.turn + 1) g :=
      fun g hg => h g (List.mem_cons_of_mem _ hg)
    have hrest := ih p.2 hafter ((hafter p.2 List.mem_cons_self).mono (Nat.le_succ _))
    have hmask : Lifting.mask k ⟨head, p :: rest⟩ =
        head ++ ((Mark.kind k).token ++ Lifting.mask k ⟨p.2, rest⟩) := by
      have htok : (Mark.kind k).token = k.token := rfl
      simp [Lifting.mask, Weave.replace, htok]
    have hturn : k.turn ≤ (Mark.kind k).turn := Nat.le_of_eq rfl
    rw [hmask]
    exact hhead.append (.token hturn hrest)

theorem SoundCut.mask {k : Kind} {w : Weave} (h : SoundCut (k.turn + 1) w) :
    Sound k.turn (Lifting.mask k w) :=
  sound_mask h.gaps

/-! ## Fences -/

theorem mem_of_text_mem_fenceFrom {inBlock quoted due : Bool} {skip : Nat} {t : Text} {c : Char}
    (h : .text c ∈ fenceFrom inBlock quoted due skip t) : c ∈ t := by
  fun_induction fenceFrom inBlock quoted due skip t with
  | case1 => cases h
  | case2 _ _ _ skip d t ih =>
    simp only [List.mem_cons, List.mem_append, Fenced.text.injEq] at h
    rcases h with rfl | h | h
    · exact List.mem_cons_self
    · split at h <;> simp at h
    · exact List.mem_cons_of_mem _ (ih h)
  | case3 _ _ _ d t _ ih =>
    rcases List.mem_cons.mp h with h | h
    · simp only [Fenced.text.injEq] at h
      simp [h]
    · exact List.mem_cons_of_mem _ (ih h)
  | case4 _ _ d t _ _ _ ih =>
    rcases List.mem_cons.mp h with h | h
    · simp only [Fenced.text.injEq] at h
      simp [h]
    · exact List.mem_cons_of_mem _ (ih h)
  | case5 _ _ d t _ _ _ _ ih =>
    simp only [List.mem_cons, Fenced.text.injEq, reduceCtorEq, false_or] at h
    rcases h with rfl | h
    · exact List.mem_cons_self
    · exact List.mem_cons_of_mem _ (ih h)
  | case6 _ _ _ d t _ _ _ _ _ ih =>
    rcases List.mem_cons.mp h with h | h
    · simp only [Fenced.text.injEq] at h
      simp [h]
    · exact List.mem_cons_of_mem _ (ih h)

/-- Of tokens a document has only those of its fences. -/
theorem sound_fenceScripts {raw : Text} (h : '\x00' ∉ raw) : Sound 5 (fenceScripts raw) := by
  have key : ∀ fs : List Fenced, (∀ c, .text c ∈ fs → c ≠ '\x00') →
      Sound 5 (fs.flatMap Fenced.written) := by
    intro fs hfs
    induction fs with
    | nil => exact .nil
    | cons f fs ih =>
      rw [List.flatMap_cons]
      refine Sound.append ?_ (ih fun c hc => hfs c (List.mem_cons_of_mem _ hc))
      cases f with
      | text c => exact .char (hfs c List.mem_cons_self) .nil
      | opening =>
        exact (Sound.mark (m := .fence) (Nat.le_refl 5)).append (.of_nul_free (by decide))
      | closing =>
        exact (Sound.of_nul_free (by decide)).append (.mark (m := .fence) (Nat.le_refl 5))
  apply key
  intro c hc
  rintro rfl
  exact h (mem_of_text_mem_fenceFrom hc)

/-! ## Markup -/

theorem cutCode_char {c : Char} (hc : c ≠ '%') (t : Text) :
    cutCode (c :: t) = (cutCode t).push c := by
  rw [cutCode]
  rintro _ rfl
  exact absurd rfl hc

theorem cutHost_char {c : Char} (hc : c ≠ '<') (t : Text) :
    cutHost (c :: t) = (c :: (cutHost t).1, (cutHost t).2) := by
  rw [cutHost]
  rintro _ rfl
  exact absurd rfl hc

theorem cutCode_append {s : Text} (hs : '%' ∉ s) (t : Text) :
    cutCode (s ++ t) = (cutCode t).prepend s := by
  induction s with
  | nil => rfl
  | cons c s ih =>
    rw [List.mem_cons, not_or] at hs
    rw [List.cons_append, cutCode_char (Ne.symm hs.1), ih hs.2]
    rfl

theorem cutHost_append {s : Text} (hs : '<' ∉ s) (t : Text) :
    cutHost (s ++ t) = (s ++ (cutHost t).1, (cutHost t).2) := by
  induction s with
  | nil => rfl
  | cons c s ih =>
    rw [List.mem_cons, not_or] at hs
    rw [List.cons_append, cutHost_char (Ne.symm hs.1), ih hs.2]
    rfl

theorem Mark.not_mem_token {m : Mark} {c : Char} (hc : c ≠ '\x00') (hn : isNameChar c = false) :
    c ∉ m.token := by
  intro h
  rcases Mark.mem_token h with h | h
  · exact hc h
  · rw [hn] at h
    cases h

/-- Markup is cut off at characters of no token, from inside code and from inside markup. -/
theorem soundCut_code_host {n : Nat} {t : Text} (ht : Sound n t) :
    SoundCut n (cutCode t) ∧ Sound n (cutHost t).1 ∧ SoundCut n (cutHost t).2 := by
  induction hlen : t.length using Nat.strongRecOn generalizing t with
  | ind len ih =>
    cases ht with
    | nil => exact ⟨.nil, .nil, .nil⟩
    | @char c t hc ht =>
      have step := ih t.length (by simp at hlen; omega) ht rfl
      refine ⟨?_, ?_⟩
      · by_cases hp : ∃ u, c :: t = '%' :: '>' :: u
        · obtain ⟨u, hu⟩ := hp
          obtain ⟨rfl, rfl⟩ := List.cons.inj hu
          have hu := ih u.length (by simp at hlen; omega) (Sound.tail (by decide) ht) rfl
          rw [cutCode]
          exact hu.2.2.pushHit ((Sound.of_nul_free (t := ['%', '>']) (by decide)).append hu.2.1)
        · have : cutCode (c :: t) = (cutCode t).push c := by
            rw [cutCode]
            rintro u rfl rfl
            exact hp ⟨u, rfl⟩
          rw [this]
          exact step.1.push hc
      · by_cases hp : ∃ u, c :: t = '<' :: '%' :: u
        · obtain ⟨u, hu⟩ := hp
          obtain ⟨rfl, rfl⟩ := List.cons.inj hu
          have hu := ih u.length (by simp at hlen; omega) (Sound.tail (by decide) ht) rfl
          rw [cutHost]
          exact ⟨Sound.of_nul_free (t := ['<', '%']) (by decide), hu.1⟩
        · have : cutHost (c :: t) = (c :: (cutHost t).1, (cutHost t).2) := by
            rw [cutHost]
            rintro u rfl rfl
            exact hp ⟨u, rfl⟩
          rw [this]
          exact ⟨.char hc step.2.1, step.2.2⟩
    | @token m t hm ht =>
      have hpos : 0 < m.token.length := by simp [Mark.token, tokenOf]
      have step := ih t.length (by simp at hlen; omega) ht rfl
      rw [cutCode_append (Mark.not_mem_token (by decide) (by decide)),
        cutHost_append (Mark.not_mem_token (by decide) (by decide))]
      exact ⟨step.1.prepend (.mark hm), (Sound.mark hm).append step.2.1, step.2.2⟩

theorem soundCut_markup {n : Nat} {t : Text} (ht : Sound n t) : SoundCut n (cutMarkup t) := by
  obtain ⟨hcode, hhost, hafter⟩ := soundCut_code_host ht
  rw [cutMarkup]
  split
  · exact hafter.pushHit hhost
  · exact hcode

/-! ## Matches of a pattern -/

/-- A match is what the pattern takes at some place, between the text before that place and the text
after it. -/
theorem rest_weaveFrom {p : Pattern} {skip : Nat} {before : Option Char} {t h g : Text}
    {pre more : List (Text × Text)} (hs : (p.weaveFrom skip before t).rest = pre ++ (h, g) :: more) :
    ∃ u n, p (((t.take skip ++ (Weave.mk (p.weaveFrom skip before t).head pre).source).getLast?).or
        before) u = some n ∧ h = u.take n ∧ (Weave.mk g more).source = u.drop n := by
  induction t generalizing skip before pre with
  | nil =>
    cases skip with
    | zero =>
      rw [Pattern.weaveFrom] at hs ⊢
      split at hs
      · simp at hs
      · obtain ⟨rfl, ⟨rfl, rfl⟩, rfl⟩ : pre = [] ∧ (h = [] ∧ g = []) ∧ more = [] := by
          cases pre <;> simp_all
        exact ⟨[], _, ‹_›, by simp, by simp [Weave.source]⟩
    | succ skip => simp [Pattern.weaveFrom] at hs
  | cons c t ih =>
    cases skip with
    | succ skip =>
      rw [Pattern.weaveFrom] at hs ⊢
      rw [List.take_succ_cons, List.cons_append, getLast?_cons_or]
      exact ih hs
    | zero =>
      rw [Pattern.weaveFrom] at hs ⊢
      rw [List.take_zero, List.nil_append]
      split at hs
      · obtain ⟨u, n, hn, hrest⟩ := ih hs
        refine ⟨u, n, ?_, hrest⟩
        rw [← hn]
        exact congrArg (p · u) (getLast?_cons_or c _ before)
      · cases pre with
        | nil =>
          obtain ⟨⟨rfl, rfl⟩, rfl⟩ : (([] : Text) = h ∧ _ = g) ∧ _ = more := by
            simpa [Weave.pushHit] using hs
          refine ⟨c :: t, 0, ‹_›, by simp, ?_⟩
          exact (Weave.source_push c _).trans (by simp [Pattern.source_weaveFrom])
        | cons q pre =>
          obtain ⟨rfl, hmore⟩ := List.cons.inj hs
          obtain ⟨u, n, hn, hrest⟩ := @ih 0 (some c) pre hmore
          refine ⟨u, n, ?_, hrest⟩
          rw [← hn]
          exact congrArg (p · u) (getLast?_cons_or c _ before)
      · rename_i n hn
        cases pre with
        | nil =>
          obtain ⟨⟨rfl, rfl⟩, rfl⟩ : (c :: t.take n = h ∧ _ = g) ∧ _ = more := by
            simpa [Weave.pushHit] using hs
          exact ⟨c :: t, n + 1, hn, by simp, Pattern.source_weaveFrom p n (some c) t⟩
        | cons q pre =>
          obtain ⟨rfl, hmore⟩ := List.cons.inj hs
          obtain ⟨u, n', hn', hrest⟩ := @ih n (some c) pre hmore
          refine ⟨u, n', ?_, hrest⟩
          rw [← hn']
          refine congrArg (p · u) (Eq.trans ?_ (getLast?_cons_or c _ before))
          simp [Weave.source, Weave.pushHit]

theorem mem_hits_weave {p : Pattern} {t h : Text} (hh : h ∈ (p.weave t).hits) :
    ∃ b u n, p b u = some n ∧ h = u.take n := by
  obtain ⟨⟨_, g⟩, hmem, rfl⟩ := List.mem_map.mp hh
  obtain ⟨pre, more, hrest⟩ := List.append_of_mem hmem
  obtain ⟨u, n, hn, htake, _⟩ := rest_weaveFrom hrest
  exact ⟨_, u, n, hn, htake⟩

/-! ## Delimiters -/

theorem hit_delimiter {t h : Text} (hh : h ∈ (delimiterPattern.weave t).hits) :
    h = "<!--".toList ∨ h = "-->".toList := by
  have key : ∀ part u : Text, ∀ n b, Pattern.literal part b u = some n → u.take n = part := by
    intro part u n b hn
    simp only [Pattern.literal] at hn
    split at hn
    · rename_i hp
      cases hn
      exact (List.prefix_iff_eq_take.mp (List.isPrefixOf_iff_prefix.mp hp)).symm
    · cases hn
  obtain ⟨b, u, n, hn, rfl⟩ := mem_hits_weave hh
  rw [delimiterPattern, Option.or_eq_some_iff] at hn
  rcases hn with hn | ⟨_, hn⟩
  · exact .inl (key _ _ _ _ hn)
  · exact .inr (key _ _ _ _ hn)

theorem soundCut_delimiter {n : Nat} {t : Text} (ht : Sound n t) :
    SoundCut n (delimiterPattern.weave t) := by
  refine .of_source (by simpa using ht) (fun h hh z => ?_) (fun h hh z _ => ?_)
  · rcases hit_delimiter hh with rfl | rfl
    · exact Sound.clean_cons (by decide) (by decide)
    · exact Sound.clean_cons (by decide) (by decide)
  · rcases hit_delimiter hh with rfl | rfl
    · exact .of_nul_free (by decide)
    · exact .of_nul_free (by decide)

/-! ## Lines -/

theorem splitLines_lineEnd {c : Char} (hc : isLineEnd c = true) (t : Text) :
    splitLines (c :: t) = [] :: splitLines t ∨
      ∃ u, t = '\n' :: u ∧ splitLines (c :: t) = [] :: splitLines u := by
  by_cases hr : ∃ u, c :: t = '\r' :: '\n' :: u
  · obtain ⟨u, hu⟩ := hr
    obtain ⟨rfl, rfl⟩ := List.cons.inj hu
    exact .inr ⟨u, rfl, by rw [splitLines]⟩
  · refine .inl ?_
    rw [splitLines]
    · rw [if_pos hc]
    · rintro u rfl rfl
      exact hr ⟨u, rfl⟩

theorem splitLines_char {c : Char} (hc : isLineEnd c = false) (t : Text) :
    splitLines (c :: t) =
      (c :: (splitLines t).headD []) :: (splitLines t).tail := by
  have hr : c ≠ '\r' := by
    rintro rfl
    revert hc
    decide
  rw [splitLines]
  · rw [if_neg (by simp [hc])]
    cases splitLines t <;> rfl
  · rintro _ rfl
    exact absurd rfl hr

theorem splitLines_append {s : Text} (hs : ∀ c ∈ s, isLineEnd c = false) (hne : s ≠ []) (t : Text) :
    splitLines (s ++ t) = (s ++ (splitLines t).headD []) :: (splitLines t).tail := by
  induction s with
  | nil => exact absurd rfl hne
  | cons c s ih =>
    rw [List.cons_append, splitLines_char (hs c List.mem_cons_self)]
    cases s with
    | nil => rfl
    | cons d s =>
      rw [ih (fun e he => hs e (List.mem_cons_of_mem _ he)) (by simp)]
      rfl

theorem isLineEnd_token {m : Mark} {c : Char} (h : c ∈ m.token) : isLineEnd c = false := by
  have key : ∀ m ∈ Mark.all, ∀ c ∈ m.token, isLineEnd c = false := by decide
  exact key m (Mark.mem_all m) c h

/-- The lines of a sound text are sound. -/
theorem sound_splitLines {n : Nat} {t : Text} (ht : Sound n t) :
    ∀ line ∈ splitLines t, Sound n line := by
  have first : ∀ (s : Text) (ls : List Text), Sound n s → (∀ l ∈ ls, Sound n l) →
      ∀ l ∈ (s ++ ls.headD []) :: ls.tail, Sound n l := by
    intro s ls hs hls l hl
    rcases List.mem_cons.mp hl with rfl | hl
    · cases ls with
      | nil => simpa using hs
      | cons l ls => exact hs.append (hls l List.mem_cons_self)
    · exact hls l (List.mem_of_mem_tail hl)
  induction ht with
  | nil => intro line hl; cases hl
  | @char c t hc ht ih =>
    cases he : isLineEnd c with
    | true =>
      intro line hl
      rcases splitLines_lineEnd he t with h | ⟨u, rfl, h⟩
      · rw [h] at hl
        rcases List.mem_cons.mp hl with rfl | hl
        · exact .nil
        · exact ih line hl
      · rw [h] at hl
        rcases List.mem_cons.mp hl with rfl | hl
        · exact .nil
        · have hu : splitLines ('\n' :: u) = [] :: splitLines u := by
            rw [splitLines]
            · rfl
            · rintro _ h
              cases h
          exact ih line (by rw [hu]; exact List.mem_cons_of_mem _ hl)
    | false =>
      rw [splitLines_char he]
      exact first [c] _ (.char hc .nil) ih
  | @token m t hm ht ih =>
    rw [splitLines_append (fun c hc => isLineEnd_token hc) (by simp [Mark.token, tokenOf])]
    exact first m.token _ (.mark hm) ih

/-! ## Strings and comments -/

theorem lowerChar_token {m : Mark} {c : Char} (h : c ∈ m.token) : lowerChar c = c := by
  have key : ∀ m ∈ Mark.all, ∀ c ∈ m.token, lowerChar c = c := by decide
  exact key m (Mark.mem_all m) c h

/-- No token reaches into a text that starts with two letters that stand in no token, in any
letter case. -/
theorem clean_letters {n : Nat} {x y a b : Char} {t : Text} (hx : x ≠ '\x00')
    (h : ∀ m ∈ Mark.all, n ≤ m.turn → ∀ i < m.token.length, (m.token.drop i).take 2 ≠ [x, y])
    (ha : lowerChar a = x) (hb : lowerChar b = y) : Sound.Clean n (a :: b :: t) := by
  apply Sound.clean_pair
  · rintro rfl
    exact hx (ha.symm.trans (by decide))
  · intro m hm hturn i hi heq
    have hsub : ∀ c ∈ [a, b], c ∈ m.token := by
      intro c hc
      rw [← heq] at hc
      exact List.mem_of_mem_drop (List.mem_of_mem_take hc)
    have ha' : a = x := (lowerChar_token (hsub a (by simp))).symm.trans ha
    have hb' : b = y := (lowerChar_token (hsub b (by simp))).symm.trans hb
    exact h m hm hturn i hi (by rw [heq, ha', hb'])

/-- A comment starts with an apostrophe or the word Rem. -/
def StartsRemark (t : Text) : Prop :=
  t.head? = some '\'' ∨ isRem t = true

theorem startsRemark_of_remarkFrom {quoted : Bool} {before t : Text} {i : Nat}
    (h : remarkFrom quoted before t = some i) : StartsRemark (t.drop i) := by
  induction t generalizing quoted before i with
  | nil => cases h
  | cons c t ih =>
    have later : ∀ {q}, (remarkFrom q (c :: before) t).map (· + 1) = some i →
        StartsRemark ((c :: t).drop i) := by
      intro q hq
      obtain ⟨j, hj, rfl⟩ := Option.map_eq_some_iff.mp hq
      exact ih hj
    rw [remarkFrom] at h
    split at h
    · exact later h
    · split at h
      · cases h
        rename_i hc
        simp only [Bool.and_eq_true, Bool.or_eq_true, beq_iff_eq] at hc
        rcases hc.2 with rfl | ⟨hrem, _⟩
        · exact .inl rfl
        · exact .inr hrem
      · exact later h

/-- No token reaches into a comment, those for error phrases apart. -/
theorem StartsRemark.clean {n : Nat} (hn : 1 ≤ n) {t : Text} (h : StartsRemark t) (z : Text) :
    Sound.Clean n (t ++ z) := by
  rcases h with h | h
  · cases t with
    | nil => cases h
    | cons c t =>
      obtain rfl : c = '\'' := by simpa using h
      exact Sound.clean_cons (by decide) (by decide)
  · match t, h with
    | r :: e :: m :: t, h =>
      simp only [isRem, Bool.and_eq_true, beq_iff_eq] at h
      refine clean_letters (x := 'r') (y := 'e') (by decide) ?_ h.1.1.1 h.1.1.2
      intro m hm hturn
      have key : ∀ m ∈ Mark.all, 1 ≤ m.turn → ∀ i < m.token.length,
          (m.token.drop i).take 2 ≠ ['r', 'e'] := by decide
      exact key m hm (Nat.le_trans hn hturn)

theorem splitRemark_append (line : Text) : (splitRemark line).1 ++ (splitRemark line).2 = line := by
  rw [splitRemark]
  split <;> simp [List.splitAt_eq]

theorem splitRemark_cases (line : Text) :
    (splitRemark line).2 = [] ∨ StartsRemark (splitRemark line).2 := by
  rw [splitRemark]
  split
  · exact .inl rfl
  · rename_i i hi
    rw [List.splitAt_eq]
    exact .inr (startsRemark_of_remarkFrom hi)

/-- Code and comment of a sound line are sound. -/
theorem sound_splitRemark {n : Nat} (hn : 1 ≤ n) {line : Text} (h : Sound n line) :
    Sound n (splitRemark line).1 ∧ Sound n (splitRemark line).2 := by
  rw [← splitRemark_append line] at h
  refine Sound.split ?_ h
  rcases splitRemark_cases line with hr | hr
  · rw [hr]
    exact Sound.clean_nil
  · simpa using hr.clean hn []

/-- A string goes from one double quote to the next on its line. -/
theorem dropString?_eq_some {t rest : Text} (h : dropString? t = some rest) :
    ∃ body, t = '"' :: (body ++ '"' :: rest) ∧ '"' ∉ body := by
  unfold dropString? at h
  split at h
  · rename_i t
    have hsplit := List.takeWhile_append_dropWhile
      (p := fun c => c != '"' && c != '\r' && c != '\n') (l := t)
    split at h
    · rename_i r hr
      cases h
      rw [hr] at hsplit
      refine ⟨_, by rw [hsplit], ?_⟩
      intro hmem
      have := List.all_eq_true.mp List.all_takeWhile _ hmem
      simp at this
    · cases h
  · cases h

/-- A match of a string is one. -/
theorem hit_string {t h : Text} (hh : h ∈ ((Pattern.ofRest dropString?).weave t).hits) :
    ∃ body, h = '"' :: (body ++ ['"']) ∧ '"' ∉ body := by
  obtain ⟨b, u, n, hn, rfl⟩ := mem_hits_weave hh
  obtain ⟨rest, hrest, rfl⟩ := Option.map_eq_some_iff.mp hn
  obtain ⟨body, rfl, hbody⟩ := dropString?_eq_some hrest
  refine ⟨body, ?_, hbody⟩
  have hlen : ('"' :: (body ++ '"' :: rest)).length - rest.length = (body ++ ['"']).length + 1 := by
    simp
    omega
  have hassoc : body ++ '"' :: rest = (body ++ ['"']) ++ rest := by simp
  rw [hlen, List.take_succ_cons, hassoc, List.take_left]

/-- The comment stands behind the last string. -/
theorem cutStrings_eq (line : Text) :
    cutStrings line = ((Pattern.ofRest dropString?).weave (splitRemark line).1).append
      ⟨(splitRemark line).2, []⟩ := by
  have key : ∀ (gap remark : Text) (earlier : List (Text × Text)) (hit after : Text),
      Weave.appendRest gap (earlier ++ [(hit, after)]) ⟨remark, []⟩ =
        ⟨gap, earlier ++ [(hit, after ++ remark)]⟩ := by
    intro gap remark earlier hit after
    induction earlier generalizing gap with
    | nil => simp [Weave.appendRest, Weave.prepend, Weave.pushHit]
    | cons p earlier ih => simp [Weave.appendRest, Weave.prepend, Weave.pushHit, ih]
  simp only [cutStrings]
  generalize (Pattern.ofRest dropString?).weave (splitRemark line).1 = w
  split
  · rename_i h
    rw [List.reverse_eq_nil_iff] at h
    simp [Weave.append, h, Weave.appendRest, Weave.prepend]
  · rename_i hit after earlier h
    have hrest : w.rest = earlier.reverse ++ [(hit, after)] := by
      rw [← List.reverse_reverse w.rest, h]
      simp
    rw [Weave.append, hrest, key]
    simp

theorem soundCut_string {n : Nat} (hn : 1 ≤ n) {line : Text} (h : Sound n line) :
    SoundCut n (cutStrings line) := by
  obtain ⟨hcode, hremark⟩ := sound_splitRemark hn h
  rw [cutStrings_eq]
  refine .append (.of_source (by simpa using hcode) (fun h hh z => ?_) (fun h hh z hz => ?_)) ?_
  · obtain ⟨body, rfl, _⟩ := hit_string hh
    exact Sound.clean_cons (by decide) (by decide)
  · -- no token reaches across the closing quote
    obtain ⟨body, rfl, _⟩ := hit_string hh
    have hassoc : '"' :: (body ++ ['"']) ++ z = ('"' :: body) ++ '"' :: z := by simp
    rw [hassoc] at hz
    have hbody := (Sound.split (Sound.clean_cons (by decide) (by decide)) hz).1
    exact hbody.append (.of_nul_free (by decide))
  · exact ⟨by simpa [Weave.gaps] using hremark, by simp [Weave.hits]⟩

theorem cutRemark_eq (line : Text) :
    cutRemark line = ⟨(splitRemark line).1, []⟩ ∧ (splitRemark line).2 = [] ∨
      cutRemark line = ⟨(splitRemark line).1, [((splitRemark line).2, [])]⟩ ∧
        StartsRemark (splitRemark line).2 := by
  rw [cutRemark, splitRemark]
  split
  · exact .inl ⟨rfl, rfl⟩
  · rename_i i hi
    rw [List.splitAt_eq]
    exact .inr ⟨rfl, startsRemark_of_remarkFrom hi⟩

theorem soundCut_remark {n : Nat} (hn : 1 ≤ n) {line : Text} (h : Sound n line) :
    SoundCut n (cutRemark line) := by
  obtain ⟨hcode, hremark⟩ := sound_splitRemark hn h
  rcases cutRemark_eq line with ⟨he, _⟩ | ⟨he, _⟩
  · rw [he]
    exact ⟨by simpa [Weave.gaps] using hcode, by simp [Weave.hits]⟩
  · rw [he]
    exact ⟨by simp [Weave.gaps, hcode, Sound.nil], by simpa [Weave.hits] using hremark⟩

/-! ## Error phrases -/

set_option maxRecDepth 1000 in
/-- A Latin letter in any case: the letter itself, or its kin, the long s and the dotless i. -/
theorem sameLetter_cases {l c : Char} (hascii : l.toNat < 0x80)
    (hname : isNameChar l.toLower = true) (h : sameLetter l c = true) :
    lowerChar c = l.toLower ∨ (c = 'ſ' ∧ l.toLower = 's') ∨ (c = 'ı' ∧ l.toLower = 'i') := by
  have key : ∀ l : Char, l.toNat < 0x80 → isNameChar l.toLower = true → lowerChar l = l.toLower ∧
      ∀ m ∈ (letterKin.lookup (lowerChar l).toNat).getD [],
        (m = 0x17F ∧ l.toLower = 's') ∨ (m = 0x131 ∧ l.toLower = 'i') := of_ascii (by decide)
  obtain ⟨hlow, hkin⟩ := key l hascii hname
  simp only [sameLetter] at h
  split at h
  · rename_i hc
    simp only [Bool.and_eq_true, decide_eq_true_eq] at hc
    rw [lowerChar, if_pos hc.2]
    exact .inl (beq_iff_eq.mp h).symm
  · rename_i hc
    simp only [Bool.and_eq_true, decide_eq_true_eq, not_and, Nat.not_lt] at hc
    rw [List.contains_iff_mem, List.mem_cons] at h
    rcases h with h | h
    · rw [hlow] at h
      exact .inl (Char.toNat_inj.mp h)
    · rcases hkin _ h with ⟨hn, hs⟩ | ⟨hn, hi⟩
      · have hlong : lowerChar c = 'ſ' := Char.toNat_inj.mp hn
        exact .inr (.inl ⟨eq_of_lowerChar (by decide) (hc hascii) hlong, hs⟩)
      · have hdotless : lowerChar c = 'ı' := Char.toNat_inj.mp hn
        exact .inr (.inr ⟨eq_of_lowerChar (by decide) (hc hascii) hdotless, hi⟩)

/-- A Latin letter in any case is that letter without regard to case. The i is left out: its kin
without a dot is no i. -/
theorem squeezed_of_sameLetter {l c : Char} (hascii : l.toNat < 0x80)
    (hname : isNameChar l.toLower = true) (hi : l.toLower ≠ 'i') (h : sameLetter l c = true) :
    squeezed [c] = [l.toLower] := by
  rcases sameLetter_cases hascii hname h with hc | ⟨rfl, hs⟩ | ⟨_, hdotless⟩
  · obtain ⟨hspace, hcase⟩ := lower_nameChar (c := c) (by rw [hc]; exact hname)
    rw [squeezed_cons, hspace, hcase, hc]
    rfl
  · rw [hs]
    decide
  · exact absurd hdotless hi

/-- Letters of which none is an i. -/
def Lettered (w : Text) : Prop :=
  ∀ l ∈ w, l.toNat < 0x80 ∧ isNameChar l.toLower = true ∧ l.toLower ≠ 'i'

theorem dropWord?_lettered {w t rest : Text} (hw : Lettered w) (h : dropWord? w t = some rest) :
    ∃ s, t = s ++ rest ∧ s.map (fun c => squeezed [c]) = w.map fun l => [l.toLower] := by
  obtain ⟨s, rfl, hs⟩ := dropWord?_iff.mp h
  refine ⟨s, rfl, ?_⟩
  clear h
  induction hs with
  | nil => rfl
  | @cons l c w s hc _ ih =>
    obtain ⟨hascii, hname, hi⟩ := hw l List.mem_cons_self
    rw [List.map_cons, List.map_cons, squeezed_of_sameLetter hascii hname hi hc,
      ih fun m hm => hw m (List.mem_cons_of_mem _ hm)]

/-- The letters of a word of the phrase. -/
def InPhrase (w : Text) : Prop :=
  ∀ l ∈ w, l ∈ resumePhrase ∧ isSpace l = false

theorem dropWord?_phrase {w t rest : Text} (hw : InPhrase w) (h : dropWord? w t = some rest) :
    ∃ s, t = s ++ rest ∧ s.map (fun c => squeezed [c]) = w.map fun l => [l.toLower] := by
  have key : ∀ l ∈ resumePhrase, isSpace l = false →
      l.toNat < 0x80 ∧ isNameChar l.toLower = true ∧ l.toLower ≠ 'i' := by decide
  exact dropWord?_lettered (fun l hl => key l (hw l hl).1 (hw l hl).2) h

theorem squeezed_of_map {s w : Text}
    (h : s.map (fun c => squeezed [c]) = w.map fun l => [l.toLower]) :
    squeezed s = w.map Char.toLower := by
  rw [squeezed_eq_flatMap, List.flatMap_def, h, ← List.flatMap_def, ← List.map_eq_flatMap]

theorem dropBlankPhrase?_squeezed {ws : List Text} {t rest : Text} (hw : ∀ w ∈ ws, InPhrase w)
    (h : dropBlankPhrase? ws t = some rest) :
    ∃ s, t = s ++ rest ∧ squeezed s = ws.flatten.map Char.toLower := by
  fun_induction dropBlankPhrase? ws t with
  | case1 t => exact ⟨[], by simpa using h, rfl⟩
  | case2 w t =>
    obtain ⟨s, hs, hmap⟩ := dropWord?_phrase (hw w List.mem_cons_self) h
    exact ⟨s, hs, by simpa using squeezed_of_map hmap⟩
  | case3 w ws t _ c after hafter hc ih =>
    obtain ⟨s, rfl, hmap⟩ := dropWord?_phrase (hw w List.mem_cons_self) hafter
    obtain ⟨u, hu, hsq⟩ := ih (fun v hv => hw v (List.mem_cons_of_mem _ hv)) h
    refine ⟨s ++ c :: (after.takeWhile isBlank ++ u), ?_, ?_⟩
    · simp [← hu]
    · have hblanks : squeezed (after.takeWhile isBlank) = [] := by
        apply squeezed_of_spaces
        intro d hd
        exact isSpace_of_isBlank (List.all_eq_true.mp List.all_takeWhile d hd)
      rw [squeezed_append, squeezed_space (isSpace_of_isBlank hc), squeezed_append, hblanks, hsq,
        squeezed_of_map hmap]
      simp
  | case4 => cases h
  | case5 => cases h

theorem lowerChar_of_squeezed {c l : Char} (hl : l ≠ 's') (h : squeezed [c] = [l]) :
    lowerChar c = l := by
  rw [squeezed_cons] at h
  split at h
  · cases h
  · simp only [squeezed_nil, List.cons.injEq, and_true, caseless] at h
    split at h
    · exact absurd h.symm hl
    · exact h

/-- The phrase starts with the letters of its first word. -/
theorem phrase_letters {ws : List Text} {t rest : Text}
    (h : dropBlankPhrase? ("On".toList :: ws) t = some rest) :
    ∃ a b more, t = a :: b :: more ∧ lowerChar a = 'o' ∧ lowerChar b = 'n' := by
  have hin : InPhrase "On".toList := by
    unfold InPhrase
    decide
  have hfirst : ∃ r, dropWord? "On".toList t = some r := by
    cases ws with
    | nil => exact ⟨rest, h⟩
    | cons w ws =>
      rw [dropBlankPhrase?] at h
      · split at h
        · exact ⟨_, ‹_›⟩
        · cases h
      · intro h'
        cases h'
  obtain ⟨r, hr⟩ := hfirst
  obtain ⟨s, rfl, hs⟩ := dropWord?_phrase hin hr
  obtain ⟨a, b, rfl⟩ : ∃ a b, s = [a, b] := by
    match s, congrArg List.length hs with
    | [a, b], _ => exact ⟨a, b, rfl⟩
  have hab : squeezed [a] = ['o'] ∧ squeezed [b] = ['n'] := by simpa using hs
  exact ⟨a, b, r, rfl, lowerChar_of_squeezed (by decide) hab.1,
    lowerChar_of_squeezed (by decide) hab.2⟩

/-- A match of the phrase is the phrase apart from letter case and blanks. -/
theorem hit_resume {t h : Text} (hh : h ∈ (cutResume t).hits) :
    squeezed h = squeezed resumePhrase ∧ ∀ n z, Sound.Clean n (h ++ z) := by
  have hwords : words resumePhrase =
      ["On".toList, "Error".toList, "Resume".toList, "Next".toList] := by decide
  have hin : ∀ w ∈ words resumePhrase, InPhrase w := by
    rw [hwords]
    unfold InPhrase
    decide
  obtain ⟨b, u, n, hn, rfl⟩ := mem_hits_weave hh
  simp only [resumePattern, Pattern.wholeWords] at hn
  split at hn
  · rw [Option.filter_eq_some_iff] at hn
    obtain ⟨rest, hrest, rfl⟩ := Option.map_eq_some_iff.mp hn.1
    obtain ⟨s, rfl, hs⟩ := dropBlankPhrase?_squeezed hin hrest
    have hlen : (s ++ rest).length - rest.length = s.length := by simp
    rw [hlen, List.take_left]
    refine ⟨?_, fun n z => ?_⟩
    · rw [hs, hwords]
      decide
    · obtain ⟨a, b, more, hab, ha, hb⟩ := phrase_letters (hwords ▸ hrest)
      have hlen := congrArg List.length hs
      rw [hwords] at hlen
      have hle : (squeezed s).length ≤ s.length := by
        simp only [squeezed, List.length_map]
        exact List.length_filter_le _ _
      rcases s with _ | ⟨c, _ | ⟨d, s⟩⟩
      · simp at hlen
      · simp at hlen hle
        omega
      · simp only [List.cons_append, List.cons.injEq] at hab
        obtain ⟨rfl, rfl, _⟩ := hab
        refine clean_letters (x := 'o') (y := 'n') (by decide) ?_ ha hb
        intro m hm _
        have key : ∀ m ∈ Mark.all, ∀ i < m.token.length,
            (m.token.drop i).take 2 ≠ ['o', 'n'] := by decide
        exact key m hm
  · cases hn

theorem nul_not_mem_resume {h : Text} (hh : squeezed h = squeezed resumePhrase) : '\x00' ∉ h := by
  rw [← List.count_eq_zero, ← count_squeezed, hh]
  decide

theorem soundCut_resume {n : Nat} {line : Text} (h : Sound n line) :
    SoundCut n (cutResume line) := by
  refine .of_source (by simpa [cutResume] using h) (fun h hh z => ?_) (fun h hh z _ => ?_)
  · exact (hit_resume hh).2 n z
  · exact .of_nul_free (nul_not_mem_resume (hit_resume hh).1)

/-! ## All kinds -/

section
variable {raw : Text} (h : '\x00' ∉ raw)
include h

theorem sound_stringLines :
    ∀ line ∈ splitLines (Lifting.mask .delimiter (Lifting.delimiter raw)), Sound 3 line := by
  have hmarkup : SoundCut 5 (Lifting.markup raw) := soundCut_markup (sound_fenceScripts h)
  have hdelimiter : SoundCut 4 (Lifting.delimiter raw) :=
    soundCut_delimiter (hmarkup.mask (k := .markup))
  exact sound_splitLines (hdelimiter.mask (k := .delimiter))

theorem soundCut_strings : ∀ w ∈ Lifting.strings raw, SoundCut 3 w := by
  intro w hw
  obtain ⟨line, hline, rfl⟩ := List.mem_map.mp hw
  exact soundCut_string (by omega) (sound_stringLines h line hline)

theorem soundCut_remarks : ∀ w ∈ Lifting.remarks raw, SoundCut 2 w := by
  intro w hw
  obtain ⟨line, hline, rfl⟩ := List.mem_map.mp hw
  obtain ⟨v, hv, rfl⟩ := List.mem_map.mp hline
  have hmask : Sound 2 (Lifting.mask .string v) := (soundCut_strings h v hv).mask (k := .string)
  exact soundCut_remark (by omega) hmask

theorem soundCut_resumes : ∀ w ∈ Lifting.resumes raw, SoundCut 1 w := by
  intro w hw
  obtain ⟨line, hline, rfl⟩ := List.mem_map.mp hw
  obtain ⟨v, hv, rfl⟩ := List.mem_map.mp hline
  have hmask : Sound 1 (Lifting.mask .remark v) := (soundCut_remarks h v hv).mask (k := .remark)
  exact soundCut_resume hmask

/-- Each kind is put aside from a sound text and leaves sound texts. -/
theorem soundCut_lift (k : Kind) : SoundCut (k.turn + 1) ((liftCut raw).get k) := by
  have hmarkup : SoundCut 5 (Lifting.markup raw) := soundCut_markup (sound_fenceScripts h)
  have hstring : SoundCut 3 (Weave.unlines (Lifting.strings raw)) := .unlines (soundCut_strings h)
  have hremark : SoundCut 2 (Weave.unlines (Lifting.remarks raw)) := .unlines (soundCut_remarks h)
  have hresume : SoundCut 1 (Weave.unlines (Lifting.resumes raw)) := .unlines (soundCut_resumes h)
  cases k with
  | markup => exact hmarkup
  | delimiter => exact soundCut_delimiter (hmarkup.mask (k := .markup))
  | string => rwa [liftCut_string]
  | remark => rwa [liftCut_remark]
  | resume => rwa [liftCut_resume]

end

theorem Weave.hits_unlines (ws : List Weave) :
    (Weave.unlines ws).hits = ws.flatMap Weave.hits := by
  induction ws with
  | nil => rfl
  | cons w ws ih => rw [unlines, hits_append, hits_push, ih, List.flatMap_cons]

/-- What is put aside is what the cut takes out, the error phrases in their one spelling. -/
theorem shelves_eq (raw : Text) (k : Kind) :
    (Lifting.result raw).shelves.get k =
      if k = .resume then ((liftCut raw).get k).hits.map fun _ => resumePhrase
      else ((liftCut raw).get k).hits := by
  cases k with
  | resume =>
    simp only [Lifting.result, resumeLiterals, literalsOf, liftCut, PerKind.get,
      Weave.hits_unlines, if_true]
  | remark =>
    simp only [Lifting.result, literalsOf, liftCut, PerKind.get, Weave.hits_unlines, reduceCtorEq,
      if_false]
  | string =>
    simp only [Lifting.result, literalsOf, liftCut, PerKind.get, Weave.hits_unlines, reduceCtorEq,
      if_false]
  | delimiter => rfl
  | markup => rfl

/-- A string is put aside with its quotes. -/
theorem string_of_hit {raw l : Text} (hl : l ∈ ((liftCut raw).get .string).hits) :
    ∃ body, l = '"' :: (body ++ ['"']) := by
  rw [liftCut_string, Weave.hits_unlines] at hl
  obtain ⟨w, hw, hl⟩ := List.mem_flatMap.mp hl
  obtain ⟨line, _, rfl⟩ := List.mem_map.mp hw
  rw [cutStrings_eq, Weave.hits_append] at hl
  obtain ⟨body, hbody, _⟩ := hit_string (by simpa [Weave.hits] using hl)
  exact ⟨body, hbody⟩

/-- A comment is put aside from its first character on. -/
theorem startsRemark_of_hit {raw l : Text} (hl : l ∈ ((liftCut raw).get .remark).hits) :
    StartsRemark l := by
  rw [liftCut_remark, Weave.hits_unlines] at hl
  obtain ⟨w, hw, hl⟩ := List.mem_flatMap.mp hl
  obtain ⟨line, _, rfl⟩ := List.mem_map.mp hw
  rcases cutRemark_eq line with ⟨he, _⟩ | ⟨he, hstart⟩
  · simp [he, Weave.hits] at hl
  · obtain rfl : l = (splitRemark line).2 := by simpa [he, Weave.hits] using hl
    exact hstart

/-- No token reaches into what is put aside, host markup apart. -/
theorem clean_hits {raw : Text} {k : Kind} (hk : k ≠ .markup) {l : Text}
    (hl : l ∈ ((liftCut raw).get k).hits) (z : Text) : Sound.Clean (k.turn + 1) (l ++ z) := by
  cases k with
  | markup => exact absurd rfl hk
  | delimiter =>
    rcases hit_delimiter hl with rfl | rfl
    · exact Sound.clean_cons (by decide) (by decide)
    · exact Sound.clean_cons (by decide) (by decide)
  | string =>
    obtain ⟨body, rfl⟩ := string_of_hit hl
    exact Sound.clean_cons (by decide) (by decide)
  | remark => exact (startsRemark_of_hit hl).clean (by omega) z
  | resume =>
    rw [liftCut_resume, Weave.hits_unlines] at hl
    obtain ⟨w, hw, hl⟩ := List.mem_flatMap.mp hl
    obtain ⟨line, _, rfl⟩ := List.mem_map.mp hw
    exact (hit_resume hl).2 _ z

end VbTidy
