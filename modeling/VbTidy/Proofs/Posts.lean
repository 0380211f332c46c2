import Mathlib.Algebra.GroupWithZero.Nat
import VbTidy.Proofs.Printed
import VbTidy.Proofs.Whole

/-
Boundary tokens on the way back. A post is a boundary token with a text before it on which no name
goes on, and with an opening delimiter behind it. No token of a kind reaches over a post, so what is
cut at tokens is cut on either side of it on its own (`cutTokens_post`). Putting a kind back leaves
the posts of the text and adds those of the literals, whatever else stands in the text
(`Posts.fill`). A text with posts has two NUL characters for each of them; if it has no others, the
pieces that it is cut into have whole opening fences (`Posts.opened_gaps`).
-/
namespace VbTidy

/-! ## Posts -/

/-- No name goes on behind the text: it ends with a character of no name, or with a token, or what
is left of one, of a kind that is put back after comments. -/
def Ends (x : Text) : Prop :=
  (∃ u c, x = u ++ [c] ∧ c ≠ '\x00' ∧ isNameChar c = false) ∨
    ∃ j : Kind, 2 ≤ j.turn ∧ (j.name ++ ['\x00']) <:+ x

/-- A text with a number of posts: boundary tokens, each with a text that ends so before it and an
opening delimiter behind it. What the text is between them is left open. -/
inductive Posts : Nat → Text → Prop
  | plain (t : Text) : Posts 0 t
  | post {n : Nat} {x y : Text} (hx : Ends x) (hy : ['<', '%'] <+: y) (h : Posts n y) :
      Posts (n + 1) (x ++ (Mark.fence.token ++ y))

theorem Ends.append_left {x : Text} (s : Text) (h : Ends x) : Ends (s ++ x) := by
  rcases h with ⟨u, c, rfl, hc⟩ | ⟨j, hj, hsuffix⟩
  · exact .inl ⟨s ++ u, c, by rw [List.append_assoc], hc⟩
  · exact .inr ⟨j, hj, hsuffix.trans (List.suffix_append s x)⟩

/-- What a text ends with stands behind each opening delimiter in it. -/
theorem Ends.of_opening {s y : Text} (h : Ends (s ++ y)) (hy : ['<', '%'] <+: y) : Ends y := by
  rcases h with ⟨u, c, heq, hc⟩ | ⟨j, hj, hsuffix⟩
  · rcases List.eq_nil_or_concat' y with rfl | ⟨v, d, rfl⟩
    · simp at hy
    · rw [← List.append_assoc] at heq
      obtain ⟨_, rfl⟩ := List.append_singleton_inj.mp heq
      exact .inl ⟨v, d, rfl, hc⟩
  · rcases List.suffix_or_suffix_of_suffix hsuffix (List.suffix_append s y) with hin | hin
    · exact .inr ⟨j, hj, hin⟩
    · -- a name has no bracket
      have hmem : '<' ∈ j.name ++ ['\x00'] := hin.subset (hy.subset (by simp))
      cases j <;> exact absurd hmem (by decide)

theorem Ends.not_name {x : Text} (h : Ends x) (k : Kind) : ¬ ('\x00' :: k.name) <:+ x := by
  rintro ⟨v, rfl⟩
  obtain ⟨n, d, hn, hd⟩ : ∃ n d, k.name = n ++ [d] ∧ isNameChar d = true := by
    rcases List.eq_nil_or_concat' k.name with hnil | ⟨n, d, hn⟩
    · cases k <;> cases hnil
    · have hmem : d ∈ (Mark.kind k).name := by
        show d ∈ k.name
        rw [hn]
        simp
      exact ⟨n, d, hn, Mark.isNameChar_of_mem hmem⟩
  have hlast : v ++ '\x00' :: k.name = (v ++ '\x00' :: n) ++ [d] := by rw [hn]; simp
  rw [hlast] at h
  rcases h with ⟨u, c, heq, _, hc⟩ | ⟨j, _, u, hu⟩
  · obtain ⟨_, rfl⟩ := List.append_singleton_inj.mp heq
    rw [hd] at hc
    cases hc
  · rw [← List.append_assoc] at hu
    obtain ⟨_, rfl⟩ := List.append_singleton_inj.mp hu
    exact absurd hd (by decide)

namespace Posts
variable {m n : Nat} {s t x y : Text}

theorem prepend (s : Text) (h : Posts n t) : Posts n (s ++ t) := by
  cases h with
  | plain t => exact .plain _
  | post hx hy h =>
    rw [← List.append_assoc]
    exact .post (hx.append_left s) hy h

theorem append (hs : Posts m s) (ht : Posts n t) : Posts (m + n) (s ++ t) := by
  induction hs with
  | plain s =>
    rw [Nat.zero_add]
    exact ht.prepend s
  | post hx hy _ ih =>
    rw [List.append_assoc, List.append_assoc, Nat.add_right_comm]
    exact .post hx (hy.trans (List.prefix_append _ t)) ih

/-- Two texts with a post between them. -/
theorem join (hs : Posts m s) (hends : Ends s) (hy : ['<', '%'] <+: y) (h : Posts n y) :
    Posts (m + n + 1) (s ++ (Mark.fence.token ++ y)) := by
  induction hs with
  | plain s =>
    rw [Nat.zero_add]
    exact .post hends hy h
  | @post m x z hx hz _ ih =>
    have hz' : Ends z := by
      rw [← List.append_assoc] at hends
      exact hends.of_opening hz
    have hmore : ['<', '%'] <+: z ++ (Mark.fence.token ++ y) := hz.trans (List.prefix_append _ _)
    rw [List.append_assoc, List.append_assoc, show m + 1 + n + 1 = m + n + 1 + 1 by omega]
    exact .post hx hmore (ih hz')

end Posts

/-! ## Cuts between posts -/

/-- No token of a kind reaches over a post. -/
theorem cutTokens_post {k : Kind} {x y : Text} (hx : Ends x) (hy : ['<', '%'] <+: y) :
    cutTokens k (x ++ (Mark.fence.token ++ y)) =
      (cutTokens k x).append ((cutTokens k y).prepend Mark.fence.token) := by
  have hapart : Pattern.Apart k.token x (Mark.fence.token ++ y) := by
    intro s hs hp _
    rcases Pattern.prefix_or_of_append hp with hin | ⟨d, p, hd, hz⟩
    · exact hin
    · -- only the NUL behind the name could be that of the post
      obtain rfl : d = '\x00' := by
        rw [Mark.token_append] at hz
        exact (Option.some.inj hz).symm
      cases s with
      | nil => exact absurd rfl ‹([] : Text) ≠ []›
      | cons c s =>
        rw [Kind.token_eq_cons, List.cons_append] at hd
        obtain ⟨rfl, hname⟩ := List.cons.inj hd
        obtain ⟨rfl, _⟩ := last_unique (nul_not_mem_name (.kind k)) hname
        exact absurd hs (hx.not_name k)
  have hnext : ¬ NameNext k y := by
    rintro ⟨u, hu⟩
    obtain ⟨v, rfl⟩ := hy
    cases k <;> exact absurd (List.cons.inj hu).1 (by decide)
  have hcut : cutTokens k (Mark.fence.token ++ y) = (cutTokens k y).prepend Mark.fence.token :=
    cutTokens_other (by simp) hnext
  rw [← hcut]
  exact Pattern.weave_append k.token_ne_nil hapart

/-- The last piece of a text that is cut stands at its end, whatever is put in place of the
tokens. -/
theorem fillWith_last {k : Kind} {w : Weave} {ls : List Text} (hlen : ls.length = w.rest.length) :
    w.fillWith ls = Lifting.mask k w ∨ ∃ p q g, ∃ l ∈ ls,
      Lifting.mask k w = p ++ (k.token ++ g) ∧ w.fillWith ls = q ++ (l ++ g) := by
  obtain ⟨head, rest⟩ := w
  induction rest generalizing head ls with
  | nil =>
    obtain rfl : ls = [] := List.eq_nil_of_length_eq_zero hlen
    exact .inl (by simp [Lifting.mask, Weave.replace, Weave.fillWith])
  | cons r rest ih =>
    obtain ⟨l, ls, rfl⟩ := List.exists_cons_of_length_pos (l := ls) (by simp at hlen; omega)
    have htok : (Mark.kind k).token = k.token := rfl
    refine .inr ?_
    rw [mask_cons, fillWith_cons, htok]
    rcases ih r.2 (by simpa using hlen) with hsame | ⟨p, q, g, l', hl', hmask, hfill⟩
    · exact ⟨head, head, _, l, List.mem_cons_self, rfl, by rw [hsame]⟩
    · refine ⟨head ++ (k.token ++ p), head ++ (l ++ q), g, l', List.mem_cons_of_mem _ hl', ?_, ?_⟩
      · rw [hmask]
        simp
      · rw [hfill]
        simp

/-- Only a kind that is put back after comments has a name that ends with the name of one. -/
theorem turn_of_name_suffix {j k : Kind} {p : Text} (hj : 2 ≤ j.turn)
    (h : j.name <:+ p ++ '\x00' :: k.name) : 2 ≤ k.turn := by
  rcases List.suffix_or_suffix_of_suffix h (List.suffix_append p _) with hin | hin
  · revert hj hin
    cases j <;> cases k <;> decide
  · exact absurd (hin.subset List.mem_cons_self) (nul_not_mem_name (.kind j))

/-- What stands behind the last token of a kind ends as the text does, unless the text ends with the
token. -/
theorem Ends.behind {k : Kind} {p g : Text} (h : Ends (p ++ (k.token ++ g))) :
    Ends g ∨ g = [] ∧ 2 ≤ k.turn := by
  have htoken : ∀ g, p ++ (k.token ++ g) = (p ++ '\x00' :: k.name) ++ '\x00' :: g := by
    intro g
    simp [Kind.token, tokenOf]
  rcases h with ⟨u, c, heq, hnul, hc⟩ | ⟨j, hj, hsuffix⟩
  · rcases List.eq_nil_or_concat' g with rfl | ⟨g, d, rfl⟩
    · rw [htoken] at heq
      obtain ⟨_, rfl⟩ := List.append_singleton_inj.mp heq
      exact absurd rfl hnul
    · rw [← List.append_assoc, ← List.append_assoc] at heq
      obtain ⟨_, rfl⟩ := List.append_singleton_inj.mp heq
      exact .inl (.inl ⟨g, d, rfl, hnul, hc⟩)
  · have hg : g <:+ p ++ (k.token ++ g) := (List.suffix_append _ _).trans (List.suffix_append _ _)
    rcases List.suffix_or_suffix_of_suffix hsuffix hg with hin | ⟨d, hd⟩
    · exact .inl (.inr ⟨j, hj, hin⟩)
    · rcases List.eq_nil_or_concat' d with rfl | ⟨d, e, rfl⟩
      · exact .inl (.inr ⟨j, hj, hd ▸ List.suffix_refl _⟩)
      · -- the name ends in the text behind the token, so that text is empty
        obtain ⟨v, hv⟩ := hsuffix
        rw [← hd, htoken] at hv
        have hlast : ((v ++ d) ++ [e]) ++ g = ((p ++ '\x00' :: k.name) ++ ['\x00']) ++ g := by
          simpa using hv
        obtain ⟨hvd, rfl⟩ := List.append_singleton_inj.mp (List.append_cancel_right hlast)
        have hd : d ++ '\x00' :: g = j.name ++ ['\x00'] := by simpa using hd
        obtain ⟨rfl, rfl⟩ := last_unique (nul_not_mem_name (.kind j)) hd
        exact .inr ⟨rfl, turn_of_name_suffix hj ⟨v, hvd⟩⟩

theorem Ends.fillWith {k : Kind} {x : Text} (hx : Ends x) {ls : List Text}
    (hlen : ls.length = (cutTokens k x).rest.length) (hls : 2 ≤ k.turn → ∀ l ∈ ls, Ends l) :
    Ends ((cutTokens k x).fillWith ls) := by
  rcases fillWith_last (k := k) hlen with hsame | ⟨p, q, g, l, hl, hmask, hfill⟩
  · rwa [hsame, mask_cutTokens]
  · rw [mask_cutTokens] at hmask
    rw [hfill]
    rw [hmask] at hx
    rcases hx.behind with hg | ⟨rfl, hk⟩
    · exact (hg.append_left l).append_left q
    · rw [List.append_nil]
      exact (hls hk l hl).append_left q

/-! ## Posts put back -/

theorem head_cutTokens_opening {k : Kind} {y : Text} (hy : ['<', '%'] <+: y) :
    ['<', '%'] <+: (cutTokens k y).head := by
  obtain ⟨v, rfl⟩ := hy
  rw [cutTokens_nul_free k (by decide)]
  exact List.prefix_append _ _

theorem opening_fillWith {k : Kind} {y : Text} (hy : ['<', '%'] <+: y) (ls : List Text) :
    ['<', '%'] <+: (cutTokens k y).fillWith ls :=
  (head_cutTokens_opening hy).trans (List.prefix_append _ _)

/-- Pieces of a text and literals with posts. -/
theorem posts_pieces {c : Text → Nat} {w : Weave} {ls : List Text}
    (hlen : ls.length = w.rest.length) (hls : ∀ l ∈ ls, Posts (c l) l) :
    Posts (ls.map c).sum (w.fillWith ls) := by
  obtain ⟨head, rest⟩ := w
  induction rest generalizing head ls with
  | nil =>
    obtain rfl : ls = [] := List.eq_nil_of_length_eq_zero hlen
    exact .plain _
  | cons r rest ih =>
    obtain ⟨l, ls, rfl⟩ := List.exists_cons_of_length_pos (l := ls) (by simp at hlen; omega)
    have hmore := ih (fun l' hl' => hls l' (List.mem_cons_of_mem _ hl')) r.2 (by simpa using hlen)
    rw [fillWith_cons, List.map_cons, List.sum_cons]
    exact ((hls l List.mem_cons_self).append hmore).prepend head

/-- Literals bring their posts with them, and those of the text stay. -/
theorem Posts.fill {k : Kind} {n : Nat} {t : Text} (h : Posts n t) {c : Text → Nat}
    {ls : List Text} (hlen : ls.length = (cutTokens k t).rest.length)
    (hls : ∀ l ∈ ls, Posts (c l) l) (hends : 2 ≤ k.turn → ∀ l ∈ ls, Ends l) :
    Posts (n + (ls.map c).sum) ((cutTokens k t).fillWith ls) := by
  induction h generalizing ls with
  | plain t =>
    rw [Nat.zero_add]
    exact posts_pieces hlen hls
  | @post n x y hx hy _ ih =>
    rw [cutTokens_post hx hy] at hlen ⊢
    rw [Weave.rest_append] at hlen
    -- the literals before the post, and those behind it
    obtain ⟨as, bs, rfl, has⟩ :
        ∃ as bs, ls = as ++ bs ∧ as.length = (cutTokens k x).rest.length :=
      ⟨ls.take (cutTokens k x).rest.length, ls.drop (cutTokens k x).rest.length,
        (List.take_append_drop _ _).symm, by rw [List.length_take]; omega⟩
    have hbs : bs.length = (cutTokens k y).rest.length := by
      have hrest : ((cutTokens k y).prepend Mark.fence.token).rest = (cutTokens k y).rest := rfl
      rw [List.length_append, hrest] at hlen
      omega
    have hx' := hx.fillWith has fun hk l hl => hends hk l (List.mem_append_left _ hl)
    have hbefore : Posts (as.map c).sum ((cutTokens k x).fillWith as) :=
      posts_pieces has fun l hl => hls l (List.mem_append_left _ hl)
    have hbehind := ih hbs (fun l hl => hls l (List.mem_append_right _ hl))
      fun hk l hl => hends hk l (List.mem_append_right _ hl)
    rw [Weave.fillWith_append _ _ _ _ has, fillWith_prepend, List.map_append, List.sum_append]
    have hjoin := hbefore.join hx' (opening_fillWith hy _) hbehind
    rwa [show n + 1 + ((as.map c).sum + (bs.map c).sum) =
      (as.map c).sum + (n + (bs.map c).sum) + 1 by omega]

/-! ## Posts and nothing else -/

/-- A text of opening fences and of characters other than NUL. -/
inductive Opened : Text → Prop
  | nil : Opened []
  | char {c : Char} {t : Text} (hc : c ≠ '\x00') (ht : Opened t) : Opened (c :: t)
  | opening {t : Text} (ht : Opened t) : Opened (openFence ++ t)

namespace Opened
variable {s t : Text}

theorem whole (h : Opened t) : Whole t := by
  induction h with
  | nil => exact .nil
  | char hc _ ih => exact .char hc ih
  | opening _ ih => exact .opening ih

theorem free_append (hs : '\x00' ∉ s) (ht : Opened t) : Opened (s ++ t) :=
  free_append_induction .char hs ht

theorem of_nul_free (h : '\x00' ∉ t) : Opened t := by
  simpa using Opened.nil.free_append h

theorem tail {c : Char} (hc : c ≠ '\x00') (h : Opened (c :: t)) : Opened t := by
  generalize hu : c :: t = u at h
  cases h with
  | nil => cases hu
  | char _ ht =>
    obtain ⟨_, rfl⟩ := List.cons.inj hu
    exact ht
  | opening _ =>
    rw [openFence_append] at hu
    exact absurd (List.cons.inj hu).1 hc

end Opened

theorem Weave.gaps_append (w v : Weave) :
    (w.append v).gaps.flatten = w.gaps.flatten ++ v.gaps.flatten ∧
      ∀ g ∈ (w.append v).gaps, g ∈ w.gaps ∨ g ∈ v.gaps.tail ∨ ∃ l ∈ w.gaps, g = l ++ v.head := by
  obtain ⟨head, rest⟩ := w
  induction rest generalizing head with
  | nil =>
    refine ⟨by simp [append_last, gaps], fun g hg => ?_⟩
    rcases List.mem_cons.mp hg with rfl | hg
    · exact .inr (.inr ⟨head, List.mem_cons_self, rfl⟩)
    · exact .inr (.inl hg)
  | cons r rest ih =>
    obtain ⟨hflat, hmem⟩ := ih r.2
    have hcons : (Weave.append ⟨head, r :: rest⟩ v).gaps =
        head :: (Weave.append ⟨r.2, rest⟩ v).gaps := by
      rw [append_cons]
      rfl
    rw [hcons]
    refine ⟨by rw [List.flatten_cons, hflat]; simp [gaps], ?_⟩
    intro g hg
    rcases List.mem_cons.mp hg with rfl | hg
    · exact .inl List.mem_cons_self
    · rcases hmem g hg with h | h | ⟨l, hl, rfl⟩
      · exact .inl (List.mem_cons_of_mem _ h)
      · exact .inr (.inl h)
      · exact .inr (.inr ⟨l, List.mem_cons_of_mem _ hl, rfl⟩)

/-- A text that is cut has two NUL characters for each post in its pieces. If it has no others, the
pieces are texts of opening fences. -/
theorem Posts.opened_gaps {k : Kind} {n : Nat} {t : Text} (h : Posts n t) :
    2 * n ≤ nuls (cutTokens k t).gaps.flatten ∧
      (nuls (cutTokens k t).gaps.flatten = 2 * n → ∀ g ∈ (cutTokens k t).gaps, Opened g) := by
  have hfree : ∀ {gs : List Text}, nuls gs.flatten = 0 → ∀ g ∈ gs, '\x00' ∉ g := by
    intro gs hgs g hg hmem
    exact List.count_eq_zero.mp hgs (List.mem_flatten.mpr ⟨g, hg, hmem⟩)
  induction h with
  | plain t =>
    refine ⟨Nat.zero_le _, fun hn g hg => ?_⟩
    exact .of_nul_free (hfree (by simpa using hn) g hg)
  | @post n x y hx hy _ ih =>
    obtain ⟨hle, hopened⟩ := ih
    rw [cutTokens_post hx hy]
    obtain ⟨hflat, hmem⟩ :=
      (cutTokens k x).gaps_append ((cutTokens k y).prepend Mark.fence.token)
    have hgaps : ((cutTokens k y).prepend Mark.fence.token).gaps.flatten =
        Mark.fence.token ++ (cutTokens k y).gaps.flatten := by
      simp [Weave.gaps, Weave.prepend]
    have htoken : nuls Mark.fence.token = 2 := by decide
    have hnuls : nuls ((cutTokens k x).append ((cutTokens k y).prepend Mark.fence.token)).gaps.flatten
        = nuls (cutTokens k x).gaps.flatten + (2 + nuls (cutTokens k y).gaps.flatten) := by
      rw [hflat, hgaps, nuls, List.count_append, List.count_append, ← nuls, ← nuls, ← nuls, htoken]
    refine ⟨by omega, fun hn g hg => ?_⟩
    have hleft : ∀ g ∈ (cutTokens k x).gaps, '\x00' ∉ g := hfree (by omega)
    have hright := hopened (by omega)
    rcases hmem g hg with h | h | ⟨l, hl, rfl⟩
    · exact .of_nul_free (hleft g h)
    · exact hright g (List.mem_of_mem_tail h)
    · -- the piece with the post
      have hhead := hright _ (Weave.head_mem_gaps _)
      obtain ⟨v, hv⟩ := head_cutTokens_opening (k := k) hy
      rw [← hv] at hhead
      have hv' : Opened v := (hhead.tail (by decide)).tail (by decide)
      have hpiece : ((cutTokens k y).prepend Mark.fence.token).head = openFence ++ v := by
        rw [Weave.prepend, ← hv, ← List.append_assoc]
        rfl
      rw [hpiece]
      exact (Opened.opening hv').free_append (hleft l hl)

end VbTidy
