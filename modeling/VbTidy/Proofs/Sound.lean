import VbTidy.Proofs.Cut
import VbTidy.Script

/-
Texts whose NUL characters all belong to whole tokens. The marks are the kinds of literals and the
boundary of a fence, and each has its turn: the place in the order of putting back, the boundary
last. `Sound n` says that a text consists of whole tokens of marks from turn `n` on and of other
characters. A sound text can be taken apart wherever no token reaches across (`Sound.split`), and
what stands after a sound text is sound (`Sound.cancel`).

The cut of a sound text at the tokens of a kind finds those tokens, unless the name of the kind
happens to stand between two tokens: then the end of the one, the name and the start of the other
look like a token. `Stray` is that case, and it is the only one (`cut_sound`,
`not_cut_sound_of_stray`).
-/
namespace VbTidy

/-- What a token stands for. -/
inductive Mark where
  | kind (k : Kind)
  /-- The boundary of a fence. -/
  | fence
deriving Repr, DecidableEq

namespace Mark

/-- The name that stands in the token. -/
def name : Mark → Text
  | kind k => k.name
  | fence => "clientscript".toList

/-- The token of a mark. -/
def token (m : Mark) : Text :=
  tokenOf m.name

/-- The place in the order of putting back; fences are taken away after all literals are back. -/
def turn : Mark → Nat
  | kind .resume => 0
  | kind .remark => 1
  | kind .string => 2
  | kind .delimiter => 3
  | kind .markup => 4
  | fence => 5

/-- All marks. -/
def all : List Mark :=
  [kind .resume, kind .remark, kind .string, kind .delimiter, kind .markup, fence]

theorem mem_all (m : Mark) : m ∈ all := by
  cases m with
  | kind k => cases k <;> decide
  | fence => decide

theorem eq_of_turn_eq {m m' : Mark} (h : m.turn = m'.turn) : m = m' := by
  have key : ∀ a ∈ all, ∀ b ∈ all, a.turn = b.turn → a = b := by decide
  exact key m (mem_all m) m' (mem_all m') h

theorem eq_of_name_eq {m m' : Mark} (h : m.name = m'.name) : m = m' := by
  have key : ∀ a ∈ all, ∀ b ∈ all, a.name = b.name → a = b := by decide
  exact key m (mem_all m) m' (mem_all m') h

end Mark

/-- The place of a kind in the order of putting back. -/
def Kind.turn (k : Kind) : Nat :=
  (Mark.kind k).turn

/-- The characters that names consist of. -/
def isNameChar (c : Char) : Bool :=
  'a' ≤ c && c ≤ 'z'

theorem Mark.isNameChar_of_mem {m : Mark} {c : Char} (h : c ∈ m.name) : isNameChar c = true := by
  have key : ∀ a ∈ Mark.all, ∀ c ∈ a.name, isNameChar c = true := by decide
  exact key m (Mark.mem_all m) c h

theorem nul_not_mem_name (m : Mark) : '\x00' ∉ m.name := by
  intro h
  have := Mark.isNameChar_of_mem h
  revert this
  decide

theorem Mark.mem_token {m : Mark} {c : Char} (h : c ∈ m.token) :
    c = '\x00' ∨ isNameChar c = true := by
  simp only [Mark.token, tokenOf, List.mem_append, List.mem_cons, List.not_mem_nil,
    or_false] at h
  rcases h with (rfl | h) | rfl
  · exact .inl rfl
  · exact .inr (Mark.isNameChar_of_mem h)
  · exact .inl rfl

theorem Mark.token_append (m : Mark) (t : Text) :
    m.token ++ t = '\x00' :: (m.name ++ '\x00' :: t) := by
  simp only [Mark.token, tokenOf, List.cons_append, List.append_assoc, List.nil_append]

/-- A text starts with at most one token. -/
theorem token_append_inj {m m' : Mark} {t t' : Text} (h : m.token ++ t = m'.token ++ t') :
    m = m' ∧ t = t' := by
  have hsplit : ∀ (n : Text), '\x00' ∉ n → ∀ s : Text,
      (n ++ '\x00' :: s).takeWhile (· != '\x00') = n ∧
      (n ++ '\x00' :: s).dropWhile (· != '\x00') = '\x00' :: s := by
    intro n hn s
    have hall : ∀ c ∈ n, (c != '\x00') = true := by
      intro c hc
      simp only [bne_iff_ne, ne_eq]
      rintro rfl
      exact hn hc
    refine ⟨?_, ?_⟩
    · rw [List.takeWhile_append_of_pos hall]; simp
    · rw [List.dropWhile_append_of_pos hall]; simp
  simp only [Mark.token, tokenOf, List.cons_append, List.append_assoc, List.nil_append,
    List.cons.injEq, true_and] at h
  have h1 := hsplit m.name (nul_not_mem_name m) t
  have h2 := hsplit m'.name (nul_not_mem_name m') t'
  rw [h] at h1
  refine ⟨Mark.eq_of_name_eq (h1.1.symm.trans h2.1), ?_⟩
  have := h1.2.symm.trans h2.2
  simpa using this

/-- A text of whole tokens of marks from turn `n` on, and of characters other than NUL. -/
inductive Sound (n : Nat) : Text → Prop
  | nil : Sound n []
  | char {c : Char} {t : Text} (hc : c ≠ '\x00') (ht : Sound n t) : Sound n (c :: t)
  | token {m : Mark} {t : Text} (hm : n ≤ m.turn) (ht : Sound n t) : Sound n (m.token ++ t)

namespace Sound

variable {n : Nat}

theorem append {s t : Text} (hs : Sound n s) (ht : Sound n t) : Sound n (s ++ t) := by
  induction hs with
  | nil => exact ht
  | char hc _ ih => exact .char hc ih
  | token hm _ ih =>
    rw [List.append_assoc]
    exact .token hm ih

theorem mono {n' : Nat} (h : n' ≤ n) {t : Text} (ht : Sound n t) : Sound n' t := by
  induction ht with
  | nil => exact .nil
  | char hc _ ih => exact .char hc ih
  | token hm _ ih => exact .token (Nat.le_trans h hm) ih

theorem of_nul_free {t : Text} (h : '\x00' ∉ t) : Sound n t := by
  induction t with
  | nil => exact .nil
  | cons c t ih =>
    rw [List.mem_cons, not_or] at h
    exact .char (Ne.symm h.1) (ih h.2)

theorem mark {m : Mark} (hm : n ≤ m.turn) : Sound n m.token := by
  have h := Sound.token hm (Sound.nil (n := n))
  rwa [List.append_nil] at h

theorem tail {c : Char} {t : Text} (hc : c ≠ '\x00') (h : Sound n (c :: t)) : Sound n t := by
  generalize hu : c :: t = u at h
  cases h with
  | nil => cases hu
  | char _ ht =>
    obtain ⟨_, rfl⟩ := List.cons.inj hu
    exact ht
  | token _ _ =>
    simp only [Mark.token, tokenOf, List.cons_append, List.cons.injEq] at hu
    exact absurd hu.1 hc

theorem after_token {m : Mark} {t : Text} (h : Sound n (m.token ++ t)) :
    n ≤ m.turn ∧ Sound n t := by
  generalize hu : m.token ++ t = u at h
  cases h with
  | nil => simp [Mark.token, tokenOf] at hu
  | char hc _ =>
    simp only [Mark.token, tokenOf, List.cons_append, List.cons.injEq] at hu
    exact absurd hu.1.symm hc
  | token hm ht =>
    obtain ⟨rfl, rfl⟩ := token_append_inj hu
    exact ⟨hm, ht⟩

/-- What stands after a sound text is sound. -/
theorem cancel {n' : Nat} {s t : Text} (hs : Sound n' s) (h : Sound n (s ++ t)) : Sound n t := by
  induction hs with
  | nil => exact h
  | char hc _ ih => exact ih (tail hc h)
  | token _ _ ih =>
    rw [List.append_assoc] at h
    exact ih (after_token h).2

/-- No token reaches from the front into this text. -/
def Clean (n : Nat) (z : Text) : Prop :=
  ∀ m : Mark, n ≤ m.turn → ∀ v, v <:+ m.token → v <+: z → v = [] ∨ v = m.token

/-- A sound text can be taken apart where no token reaches across. -/
theorem split {x z : Text} (hz : Clean n z) (h : Sound n (x ++ z)) : Sound n x ∧ Sound n z := by
  generalize hu : x ++ z = u at h
  induction h generalizing x with
  | nil =>
    obtain ⟨rfl, rfl⟩ := List.append_eq_nil_iff.mp hu
    exact ⟨.nil, .nil⟩
  | @char c t hc ht ih =>
    cases x with
    | nil =>
      have hz' : z = c :: t := hu
      exact ⟨.nil, hz' ▸ Sound.char hc ht⟩
    | cons d x =>
      obtain ⟨rfl, hxt⟩ := List.cons.inj hu
      obtain ⟨hx, hz⟩ := ih hxt
      exact ⟨.char hc hx, hz⟩
  | @token m t hm ht ih =>
    rcases List.append_eq_append_iff.mp hu with ⟨v, hv, hzv⟩ | ⟨y, hy, hty⟩
    · have hvs : v <:+ m.token := ⟨x, hv.symm⟩
      have hvp : v <+: z := ⟨t, hzv.symm⟩
      rcases hz m hm v hvs hvp with rfl | rfl
      · rw [List.append_nil] at hv
        refine ⟨?_, by simpa [hzv] using ht⟩
        rw [← hv]
        exact mark hm
      · have hx : x = [] := by simpa using hv
        exact ⟨hx ▸ Sound.nil, hzv ▸ Sound.token hm ht⟩
    · obtain ⟨hx, hz⟩ := ih hty.symm
      exact ⟨hy ▸ Sound.token hm hx, hz⟩

/-- No token reaches into a text that starts with a character of no token. -/
theorem clean_cons {c : Char} {t : Text} (hc : c ≠ '\x00') (hn : isNameChar c = false) :
    Clean n (c :: t) := by
  intro m _ v hv hp
  cases v with
  | nil => exact .inl rfl
  | cons d v =>
    obtain ⟨u, hu⟩ := hp
    obtain ⟨rfl, _⟩ := List.cons.inj hu
    have hmem : d ∈ m.token := hv.subset List.mem_cons_self
    rcases Mark.mem_token hmem with h | h
    · exact absurd h hc
    · rw [hn] at h
      cases h

theorem clean_nil : Clean n [] := by
  intro m _ v _ hp
  exact .inl (List.prefix_nil.mp hp)

/-- No token reaches into a text whose first two characters stand in no token. -/
theorem clean_pair {a b : Char} {t : Text} (ha : a ≠ '\x00')
    (h : ∀ m ∈ Mark.all, n ≤ m.turn → ∀ i < m.token.length, (m.token.drop i).take 2 ≠ [a, b]) :
    Clean n (a :: b :: t) := by
  intro m hm v hv hp
  match v, hp with
  | [], _ => exact .inl rfl
  | [c], ⟨u, hu⟩ =>
    obtain ⟨rfl, _⟩ := List.cons.inj hu
    obtain ⟨y, hy⟩ := hv
    have hlast := congrArg List.getLast? hy
    simp only [Mark.token, tokenOf, List.getLast?_append, List.getLast?_singleton,
      Option.some_or, Option.some.injEq] at hlast
    exact absurd hlast ha
  | c :: d :: v, ⟨u, hu⟩ =>
    simp only [List.cons_append, List.cons.injEq] at hu
    obtain ⟨rfl, rfl, _⟩ := hu
    have hlen : (c :: d :: v).length ≤ m.token.length := hv.length_le
    have hdrop : c :: d :: v = m.token.drop (m.token.length - (c :: d :: v).length) :=
      List.suffix_iff_eq_drop.mp hv
    refine absurd ?_ (h m (Mark.mem_all m) hm (m.token.length - (c :: d :: v).length) ?_)
    · rw [← hdrop]
      rfl
    · simp only [List.length_cons] at hlen ⊢
      omega

end Sound

/-! ## Stray tokens -/

/-- The name of a kind between two tokens, the first of another kind, and neither put back before
this kind: what looks like a token of the kind, and is none. -/
def Stray (k : Kind) (t : Text) : Prop :=
  ∃ (x : Text) (m m' : Mark) (y : Text),
    t = x ++ m.token ++ k.name ++ m'.token ++ y ∧ Sound 0 x ∧ Sound 0 y ∧ m ≠ .kind k ∧
    k.turn ≤ m.turn ∧ k.turn ≤ m'.turn

/-- A text cut at the tokens of a kind. -/
def cutTokens (k : Kind) (t : Text) : Weave :=
  (Pattern.literal k.token).weave t

theorem Kind.token_ne_nil (k : Kind) : k.token ≠ [] := by
  simp [Kind.token, tokenOf]

theorem Kind.token_eq_cons (k : Kind) : k.token = '\x00' :: (k.name ++ ['\x00']) := rfl

theorem cutTokens_nil (k : Kind) : cutTokens k [] = ⟨[], []⟩ :=
  Pattern.weave_nil k.token_ne_nil

theorem cutTokens_token (k : Kind) (t : Text) :
    cutTokens k (k.token ++ t) = (cutTokens k t).pushHit k.token :=
  Pattern.weave_hit k.token_ne_nil t

theorem cutTokens_char (k : Kind) {c : Char} (hc : c ≠ '\x00') (t : Text) :
    cutTokens k (c :: t) = (cutTokens k t).push c := by
  apply Pattern.weave_miss
  rintro ⟨u, hu⟩
  rw [Kind.token_eq_cons, List.cons_append, List.cons.injEq] at hu
  exact hc hu.1.symm

theorem cutTokens_nul_free (k : Kind) {s : Text} (hs : '\x00' ∉ s) (t : Text) :
    cutTokens k (s ++ t) = (cutTokens k t).prepend s := by
  induction s with
  | nil => simp [Weave.prepend]
  | cons c s ih =>
    rw [List.mem_cons, not_or] at hs
    rw [List.cons_append, cutTokens_char k (Ne.symm hs.1), ih hs.2]
    simp [Weave.push, Weave.prepend]

theorem cutTokens_free (k : Kind) {t : Text} (h : '\x00' ∉ t) : cutTokens k t = ⟨t, []⟩ := by
  have := cutTokens_nul_free k h []
  rwa [List.append_nil, cutTokens_nil, Weave.prepend, List.append_nil] at this

/-- The start of a token of another mark is no match. -/
theorem cutTokens_open {k : Kind} {m : Mark} (hm : m ≠ .kind k) (t : Text) :
    cutTokens k (m.token ++ t) = (cutTokens k ('\x00' :: t)).prepend ('\x00' :: m.name) := by
  have hmiss : ¬ k.token <+: '\x00' :: (m.name ++ '\x00' :: t) := by
    rintro ⟨u, hu⟩
    have h : (Mark.kind k).token ++ u = m.token ++ t := hu.trans (Mark.token_append m t).symm
    exact hm (token_append_inj h).1.symm
  have htok : m.token ++ t = '\x00' :: (m.name ++ '\x00' :: t) := Mark.token_append m t
  have hstep : cutTokens k ('\x00' :: (m.name ++ '\x00' :: t)) =
      (cutTokens k (m.name ++ '\x00' :: t)).push '\x00' := Pattern.weave_miss hmiss
  rw [htok, hstep, cutTokens_nul_free k (nul_not_mem_name m)]
  simp [Weave.push, Weave.prepend]

/-- The name of a kind and a NUL at the start of a text: the end of the token in front, the name
and that NUL are a match. -/
def NameNext (k : Kind) (t : Text) : Prop :=
  (k.name ++ ['\x00']) <+: t

/-- A token of another mark is passed over, unless the name of the kind follows it. -/
theorem cutTokens_other {k : Kind} {m : Mark} (hm : m ≠ .kind k) {t : Text}
    (ht : ¬ NameNext k t) : cutTokens k (m.token ++ t) = (cutTokens k t).prepend m.token := by
  have hmiss : ¬ k.token <+: '\x00' :: t := by
    rw [Kind.token_eq_cons, List.cons_prefix_cons]
    exact fun h => ht h.2
  have hstep : cutTokens k ('\x00' :: t) = (cutTokens k t).push '\x00' :=
    Pattern.weave_miss hmiss
  rw [cutTokens_open hm, hstep]
  simp [Weave.push, Weave.prepend, Mark.token, tokenOf]

theorem cutTokens_stray {k : Kind} {m : Mark} (hm : m ≠ .kind k) {t : Text}
    (ht : NameNext k t) : (cutTokens k (m.token ++ t)).head = '\x00' :: m.name := by
  obtain ⟨u, rfl⟩ := ht
  have htok : '\x00' :: (k.name ++ ['\x00'] ++ u) = k.token ++ u := by
    simp [Kind.token, tokenOf]
  rw [cutTokens_open hm, htok, cutTokens_token]
  simp [Weave.prepend, Weave.pushHit]

/-- In a sound text the name of a kind and a NUL are the name and a token. -/
theorem Sound.nameNext {n : Nat} {k : Kind} {t : Text} (h : Sound n t) (ht : NameNext k t) :
    ∃ (m : Mark) (y : Text), t = k.name ++ m.token ++ y ∧ n ≤ m.turn ∧ Sound n y := by
  obtain ⟨u, rfl⟩ := ht
  rw [List.append_assoc] at h
  have hrest := Sound.cancel (Sound.of_nul_free (n := n) (nul_not_mem_name (.kind k))) h
  generalize hv : ['\x00'] ++ u = v at hrest
  cases hrest with
  | nil => cases hv
  | char hc _ =>
    simp only [List.cons_append, List.nil_append, List.cons.injEq] at hv
    exact absurd hv.1.symm hc
  | @token m y hm hy =>
    refine ⟨m, y, ?_, hm, hy⟩
    rw [List.append_assoc, hv, List.append_assoc]

theorem not_sound_open {n : Nat} (m : Mark) (z : Text) (hz : '\x00' ∉ z) :
    ¬ Sound n ('\x00' :: (m.name ++ z)) := by
  intro h
  generalize hv : '\x00' :: (m.name ++ z) = v at h
  cases h with
  | nil => cases hv
  | char hc _ =>
    rw [List.cons.injEq] at hv
    exact hc hv.1.symm
  | @token m' t _ _ =>
    simp only [Mark.token, tokenOf, List.cons_append, List.append_assoc, List.cons.injEq,
      true_and, List.nil_append] at hv
    have : '\x00' ∈ m.name ++ z := by rw [hv]; simp
    rcases List.mem_append.mp this with h | h
    · exact nul_not_mem_name m h
    · exact hz h

theorem Stray.cons {k : Kind} {c : Char} {t : Text} (hc : c ≠ '\x00') (h : Stray k t) :
    Stray k (c :: t) := by
  obtain ⟨x, m, m', y, rfl, hx, hy, hrest⟩ := h
  exact ⟨c :: x, m, m', y, by simp, .char hc hx, hy, hrest⟩

theorem Stray.token_append {k : Kind} (m : Mark) {t : Text} (h : Stray k t) :
    Stray k (m.token ++ t) := by
  obtain ⟨x, m₁, m₂, y, rfl, hx, hy, hrest⟩ := h
  exact ⟨m.token ++ x, m₁, m₂, y, by simp, .token (Nat.zero_le _) hx, hy, hrest⟩

/-- Without strays the cut of a sound text at the tokens of a kind leaves sound texts. -/
theorem cut_sound {k : Kind} {t : Text} (ht : Sound k.turn t) (hs : ¬ Stray k t) :
    ∀ g ∈ (cutTokens k t).gaps, Sound (k.turn + 1) g := by
  induction ht with
  | nil =>
    intro g hg
    rw [cutTokens_nil] at hg
    obtain rfl : g = [] := by simpa [Weave.gaps] using hg
    exact .nil
  | @char c t hc ht ih =>
    have ih := ih fun h => hs (h.cons hc)
    rw [cutTokens_char k hc]
    intro g hg
    simp only [Weave.gaps, Weave.push, List.mem_cons] at hg
    rcases hg with rfl | hg
    · exact .char hc (ih _ (Weave.head_mem_gaps _))
    · exact ih g (by simp [Weave.gaps, hg])
  | @token m t hm ht ih =>
    have ih := ih fun h => hs (h.token_append m)
    by_cases hmk : m = .kind k
    · subst hmk
      have htok : (Mark.kind k).token = k.token := rfl
      rw [htok, cutTokens_token]
      intro g hg
      simp only [Weave.gaps, Weave.pushHit, List.map_cons, List.mem_cons] at hg
      rcases hg with rfl | hg
      · exact .nil
      · exact ih g (by simpa [Weave.gaps] using hg)
    · -- a name right after the token would be a stray
      have hnext : ¬ NameNext k t := by
        intro hn
        obtain ⟨m', y, rfl, hm', hy⟩ := ht.nameNext hn
        exact hs ⟨[], m, m', y, by simp, .nil, hy.mono (Nat.zero_le _), hmk, hm, hm'⟩
      have hturn : k.turn + 1 ≤ m.turn := by
        have hne : m.turn ≠ k.turn := fun h => hmk (Mark.eq_of_turn_eq h)
        omega
      rw [cutTokens_other hmk hnext]
      intro g hg
      simp only [Weave.gaps, Weave.prepend, List.mem_cons] at hg
      rcases hg with rfl | hg
      · exact .token hturn (ih _ (Weave.head_mem_gaps _))
      · exact ih g (by simp [Weave.gaps, hg])

/-- A stray leaves a text behind that is not sound. -/
theorem not_cut_sound_of_stray {k : Kind} {n : Nat} {t : Text} (h : Stray k t) :
    ¬ ∀ g ∈ (cutTokens k t).gaps, Sound n g := by
  obtain ⟨x, m, m', y, rfl, hx, _, hm, _⟩ := h
  have hnext : ∀ z, NameNext k (k.name ++ m'.token ++ z) := by
    intro z
    simp [NameNext, Mark.token, tokenOf]
  have hopen : ∀ m : Mark, ¬ Sound n ('\x00' :: m.name) := by
    intro m h
    exact not_sound_open m [] (by simp) (by simpa using h)
  simp only [List.append_assoc]
  induction hx with
  | nil =>
    intro hg
    refine hopen m ?_
    have := hg _ (Weave.head_mem_gaps _)
    rwa [List.nil_append, cutTokens_stray hm (by simpa using hnext y)] at this
  | @char c x hc hx ih =>
    intro hg
    apply ih
    intro g hmem
    rw [List.cons_append, cutTokens_char k hc] at hg
    simp only [Weave.gaps, Weave.push, List.mem_cons] at hg hmem
    rcases hmem with rfl | hmem
    · exact (hg _ (.inl rfl)).tail hc
    · exact hg g (.inr hmem)
  | @token m₀ x _ hx ih =>
    intro hg
    rw [List.append_assoc] at hg
    by_cases hmk : m₀ = .kind k
    · subst hmk
      have htok : (Mark.kind k).token = k.token := rfl
      rw [htok, cutTokens_token] at hg
      apply ih
      intro g hmem
      exact hg g (List.mem_cons_of_mem _ hmem)
    · by_cases hn : NameNext k (x ++ (m.token ++ (k.name ++ (m'.token ++ y))))
      · refine hopen m₀ ?_
        have := hg _ (Weave.head_mem_gaps _)
        rwa [cutTokens_stray hmk hn] at this
      · rw [cutTokens_other hmk hn] at hg
        apply ih
        intro g hmem
        simp only [Weave.gaps, Weave.prepend, List.mem_cons] at hg hmem
        rcases hmem with rfl | hmem
        · exact (hg _ (.inl rfl)).after_token.2
        · exact hg g (.inr hmem)

end VbTidy
