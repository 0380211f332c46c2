import VbTidy.Proofs.Shape

/-
Two texts of one shape with the literals put back. A text is hard if it is no part of a name of a
mark, so that where it stands no name can arise. All literals but host markup start hard, and all
but comments end so; behind the token of a comment there is a name or something hard (`Sealed`).
Hence literals come back at the same places in both texts, and leave texts of one shape
(`Level.fill`), or fail in both for the same reason (`sameFill`).
-/
namespace VbTidy

/-! ## Two outcomes -/

/-- Two runs fail for the same reason, or both succeed with results that are related. -/
inductive SameOutcome {α β : Type} (R : α → β → Prop) : Except Fault α → Except Fault β → Prop
  | error (e : Fault) : SameOutcome R (.error e) (.error e)
  | ok {a : α} {b : β} (h : R a b) : SameOutcome R (.ok a) (.ok b)

namespace SameOutcome
variable {α β γ δ : Type} {R : α → β → Prop} {S : γ → δ → Prop}

theorem cases {x : Except Fault α} {y : Except Fault β} (h : SameOutcome R x y) :
    (∃ e, x = .error e ∧ y = .error e) ∨ ∃ a b, x = .ok a ∧ y = .ok b ∧ R a b := by
  cases h with
  | error e => exact .inl ⟨e, rfl, rfl⟩
  | ok h => exact .inr ⟨_, _, rfl, rfl, h⟩

theorem bind {x : Except Fault α} {y : Except Fault β} {f : α → Except Fault γ}
    {g : β → Except Fault δ} (h : SameOutcome R x y)
    (hfg : ∀ a b, R a b → SameOutcome S (f a) (g b)) : SameOutcome S (x >>= f) (y >>= g) := by
  cases h with
  | error e => exact .error e
  | ok h => exact hfg _ _ h

theorem map {x : Except Fault α} {y : Except Fault β} {f : α → γ} {g : β → δ}
    (h : SameOutcome R x y) (hfg : ∀ a b, R a b → S (f a) (g b)) :
    SameOutcome S (x.map f) (y.map g) := by
  cases h with
  | error e => exact .error e
  | ok h => exact .ok (hfg _ _ h)

end SameOutcome

/-! ## Hard texts -/

/-- No name of a mark has the text in it. -/
def Hard (x : Text) : Prop :=
  ∀ m : Mark, ¬ x <:+: m.name

theorem hard_of_mem {x : Text} {c : Char} (hc : c ∈ x) (hn : isNameChar c = false) : Hard x := by
  intro m h
  rw [Mark.isNameChar_of_mem (h.subset hc)] at hn
  cases hn

namespace Hard
variable {x y : Text}

theorem mono (h : Hard x) (hxy : x <:+: y) : Hard y :=
  fun m hy => h m (hxy.trans hy)

theorem append_left (h : Hard x) (y : Text) : Hard (y ++ x) :=
  h.mono (List.suffix_append y x).isInfix

theorem append_right (h : Hard x) (y : Text) : Hard (x ++ y) :=
  h.mono (List.prefix_append x y).isInfix

theorem ofName? (h : Hard x) : Mark.ofName? x = none := by
  cases hm : Mark.ofName? x with
  | none => rfl
  | some m =>
    have hname := ofName?_eq_some hm
    exact absurd (hname ▸ List.infix_rfl) (h m)

theorem ne_nil (h : Hard x) : x ≠ [] := by
  rintro rfl
  exact h .fence List.nil_infix

/-- The start of a text that is hard stays hard whatever follows. -/
theorem firstPart_append (h : Hard (firstPart x)) (y : Text) : Hard (firstPart (x ++ y)) := by
  by_cases hx : '\x00' ∈ x
  · rwa [firstPart_append_nul hx]
  · rw [firstPart_free hx] at h
    rw [VbTidy.firstPart_append hx]
    exact h.append_right _

/-- Nothing hard is in a token. -/
theorem not_infix_token (h : Hard x) (hx : '\x00' ∉ x) (m : Mark) : ¬ x <:+: m.token := by
  rintro ⟨a, b, hab⟩
  apply h m
  -- Neither NUL of the token is in the text.
  have hnil : x ≠ [] := h.ne_nil
  cases a with
  | nil =>
    obtain ⟨c, x, rfl⟩ := List.exists_cons_of_ne_nil hnil
    obtain rfl : c = '\x00' := (List.cons.inj hab).1
    exact absurd List.mem_cons_self hx
  | cons c a =>
    have hname : a ++ x ++ b = m.name ++ ['\x00'] := (List.cons.inj hab).2
    rcases List.eq_nil_or_concat b with rfl | ⟨b, d, rfl⟩
    · have hlast : '\x00' ∈ (a ++ x).getLast? := by
        rw [← List.append_nil (a ++ x), hname]
        simp
      obtain ⟨y, d, rfl⟩ : ∃ y d, x = y ++ [d] := by
        rcases List.eq_nil_or_concat x with rfl | ⟨y, d, rfl⟩
        · exact absurd rfl hnil
        · exact ⟨y, d, List.concat_eq_append⟩
      obtain rfl : d = '\x00' := by simpa using hlast
      exact absurd (by simp) hx
    · rw [List.concat_eq_append, ← List.append_assoc] at hname
      exact ⟨a, b, (List.append_inj' hname rfl).1⟩

end Hard

/-- Texts of one shape may be joined where a hard text starts. -/
theorem shape_append_hard {b : Bool} {x x' y y' : Text} (hx : shape b x = shape b x')
    (hy : shape false y = shape false y') (hard : Hard (firstPart y)) (hard' : Hard (firstPart y')) :
    shape b (x ++ y) = shape b (x' ++ y') := by
  apply shape_append hx hy
  intro _
  rw [(hard.append_left _).ofName?, (hard'.append_left _).ofName?]

/-! ## What follows a comment -/

/-- What stands between the token of a comment and the next NUL is a name, or hard. -/
def Sealed (t : Text) : Prop :=
  ∀ x y, t = x ++ (Kind.remark.token ++ y) → '\x00' ∈ y →
    (∃ m : Mark, firstPart y = m.name) ∨ Hard (firstPart y)

namespace Sealed
variable {a b h t : Text}

theorem of_free (ht : '\x00' ∉ t) : Sealed t := by
  rintro x y rfl
  exact absurd (by simp [Kind.token, tokenOf]) ht

theorem left (ht : Sealed (a ++ b)) : Sealed a := by
  intro x y hx hy
  have := ht x (y ++ b) (by rw [hx, List.append_assoc, List.append_assoc])
    (List.mem_append_left _ hy)
  rwa [firstPart_append_nul hy] at this

theorem right (ht : Sealed (a ++ b)) : Sealed b := by
  intro x y hx hy
  exact ht (a ++ x) y (by rw [hx, List.append_assoc]) hy

/-- A hard text without NUL may stand between. -/
theorem join (ha : Sealed a) (hb : Sealed b) (hfree : '\x00' ∉ h) (hh : Hard h) :
    Sealed (a ++ (h ++ b)) := by
  intro x y heq hy
  rcases List.append_eq_append_iff.mp heq with ⟨a', rfl, hrest⟩ | ⟨c, rfl, hrest⟩
  · -- The token starts in the hard text or behind it.
    rcases List.append_eq_append_iff.mp hrest with ⟨d, rfl, hd⟩ | ⟨d, rfl, hd⟩
    · exact hb d y hd hy
    · cases d with
      | nil => exact hb [] y (by simpa using hd.symm) hy
      | cons c d =>
        obtain rfl : '\x00' = c := (List.cons.inj hd).1
        exact absurd (by simp) hfree
  · rcases List.append_eq_append_iff.mp hrest with ⟨d, rfl, rfl⟩ | ⟨d, htoken, hd⟩
    · -- The token lies in the first text.
      by_cases hnul : '\x00' ∈ d
      · rw [firstPart_append_nul hnul]
        exact ha x d rfl hnul
      · refine .inr ?_
        rw [firstPart_append hnul, firstPart_append hfree]
        exact (hh.append_right _).append_left _
    · -- The token ends behind the first text, so it would hold the hard text or end in it.
      rcases List.append_eq_append_iff.mp hd with ⟨e, rfl, _⟩ | ⟨e, rfl, rfl⟩
      · exact absurd ⟨c, e, by rw [List.append_assoc, ← htoken]; rfl⟩
          (hh.not_infix_token hfree (.kind .remark))
      · rcases List.eq_nil_or_concat d with rfl | ⟨d, z, rfl⟩
        · rw [List.nil_append] at hfree hh
          rw [firstPart_append hfree]
          exact .inr (hh.append_right _)
        · have hz : '\x00' ∈ (c ++ d.concat z).getLast? := by
            rw [← htoken]
            rfl
          obtain rfl : z = '\x00' := by simpa using hz
          exact absurd (by simp) hfree

/-- Behind a comment a line ends; only where the token arose by accident a name follows. -/
theorem of_orderly (ht : Orderly t) : Sealed t := by
  intro x y heq hy
  rcases real_or_between ht.sound heq with hx | ⟨x₀, m, m', y₀, rfl, _, _, hbetween⟩
  · have hnil := ht.last x y ⟨heq, hx⟩
    rw [hnil] at hy
    cases hy
  · refine .inl ⟨m', ?_⟩
    have hrest : y = m'.name ++ '\x00' :: y₀ := by
      rw [hbetween] at heq
      simpa [Mark.token, Kind.token, tokenOf] using heq.symm
    rw [hrest, firstPart_nul (nul_not_mem_name m')]

end Sealed

/-! ## Putting literals into gaps -/

/-- What follows the tokens of a cut starts with a name or is hard, if it has a NUL. -/
def Meets (gs : List Text) : Prop :=
  ∀ g ∈ gs.tail, '\x00' ∈ g → (∃ m : Mark, firstPart g = m.name) ∨ Hard (firstPart g)

theorem fillWith_cons (g : Text) (p : Text × Text) (more : List (Text × Text)) (l : Text)
    (ls : List Text) :
    Weave.fillWith (l :: ls) ⟨g, p :: more⟩ = g ++ (l ++ Weave.fillWith ls ⟨p.2, more⟩) := by
  simp [Weave.fillWith]

theorem fillWith_stop (g : Text) (rest : List (Text × Text)) (ls : List Text)
    (h : ls = [] ∨ rest = []) : Weave.fillWith ls ⟨g, rest⟩ = g := by
  rcases h with rfl | rfl <;> simp [Weave.fillWith]

theorem firstPart_fillWith {g : Text} {rest : List (Text × Text)} {ls : List Text}
    (hfirst : ∀ l ∈ ls, Hard (firstPart l))
    (hg : '\x00' ∈ g → (∃ m : Mark, firstPart g = m.name) ∨ Hard (firstPart g))
    (hnul : '\x00' ∈ Weave.fillWith ls ⟨g, rest⟩) :
    (∃ m : Mark, firstPart (Weave.fillWith ls ⟨g, rest⟩) = m.name) ∨
      Hard (firstPart (Weave.fillWith ls ⟨g, rest⟩)) := by
  by_cases hfree : '\x00' ∈ g
  · have hpart : firstPart (Weave.fillWith ls ⟨g, rest⟩) = firstPart g :=
      firstPart_append_nul hfree _
    rw [hpart]
    exact hg hfree
  · cases ls with
    | nil =>
      rw [fillWith_stop g rest [] (.inl rfl)] at hnul
      exact absurd hnul hfree
    | cons l ls =>
      cases rest with
      | nil =>
        rw [fillWith_stop g [] (l :: ls) (.inr rfl)] at hnul
        exact absurd hnul hfree
      | cons p more =>
        rw [fillWith_cons, firstPart_append hfree]
        exact .inr (((hfirst l List.mem_cons_self).firstPart_append _).append_left _)

/-- Literals in gaps of one shape leave texts of one shape. -/
theorem shape_fillWith {b : Bool} {g g' : Text} {rest rest' : List (Text × Text)} {ls : List Text}
    (h : SameGaps b (g :: rest.map Prod.snd) (g' :: rest'.map Prod.snd))
    (hfirst : ∀ l ∈ ls, Hard (firstPart l))
    (hlast : (∀ l ∈ ls, Hard (lastPart l)) ∨
      Meets (g :: rest.map Prod.snd) ∧ Meets (g' :: rest'.map Prod.snd)) :
    shape b (Weave.fillWith ls ⟨g, rest⟩) = shape b (Weave.fillWith ls ⟨g', rest'⟩) := by
  induction ls generalizing b g g' rest rest' with
  | nil =>
    rw [fillWith_stop _ _ _ (.inl rfl), fillWith_stop _ _ _ (.inl rfl)]
    exact h.head
  | cons l ls ih =>
    cases rest with
    | nil =>
      cases rest' with
      | nil =>
        rw [fillWith_stop _ _ _ (.inr rfl), fillWith_stop _ _ _ (.inr rfl)]
        exact h.head
      | cons p' more' =>
        have := h.length_eq
        simp at this
    | cons p more =>
      cases rest' with
      | nil =>
        have := h.length_eq
        simp at this
      | cons p' more' =>
        rw [List.map_cons, List.map_cons] at h
        cases h with
        | cons hg hs =>
          have hls : ∀ l ∈ ls, Hard (firstPart l) := fun l' hl => hfirst l' (List.mem_cons_of_mem _ hl)
          have htail := ih hs hls (hlast.imp (fun h l' hl => h l' (List.mem_cons_of_mem _ hl))
            fun h => ⟨fun q hq => h.1 q (List.mem_of_mem_tail hq),
              fun q hq => h.2 q (List.mem_of_mem_tail hq)⟩)
          rw [fillWith_cons, fillWith_cons]
          have hl := hfirst l List.mem_cons_self
          apply shape_append_hard (shape_init hg) _ (hl.firstPart_append _) (hl.firstPart_append _)
          apply shape_append rfl (shape_forget htail)
          intro hnul
          -- What follows the literal up to the next NUL is hard, or the same name in both.
          rcases hlast with hlast | ⟨hmeet, hmeet'⟩
          · have hl := hlast l List.mem_cons_self
            rw [(hl.append_right _).ofName?, (hl.append_right _).ofName?]
          · rcases shape_eq_cases htail with ⟨hfree, _⟩ | ⟨q, u, q', u', hq, hF, hq', hF', hlook, _⟩
            · exact absurd hnul hfree
            · have hname := congrArg Prod.fst hlook
              rw [look, look, if_pos rfl, if_pos rfl] at hname
              have hF₁ := firstPart_fillWith hls (hmeet p.2 (by simp)) hnul
              have hF₂ := firstPart_fillWith hls (hmeet' p'.2 (by simp)) (by rw [hF']; simp)
              rw [hF, firstPart_nul hq] at hF₁ ⊢
              rw [hF', firstPart_nul hq'] at hF₂ ⊢
              rcases hF₁ with ⟨m, rfl⟩ | hhard
              · rw [Mark.ofName?_name] at hname
                rw [ofName?_eq_some hname.symm]
              · rcases hF₂ with ⟨m, rfl⟩ | hhard'
                · rw [Mark.ofName?_name] at hname
                  rw [ofName?_eq_some hname]
                · rw [(hhard.append_left _).ofName?, (hhard'.append_left _).ofName?]

theorem meets_mask {k : Kind} {w : Weave} {g : Text} (hg : g ∈ w.gaps.tail) :
    ∃ x y, Lifting.mask k w = x ++ (k.token ++ (g ++ y)) := by
  obtain ⟨p, hp, rfl⟩ := List.mem_map.mp hg
  obtain ⟨pre, post, hrest⟩ := List.append_of_mem hp
  refine ⟨w.head ++ pre.flatMap fun p => k.token ++ p.2, post.flatMap fun p => k.token ++ p.2, ?_⟩
  simp [Lifting.mask, Weave.replace, hrest]

theorem Sealed.meets {t : Text} (h : Sealed t) : Meets (cutTokens .remark t).gaps := by
  intro g hg hnul
  obtain ⟨x, y, heq⟩ := meets_mask (k := .remark) hg
  rw [mask_cutTokens] at heq
  have := h x (g ++ y) heq (List.mem_append_left _ hnul)
  rwa [firstPart_append_nul hnul] at this

/-- A phrase between the pieces of a text leaves what follows its comments as it is. -/
theorem Sealed.fillWith {w : Weave} {ls : List Text} (hw : ∀ g ∈ w.gaps, Sealed g)
    (hl : ∀ l ∈ ls, '\x00' ∉ l ∧ Hard l) : Sealed (w.fillWith ls) := by
  obtain ⟨g, rest⟩ := w
  induction ls generalizing g rest with
  | nil =>
    rw [fillWith_stop _ _ _ (.inl rfl)]
    exact hw g List.mem_cons_self
  | cons l ls ih =>
    cases rest with
    | nil =>
      rw [fillWith_stop _ _ _ (.inr rfl)]
      exact hw g List.mem_cons_self
    | cons p more =>
      rw [fillWith_cons]
      have hmore := ih (fun l' hl' => hl l' (List.mem_cons_of_mem _ hl')) p.2 more
        fun g' hg' => hw g' (List.mem_cons_of_mem _ hg')
      exact (hw g List.mem_cons_self).join hmore (hl l List.mem_cons_self).1
        (hl l List.mem_cons_self).2

/-! ## The literals of a document -/

theorem StartsRemark.hard {l : Text} (h : StartsRemark l) : Hard (firstPart l) := by
  rcases h with h | h
  · obtain ⟨t, rfl⟩ : ∃ t, l = '\'' :: t := by
      cases l with
      | nil => cases h
      | cons c t => exact ⟨t, by simpa using h⟩
    apply hard_of_mem (c := '\'') _ (by decide)
    rw [firstPart, List.takeWhile_cons_of_pos (by decide)]
    exact List.mem_cons_self
  · obtain ⟨r, e, m, t, rfl⟩ : ∃ r e m t, l = r :: e :: m :: t := by
      rcases l with _ | ⟨r, _ | ⟨e, _ | ⟨m, t⟩⟩⟩
      · cases h
      · cases h
      · cases h
      · exact ⟨r, e, m, t, rfl⟩
    simp only [isRem, Bool.and_eq_true, beq_iff_eq] at h
    obtain ⟨⟨⟨hr, he⟩, hm⟩, _⟩ := h
    have hfree : '\x00' ∉ [r, e, m] := by
      intro hmem
      simp only [List.mem_cons, List.not_mem_nil, or_false] at hmem
      rcases hmem with rfl | rfl | rfl
      · exact absurd hr (by decide)
      · exact absurd he (by decide)
      · exact absurd hm (by decide)
    have hrem : Hard [r, e, m] := by
      intro mark hinside
      have hlow : ∀ c ∈ [r, e, m], lowerChar c = c := fun c hc =>
        lowerChar_nameChar (Mark.isNameChar_of_mem (hinside.subset hc))
      rw [hlow r (by simp)] at hr
      rw [hlow e (by simp)] at he
      rw [hlow m (by simp)] at hm
      have hnot : ∀ mark ∈ Mark.all, ∀ i < mark.name.length,
          (mark.name.drop i).take 3 ≠ ['r', 'e', 'm'] := by decide
      obtain ⟨a, b, hab⟩ := hinside
      apply hnot mark (Mark.mem_all mark) a.length
      · rw [← hab]
        simp
      · rw [← hab, hr, he, hm]
        simp
    show Hard (firstPart ([r, e, m] ++ t))
    rw [firstPart_append hfree]
    exact hrem.append_right _

/-- Literals start hard, and end so if they are no comments. -/
theorem hard_shelves {raw : Text} {k : Kind} (hk : k ≠ .markup) {l : Text}
    (hl : l ∈ (Lifting.result raw).shelves.get k) :
    Hard (firstPart l) ∧ (k ≠ .remark → Hard (lastPart l)) := by
  rw [shelves_eq] at hl
  have hfree : ∀ t : Text, '\x00' ∉ t → (∃ c ∈ t, isNameChar c = false) →
      Hard (firstPart t) ∧ Hard (lastPart t) := by
    rintro t ht ⟨c, hc, hn⟩
    rw [firstPart_free ht, lastPart_free ht]
    exact ⟨hard_of_mem hc hn, hard_of_mem hc hn⟩
  cases k with
  | markup => exact absurd rfl hk
  | delimiter =>
    rw [if_neg (by decide)] at hl
    rcases hit_delimiter hl with rfl | rfl
    · have := hfree "<!--".toList (by decide) ⟨'<', by decide, by decide⟩
      exact ⟨this.1, fun _ => this.2⟩
    · have := hfree "-->".toList (by decide) ⟨'-', by decide, by decide⟩
      exact ⟨this.1, fun _ => this.2⟩
  | string =>
    rw [if_neg (by decide)] at hl
    obtain ⟨body, rfl⟩ := string_of_hit hl
    refine ⟨hard_of_mem (c := '"') ?_ (by decide), fun _ => hard_of_mem (c := '"') ?_ (by decide)⟩
    · rw [firstPart, List.takeWhile_cons_of_pos (by decide)]
      exact List.mem_cons_self
    · rw [← List.cons_append, lastPart_append (by decide)]
      simp
  | remark =>
    rw [if_neg (by decide)] at hl
    exact ⟨(startsRemark_of_hit hl).hard, fun h => absurd rfl h⟩
  | resume =>
    rw [if_pos rfl] at hl
    obtain ⟨_, _, rfl⟩ := List.mem_map.mp hl
    have := hfree resumePhrase (by decide) ⟨'O', by decide, by decide⟩
    exact ⟨this.1, fun _ => this.2⟩

/-! ## Kind after kind -/

/-- Two texts to which the kinds from a turn on are still to be put back. -/
structure Level (n : Nat) (t t' : Text) : Prop where
  shape : n ≤ Kind.markup.turn → shape false t = shape false t'
  closed : n ≤ Kind.remark.turn → Sealed t ∧ Sealed t'

theorem sealed_gaps {k : Kind} {t : Text} (h : Sealed t) : ∀ g ∈ (cutTokens k t).gaps, Sealed g := by
  intro g hg
  rcases List.mem_cons.mp hg with rfl | hg
  · have hsource : (cutTokens k t).head ++ _ = t := Pattern.source_weave _ t
    rw [← hsource] at h
    exact h.left
  · obtain ⟨x, y, heq⟩ := meets_mask (k := k) (w := cutTokens k t) hg
    rw [mask_cutTokens] at heq
    rw [heq] at h
    exact h.right.right.left

/-- Putting back one kind leaves texts of one shape. -/
theorem Level.fill {raw : Text} {k : Kind} {t t' : Text} (h : Level k.turn t t') {ls : List Text}
    (hls : ∀ l ∈ ls, l ∈ (Lifting.result raw).shelves.get k) :
    Level (k.turn + 1) ((cutTokens k t).fillWith ls) ((cutTokens k t').fillWith ls) where
  shape hn := by
    have hk : k ≠ .markup := by
      rintro rfl
      omega
    apply shape_fillWith (sameGaps_cut k (h.shape (by omega)))
    · exact fun l hl => (hard_shelves hk (hls l hl)).1
    · by_cases hremark : k = .remark
      · subst hremark
        have hclosed := h.closed (Nat.le_refl _)
        exact .inr ⟨hclosed.1.meets, hclosed.2.meets⟩
      · exact .inl fun l hl => (hard_shelves hk (hls l hl)).2 hremark
  closed hn := by
    -- Only the phrase for errors comes back before the comments.
    have hk : k = .resume := by
      cases k <;> first | rfl | exact absurd hn (by decide)
    subst hk
    have hclosed := h.closed (by decide)
    have hphrase : ∀ l ∈ ls, '\x00' ∉ l ∧ Hard l := by
      intro l hl
      have hmem := hls l hl
      rw [shelves_eq, if_pos rfl] at hmem
      obtain ⟨_, _, rfl⟩ := List.mem_map.mp hmem
      exact ⟨by decide, hard_of_mem (c := 'O') (by decide) (by decide)⟩
    exact ⟨.fillWith (sealed_gaps hclosed.1) hphrase, .fillWith (sealed_gaps hclosed.2) hphrase⟩

/-! ## Filling from a position on -/

/-- Two fills end at the same position, and both fail for one reason or both succeed. -/
structure SameFill {α : Type} (R : Text → Text → Prop) (r r' : Except Fault Text × α) : Prop where
  outcome : SameOutcome R r.1 r'.1
  position : r.2 = r'.2

/-- What is filled in depends on the number of tokens alone. -/
theorem sameFill_rest (s : Shelf) {rest rest' : List (Text × Text)}
    (hlen : rest.length = rest'.length) (position : Nat) :
    SameFill (fun t t' =>
      t = ((s.literals.drop position).zip (rest.map Prod.snd)).flatMap (fun p => p.1 ++ p.2) ∧
      t' = ((s.literals.drop position).zip (rest'.map Prod.snd)).flatMap fun p => p.1 ++ p.2)
      (s.fillRest position rest) (s.fillRest position rest') := by
  induction rest generalizing rest' position with
  | nil =>
    obtain rfl : rest' = [] := by simpa using hlen.symm
    exact ⟨.ok (by simp), rfl⟩
  | cons p rest ih =>
    cases rest' with
    | nil => cases hlen
    | cons p' rest' =>
      rw [Shelf.fillRest, Shelf.fillRest, Shelf.next]
      cases hnext : s.literals[position]? with
      | none => exact ⟨.error _, rfl⟩
      | some l =>
        have hdrop : s.literals.drop position = l :: s.literals.drop (position + 1) := by
          obtain ⟨hlt, hl⟩ := List.getElem?_eq_some_iff.mp hnext
          rw [List.drop_eq_getElem_cons hlt, hl]
        have hrest := ih (by simpa using hlen) (position + 1)
        rw [hdrop]
        cases hr : s.fillRest (position + 1) rest with
        | mk r q =>
          cases hr' : s.fillRest (position + 1) rest' with
          | mk r' q' =>
            rw [hr, hr'] at hrest
            obtain ⟨hout, rfl⟩ := hrest
            simp only [hr, hr']
            cases hout with
            | error e => exact ⟨.error e, rfl⟩
            | ok h =>
              obtain ⟨rfl, rfl⟩ := h
              exact ⟨.ok (by simp), rfl⟩

theorem sameFill (s : Shelves) (k : Kind) {t t' : Text}
    (hlen : (cutTokens k t).rest.length = (cutTokens k t').rest.length) (position : Nat) :
    SameFill (fun u u' => u = (cutTokens k t).fillWith ((s.get k).drop position) ∧
      u' = (cutTokens k t').fillWith ((s.get k).drop position))
      ((s.shelf k).fill position t) ((s.shelf k).fill position t') := by
  have hrest := sameFill_rest (s.shelf k) hlen position
  have hcut : ∀ u, (s.shelf k).cut u = cutTokens k u := fun _ => rfl
  rw [Shelf.fill, Shelf.fill, hcut, hcut]
  cases hr : (s.shelf k).fillRest position (cutTokens k t).rest with
  | mk r q =>
    cases hr' : (s.shelf k).fillRest position (cutTokens k t').rest with
    | mk r' q' =>
      rw [hr, hr'] at hrest
      obtain ⟨hout, rfl⟩ := hrest
      cases hout with
      | error e => exact ⟨.error e, rfl⟩
      | ok h =>
        obtain ⟨rfl, rfl⟩ := h
        exact ⟨.ok ⟨rfl, rfl⟩, rfl⟩

/-- All kinds from a turn on are filled in alike. -/
theorem sameFill_from {raw : Text} {ks : List Kind} {n : Nat}
    (hks : ks.map Kind.turn = List.range' n ks.length) {t t' : Text} (h : Level n t t')
    (at_ : PerKind Nat) :
    SameFill (fun _ _ => True) ((Lifting.result raw).shelves.fillFrom ks at_ t)
      ((Lifting.result raw).shelves.fillFrom ks at_ t') := by
  induction ks generalizing n t t' at_ with
  | nil => exact ⟨.ok trivial, rfl⟩
  | cons k ks ih =>
    rw [List.map_cons, List.length_cons, List.range'_succ] at hks
    obtain ⟨rfl, hks⟩ := List.cons.inj hks
    have hturn : k.turn ≤ Kind.markup.turn := by cases k <;> decide
    have hfill := sameFill (Lifting.result raw).shelves k
      (tokens_of_shape k (h.shape hturn)) (at_.get k)
    rw [Shelves.fillFrom, Shelves.fillFrom]
    cases hr : ((Lifting.result raw).shelves.shelf k).fill (at_.get k) t with
    | mk r q =>
      cases hr' : ((Lifting.result raw).shelves.shelf k).fill (at_.get k) t' with
      | mk r' q' =>
        rw [hr, hr'] at hfill
        obtain ⟨hout, rfl⟩ := hfill
        cases hout with
        | error e => exact ⟨.error e, rfl⟩
        | ok hu =>
          obtain ⟨rfl, rfl⟩ := hu
          exact ih hks (h.fill fun l hl => List.mem_of_mem_drop hl) _

theorem sameFill_all (raw : Text) {t t' : Text} (h : Level 0 t t') (at_ : PerKind Nat) :
    SameFill (fun _ _ => True) ((Lifting.result raw).shelves.fill at_ t)
      ((Lifting.result raw).shelves.fill at_ t') :=
  sameFill_from (by decide) h at_

/-- Two lines that are cut alike: both nowhere, or both in pieces to which all literals are still to
be put back. -/
inductive SamePieces : Text × Option Nat → Text × Option Nat → Prop
  | whole {l l' : Text} (h : Level 0 l l') : SamePieces (l, none) (l', none)
  | cut {l l' : Text} {c c' : Nat} (hhead : Level 0 (l.take c) (l'.take c'))
    (htail : Level 0 (l.drop c) (l'.drop c')) : SamePieces (l, some c) (l', some c')

/-- Measuring columns fails in both runs for the same reason, or in neither. -/
theorem sameOutcome_columnsFrom (raw : Text) {lines lines' : List (Text × Option Nat)}
    (h : List.Forall₂ SamePieces lines lines') (at_ : PerKind Nat) :
    SameOutcome (fun _ _ => True) (columnsFrom (Lifting.result raw).shelves at_ lines)
      (columnsFrom (Lifting.result raw).shelves at_ lines') := by
  induction h generalizing at_ with
  | nil => exact .ok trivial
  | @cons p p' more more' hp _ ih =>
    cases hp with
    | @whole l l' hl =>
      have hfill := sameFill_all raw hl at_
      rw [columnsFrom, columnsFrom]
      cases hr : (Lifting.result raw).shelves.fill at_ l with
      | mk r q =>
        cases hr' : (Lifting.result raw).shelves.fill at_ l' with
        | mk r' q' =>
          rw [hr, hr'] at hfill
          obtain ⟨hout, rfl⟩ := hfill
          cases hout with
          | error e => exact .error e
          | ok _ => exact (ih _).map fun _ _ _ => trivial
    | @cut l l' c c' hhead htail =>
      have hfill := sameFill_all raw hhead at_
      rw [columnsFrom, columnsFrom]
      cases hr : (Lifting.result raw).shelves.fill at_ (l.take c) with
      | mk r q =>
        cases hr' : (Lifting.result raw).shelves.fill at_ (l'.take c') with
        | mk r' q' =>
          rw [hr, hr'] at hfill
          obtain ⟨hout, rfl⟩ := hfill
          cases hout with
          | error e => exact .error e
          | ok _ =>
            have hfill := sameFill_all raw htail q
            cases hs : (Lifting.result raw).shelves.fill q (l.drop c) with
            | mk s p =>
              cases hs' : (Lifting.result raw).shelves.fill q (l'.drop c') with
              | mk s' p' =>
                rw [hs, hs'] at hfill
                obtain ⟨hout, rfl⟩ := hfill
                simp only [hs, hs']
                cases hout with
                | error e => exact .error e
                | ok _ => exact (ih _).map fun _ _ _ => trivial

end VbTidy
