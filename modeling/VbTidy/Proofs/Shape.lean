import VbTidy.Proofs.Unstyled

/-
The shape of a text: its parts between NUL characters without their style, and for each part that
stands between two of them the mark that it names. Two texts of one shape have the same tokens in the
same places, those formed by accident included, and cutting both at the tokens of a kind leaves gaps
of one shape (`sameGaps_cut`). Texts of one shape may be joined where the parts that meet name no
mark, or the same one (`shape_append`).
-/
namespace VbTidy

/-! ## Parts between NUL characters -/

theorem nul_cases (t : Text) :
    '\x00' ∉ t ∨ ∃ p u, '\x00' ∉ p ∧ t = p ++ '\x00' :: u := by
  by_cases h : '\x00' ∈ t
  · obtain ⟨p, u, rfl, hp⟩ := List.eq_append_cons_of_mem h
    exact .inr ⟨p, u, hp, rfl⟩
  · exact .inl h

/-- Induction on a text part by part. -/
theorem nul_induction {motive : Text → Prop} (free : ∀ t, '\x00' ∉ t → motive t)
    (nul : ∀ p u, '\x00' ∉ p → motive u → motive (p ++ '\x00' :: u)) (t : Text) : motive t := by
  generalize hn : t.length = n
  induction n using Nat.strongRecOn generalizing t with
  | _ n ih =>
    rcases nul_cases t with h | ⟨p, u, hp, rfl⟩
    · exact free t h
    · apply nul p u hp
      apply ih u.length _ u rfl
      rw [← hn, List.length_append, List.length_cons]
      omega

/-- The part of a text before its first NUL. -/
def firstPart (t : Text) : Text :=
  t.takeWhile (· != '\x00')

/-- The part of a text after its last NUL. -/
def lastPart (t : Text) : Text :=
  (t.reverse.takeWhile (· != '\x00')).reverse

theorem takeWhile_free {s : Text} (hs : '\x00' ∉ s) (t : Text) :
    (s ++ t).takeWhile (· != '\x00') = s ++ t.takeWhile (· != '\x00') := by
  apply List.takeWhile_append_of_pos
  intro c hc
  rw [bne_iff_ne]
  rintro rfl
  exact hs hc

theorem firstPart_append {s : Text} (hs : '\x00' ∉ s) (t : Text) :
    firstPart (s ++ t) = s ++ firstPart t :=
  takeWhile_free hs t

theorem firstPart_free {t : Text} (h : '\x00' ∉ t) : firstPart t = t := by
  have := firstPart_append h []
  rwa [List.append_nil, firstPart, firstPart, List.takeWhile_nil, List.append_nil] at this

theorem firstPart_nul {p : Text} (hp : '\x00' ∉ p) (u : Text) :
    firstPart (p ++ '\x00' :: u) = p := by
  rw [firstPart_append hp, firstPart, List.takeWhile_cons_of_neg (by simp), List.append_nil]

theorem firstPart_append_nul {t : Text} (h : '\x00' ∈ t) (u : Text) :
    firstPart (t ++ u) = firstPart t := by
  obtain ⟨p, v, rfl, hp⟩ := List.eq_append_cons_of_mem h
  rw [List.append_assoc, List.cons_append, firstPart_nul hp, firstPart_nul hp]

theorem lastPart_append {u : Text} (hu : '\x00' ∉ u) (t : Text) :
    lastPart (t ++ u) = lastPart t ++ u := by
  rw [lastPart, List.reverse_append, takeWhile_free (by simpa using hu), List.reverse_append,
    List.reverse_reverse]
  rfl

theorem lastPart_free {t : Text} (h : '\x00' ∉ t) : lastPart t = t :=
  lastPart_append h []

theorem lastPart_nul (p u : Text) : lastPart (p ++ '\x00' :: u) = lastPart u := by
  rw [lastPart, List.reverse_append, List.reverse_cons, List.append_assoc]
  by_cases hu : '\x00' ∈ u
  · obtain ⟨q, v, hq, hfree⟩ := List.eq_append_cons_of_mem (List.mem_reverse.mpr hu)
    have hcut : ∀ z, (q ++ '\x00' :: z).takeWhile (· != '\x00') = q := firstPart_nul hfree
    rw [lastPart, hq, List.append_assoc, List.cons_append, hcut, hcut]
  · rw [takeWhile_free (by simpa using hu), List.singleton_append,
      List.takeWhile_cons_of_neg (by simp), List.append_nil, List.reverse_reverse, lastPart_free hu]

theorem part_unique {p q u v : Text} (hp : '\x00' ∉ p) (hq : '\x00' ∉ q)
    (h : p ++ '\x00' :: u = q ++ '\x00' :: v) : p = q ∧ u = v := by
  have hpart := congrArg firstPart h
  rw [firstPart_nul hp, firstPart_nul hq] at hpart
  subst hpart
  exact ⟨rfl, (List.cons.inj (List.append_cancel_left h)).2⟩

/-! ## Shapes -/

/-- What counts of a part: the mark it names, if it is one between two NUL characters, and the part
without its style. -/
def look (inner : Bool) (p : Text) : Option Mark × Text :=
  (if inner then Mark.ofName? p else none, unstyled p)

/-- What counts of the parts of a text; `after` says whether a NUL stands before the first one. -/
def looks : Bool → List Text → List (Option Mark × Text)
  | _, [] => []
  | _, [p] => [look false p]
  | after, p :: q :: ps => look after p :: looks true (q :: ps)

/-- The shape of a text; `after` says whether a NUL stands before it. -/
def shape (after : Bool) (t : Text) : List (Option Mark × Text) :=
  looks after (cutAt '\x00' t)

theorem look_outer (p : Text) : look false p = (none, unstyled p) := rfl

theorem cutAt_free {t : Text} (h : '\x00' ∉ t) : cutAt '\x00' t = [t] := by
  induction t with
  | nil => rfl
  | cons c t ih =>
    rw [List.mem_cons, not_or] at h
    rw [cutAt, if_neg (by simpa using Ne.symm h.1), ih h.2]

theorem shape_free {t : Text} (h : '\x00' ∉ t) (b : Bool) : shape b t = [look false t] := by
  rw [shape, cutAt_free h]
  cases b <;> rfl

theorem shape_nul {p : Text} (hp : '\x00' ∉ p) (b : Bool) (u : Text) :
    shape b (p ++ '\x00' :: u) = look b p :: shape true u := by
  obtain ⟨q, qs, hu⟩ := List.exists_cons_of_ne_nil (cutAt_ne_nil '\x00' u)
  rw [shape, cutAt_append hp, hu, looks, shape, hu]

theorem shape_ne_nil (b : Bool) (t : Text) : shape b t ≠ [] := by
  rcases nul_cases t with h | ⟨p, u, hp, rfl⟩
  · rw [shape_free h]
    exact List.cons_ne_nil _ _
  · rw [shape_nul hp]
    exact List.cons_ne_nil _ _

/-- Texts of one shape have the same number of parts, and their first parts look the same. -/
theorem shape_eq_cases {b b' : Bool} {t t' : Text} (h : shape b t = shape b' t') :
    ('\x00' ∉ t ∧ '\x00' ∉ t' ∧ unstyled t = unstyled t') ∨
    ∃ p u p' u', '\x00' ∉ p ∧ t = p ++ '\x00' :: u ∧ '\x00' ∉ p' ∧ t' = p' ++ '\x00' :: u' ∧
      look b p = look b' p' ∧ shape true u = shape true u' := by
  rcases nul_cases t with ht | ⟨p, u, hp, rfl⟩
  · rcases nul_cases t' with ht' | ⟨p', u', hp', rfl⟩
    · rw [shape_free ht, shape_free ht'] at h
      exact .inl ⟨ht, ht', congrArg Prod.snd (List.cons.inj h).1⟩
    · rw [shape_free ht, shape_nul hp'] at h
      exact absurd (List.cons.inj h).2.symm (shape_ne_nil true u')
  · rcases nul_cases t' with ht' | ⟨p', u', hp', rfl⟩
    · rw [shape_nul hp, shape_free ht'] at h
      exact absurd (List.cons.inj h).2 (shape_ne_nil true u)
    · rw [shape_nul hp, shape_nul hp'] at h
      obtain ⟨hlook, hu⟩ := List.cons.inj h
      exact .inr ⟨p, u, p', u', hp, rfl, hp', rfl, hlook, hu⟩

theorem unstyled_of_look {b b' : Bool} {p p' : Text} (h : look b p = look b' p') :
    unstyled p = unstyled p' :=
  congrArg Prod.snd h

/-- What is behind a NUL may be looked at as if it were not. -/
theorem shape_forget {t t' : Text} (h : shape true t = shape true t') :
    shape false t = shape false t' := by
  rcases shape_eq_cases h with ⟨ht, ht', hu⟩ | ⟨p, u, p', u', hp, rfl, hp', rfl, hlook, hu⟩
  · rw [shape_free ht, shape_free ht', look_outer, look_outer, hu]
  · rw [shape_nul hp, shape_nul hp', look_outer, look_outer, unstyled_of_look hlook, hu]

theorem length_shape_concat (b : Bool) (t : Text) :
    (shape b (t ++ ['\x00'])).length = (shape b t).length + 1 := by
  induction t using nul_induction generalizing b with
  | free t ht =>
    have hnil : shape true [] = [look false []] := shape_free (by simp) true
    rw [shape_nul ht, shape_free ht, hnil]
    rfl
  | nul p u hp ih =>
    rw [List.append_assoc, List.cons_append, shape_nul hp, shape_nul hp, List.length_cons,
      List.length_cons, ih]

/-- The NUL at the end of a text may be left out. -/
theorem shape_init {b : Bool} {t t' : Text} (h : shape b (t ++ ['\x00']) = shape b (t' ++ ['\x00'])) :
    shape b t = shape b t' := by
  have hlen : (shape b t).length = (shape b t').length := by
    have := congrArg List.length h
    rw [length_shape_concat, length_shape_concat] at this
    omega
  induction t using nul_induction generalizing b t' with
  | free t ht =>
    rcases nul_cases t' with ht' | ⟨p', u', hp', rfl⟩
    · rw [shape_nul ht, shape_nul ht'] at h
      rw [shape_free ht, shape_free ht', look_outer, look_outer,
        unstyled_of_look (List.cons.inj h).1]
    · rw [shape_free ht, shape_nul hp'] at hlen
      simp [shape_ne_nil] at hlen
  | nul p u hp ih =>
    rcases nul_cases t' with ht' | ⟨p', u', hp', rfl⟩
    · rw [shape_nul hp, shape_free ht'] at hlen
      simp [shape_ne_nil] at hlen
    · rw [shape_nul hp, shape_nul hp', List.length_cons, List.length_cons] at hlen
      rw [List.append_assoc, List.cons_append, shape_nul hp, List.append_assoc, List.cons_append,
        shape_nul hp'] at h
      obtain ⟨hlook, hu⟩ := List.cons.inj h
      rw [shape_nul hp, shape_nul hp', hlook, ih hu (by omega)]

/-- Texts of one shape may be joined if the parts that meet name the same mark, or none, where they
come to stand between two NUL characters. -/
theorem shape_append {b : Bool} {x x' y y' : Text} (hx : shape b x = shape b x')
    (hy : shape false y = shape false y')
    (hmeet : '\x00' ∈ y → Mark.ofName? (lastPart x ++ firstPart y) =
      Mark.ofName? (lastPart x' ++ firstPart y')) : shape b (x ++ y) = shape b (x' ++ y') := by
  induction x using nul_induction generalizing b x' with
  | free x hfree =>
    rcases shape_eq_cases hx with ⟨_, hfree', hu⟩ | ⟨p, u, _, _, _, rfl, _⟩
    · rw [lastPart_free hfree, lastPart_free hfree'] at hmeet
      rcases shape_eq_cases hy with ⟨hy₁, hy₂, hyu⟩ | ⟨q, v, q', v', hq, rfl, hq', rfl, hlook, hv⟩
      · rw [shape_free (by simp [hfree, hy₁]), shape_free (by simp [hfree', hy₂]), look_outer,
          look_outer, unstyled_append hu hyu]
      · have hname := hmeet (by simp)
        rw [firstPart_nul hq, firstPart_nul hq'] at hname
        rw [← List.append_assoc, ← List.append_assoc, shape_nul (by simp [hfree, hq]),
          shape_nul (by simp [hfree', hq']), look, look, hname,
          unstyled_append hu (unstyled_of_look hlook), hv]
    · exact absurd (by simp) hfree
  | nul p u hp ih =>
    rcases shape_eq_cases hx with ⟨hfree, _⟩ | ⟨q, v, p', u', hq, heq, hp', rfl, hlook, hu⟩
    · exact absurd (by simp) hfree
    · obtain ⟨rfl, rfl⟩ := part_unique hp hq heq
      rw [lastPart_nul, lastPart_nul] at hmeet
      rw [List.append_assoc, List.append_assoc, List.cons_append, List.cons_append, shape_nul hp,
        shape_nul hp', hlook, ih hu hmeet]

theorem packed_append (s t : Text) : packed (s ++ t) = packed s ++ packed t := by
  simp [packed]

theorem packed_of_shape {b b' : Bool} {t t' : Text} (h : shape b t = shape b' t') :
    packed t = packed t' := by
  induction t using nul_induction generalizing b b' t' with
  | free t ht =>
    rcases shape_eq_cases h with ⟨_, _, hu⟩ | ⟨p, u, _, _, _, rfl, _⟩
    · exact packed_of_unstyled hu
    · exact absurd (by simp) ht
  | nul p u hp ih =>
    rcases shape_eq_cases h with ⟨hfree, _⟩ | ⟨q, v, p', u', hq, heq, hp', rfl, hlook, hu⟩
    · exact absurd (by simp) hfree
    · obtain ⟨rfl, rfl⟩ := part_unique hp hq heq
      have hcons : ∀ w, packed ('\x00' :: w) = '\x00' :: packed w := fun _ => rfl
      rw [packed_append, packed_append, hcons, hcons, packed_of_unstyled (unstyled_of_look hlook),
        ih hu]

/-! ## White space at the ends -/

theorem nul_not_mem_dropEnd {p : Char → Bool} {t : Text} (h : '\x00' ∉ t) :
    '\x00' ∉ dropEnd p t := by
  obtain ⟨s, hs, _⟩ := dropEnd_append p t
  intro hmem
  exact h (by rw [hs]; exact List.mem_append_left _ hmem)

theorem nul_not_mem_dropWhile {p : Char → Bool} {t : Text} (h : '\x00' ∉ t) :
    '\x00' ∉ t.dropWhile p :=
  fun hmem => h ((List.dropWhile_suffix p).subset hmem)

section
variable {p : Char → Bool} (hblank : ∀ c, isBlank c = true → p c = true)
  (hp : ∀ c, p (anyCase c) = p c) (hnul : p '\x00' = false)
include hblank hp hnul

theorem shape_dropEnd {b : Bool} {t t' : Text} (h : shape b t = shape b t') :
    shape b (dropEnd p t) = shape b (dropEnd p t') := by
  induction t using nul_induction generalizing b t' with
  | free t ht =>
    rcases shape_eq_cases h with ⟨_, ht', hu⟩ | ⟨q, u, _, _, _, rfl, _⟩
    · rw [shape_free (nul_not_mem_dropEnd ht), shape_free (nul_not_mem_dropEnd ht'), look_outer,
        look_outer, unstyled_dropEnd hblank hp, unstyled_dropEnd hblank hp, hu]
    · exact absurd (by simp) ht
  | nul q u hq ih =>
    rcases shape_eq_cases h with ⟨hfree, _⟩ | ⟨r, v, q', u', hr, heq, hq', rfl, hlook, hu⟩
    · exact absurd (by simp) hfree
    · obtain ⟨rfl, rfl⟩ := part_unique hq hr heq
      rw [dropEnd_cut hnul, dropEnd_cut hnul, shape_nul hq, shape_nul hq', hlook, ih hu]

theorem shape_dropWhile {t t' : Text} (h : shape false t = shape false t') :
    shape false (t.dropWhile p) = shape false (t'.dropWhile p) := by
  rcases shape_eq_cases h with ⟨ht, ht', hu⟩ | ⟨q, u, q', u', hq, rfl, hq', rfl, hlook, hu⟩
  · rw [shape_free (nul_not_mem_dropWhile ht), shape_free (nul_not_mem_dropWhile ht'), look_outer,
      look_outer, unstyled_dropWhile hblank hp, unstyled_dropWhile hblank hp, hu]
  · rw [dropWhile_cut hnul, dropWhile_cut hnul, shape_nul (nul_not_mem_dropWhile hq),
      shape_nul (nul_not_mem_dropWhile hq'), look_outer, look_outer, unstyled_dropWhile hblank hp,
      unstyled_dropWhile hblank hp, unstyled_of_look hlook, hu]

end

theorem shape_trim {t t' : Text} (h : shape false t = shape false t') :
    shape false (trim t) = shape false (trim t') :=
  shape_dropEnd (fun _ => isSpace_of_isBlank) isSpace_anyCase (by decide)
    (shape_dropWhile (fun _ => isSpace_of_isBlank) isSpace_anyCase (by decide) h)

/-! ## Cutting at tokens -/

theorem ofName?_eq_some {p : Text} {m : Mark} (h : Mark.ofName? p = some m) : p = m.name := by
  have := List.find?_some h
  exact (beq_iff_eq.mp this).symm

/-- A name behind a NUL and before another stands in all texts of the shape. -/
theorem shape_name {m : Mark} {u t' : Text} (h : shape true (m.name ++ '\x00' :: u) = shape true t') :
    ∃ u', t' = m.name ++ '\x00' :: u' ∧ shape true u = shape true u' := by
  rcases shape_eq_cases h with ⟨hfree, _⟩ | ⟨p, v, p', u', hp, heq, hp', rfl, hlook, hu⟩
  · exact absurd (by simp) hfree
  · obtain ⟨rfl, rfl⟩ := part_unique (nul_not_mem_name m) hp heq
    have hname : Mark.ofName? p' = some m := by
      have := congrArg Prod.fst hlook
      rwa [look, look, if_pos rfl, if_pos rfl, Mark.ofName?_name, eq_comm] at this
    exact ⟨u', by rw [ofName?_eq_some hname], hu⟩

/-- A token stands in all texts of the shape at the same place. -/
theorem shape_token {m : Mark} {u t' : Text} (h : shape false (m.token ++ u) = shape false t') :
    ∃ u', t' = m.token ++ u' ∧ shape true u = shape true u' := by
  rw [Mark.token_append] at h
  rcases shape_eq_cases h with ⟨hfree, _⟩ | ⟨p, v, p', v', hp, heq, hp', rfl, hlook, hv⟩
  · exact absurd (by simp) hfree
  · obtain ⟨rfl, rfl⟩ := part_unique (p := []) (by simp) hp heq
    obtain ⟨u', rfl, hu⟩ := shape_name hv
    have hnil : p' = [] := unstyled_eq_nil.mp (unstyled_of_look hlook).symm
    refine ⟨u', ?_, hu⟩
    rw [hnil, Mark.token_append, List.nil_append]

theorem eq_token_of_shape {m : Mark} {t' : Text} (h : shape false m.token = shape false t') :
    t' = m.token := by
  rw [← List.append_nil m.token] at h
  obtain ⟨u', rfl, hu⟩ := shape_token h
  have hnil : u' = [] := by
    rcases shape_eq_cases hu with ⟨_, _, hu⟩ | ⟨p, u, _, _, _, heq, _⟩
    · exact unstyled_eq_nil.mp hu.symm
    · simp at heq
  rw [hnil, List.append_nil]

/-- Gaps of one shape; behind each but the last a token stands. -/
inductive SameGaps : Bool → List Text → List Text → Prop
  | last {b : Bool} {g g' : Text} (h : shape b g = shape b g') : SameGaps b [g] [g']
  | cons {b : Bool} {g g' : Text} {gs gs' : List Text}
    (h : shape b (g ++ ['\x00']) = shape b (g' ++ ['\x00'])) (hs : SameGaps true gs gs') :
    SameGaps b (g :: gs) (g' :: gs')

theorem SameGaps.head {b : Bool} {g g' : Text} {gs gs' : List Text}
    (h : SameGaps b (g :: gs) (g' :: gs')) : shape b g = shape b g' := by
  cases h with
  | last h => exact h
  | cons h _ => exact shape_init h

theorem cutTokens_hit (k : Kind) {p : Text} (hp : '\x00' ∉ p) (v : Text) :
    cutTokens k (p ++ '\x00' :: (k.name ++ '\x00' :: v)) =
      ⟨p, (k.token, (cutTokens k v).head) :: (cutTokens k v).rest⟩ := by
  have htoken : '\x00' :: (k.name ++ '\x00' :: v) = k.token ++ v := by simp [Kind.token, tokenOf]
  rw [cutTokens_nul_free k hp, htoken, cutTokens_token, Weave.pushHit, Weave.prepend,
    List.append_nil]

theorem cutTokens_miss {k : Kind} {p u : Text} (hp : '\x00' ∉ p)
    (hu : ∀ v, u ≠ k.name ++ '\x00' :: v) :
    cutTokens k (p ++ '\x00' :: u) =
      ⟨p ++ '\x00' :: (cutTokens k u).head, (cutTokens k u).rest⟩ := by
  have hmiss : ¬ k.token <+: '\x00' :: u := by
    rintro ⟨v, hv⟩
    apply hu v
    simpa [Kind.token, tokenOf] using hv.symm
  rw [cutTokens_nul_free k hp, cutTokens, Pattern.weave_miss hmiss]
  rfl

/-- The first token of a kind in a text, with what stands before and behind it. -/
structure FirstToken (k : Kind) (t x y : Text) : Prop where
  eq : t = x ++ (k.token ++ y)
  cut : cutTokens k t = ⟨x, (k.token, (cutTokens k y).head) :: (cutTokens k y).rest⟩

theorem firstToken_hit {k : Kind} {p : Text} (hp : '\x00' ∉ p) (v : Text) :
    FirstToken k (p ++ '\x00' :: (k.name ++ '\x00' :: v)) p v where
  eq := by simp [Kind.token, tokenOf]
  cut := cutTokens_hit k hp v

theorem FirstToken.behind {k : Kind} {p u x y : Text} (hp : '\x00' ∉ p)
    (hu : ∀ v, u ≠ k.name ++ '\x00' :: v) (h : FirstToken k u x y) :
    FirstToken k (p ++ '\x00' :: u) (p ++ '\x00' :: x) y where
  eq := by rw [h.eq, List.append_assoc, List.cons_append]
  cut := by rw [cutTokens_miss hp hu, h.cut]

/-- In texts of one shape the first token is at the same place. -/
theorem shape_first (k : Kind) {b : Bool} {t t' : Text} (h : shape b t = shape b t') :
    (cutTokens k t = ⟨t, []⟩ ∧ cutTokens k t' = ⟨t', []⟩) ∨
    ∃ x y x' y', FirstToken k t x y ∧ FirstToken k t' x' y' ∧
      shape b (x ++ ['\x00']) = shape b (x' ++ ['\x00']) ∧ shape true y = shape true y' := by
  induction t using nul_induction generalizing b t' with
  | free t ht =>
    rcases shape_eq_cases h with ⟨_, ht', _⟩ | ⟨p, u, _, _, _, rfl, _⟩
    · exact .inl ⟨cutTokens_free k ht, cutTokens_free k ht'⟩
    · exact absurd (by simp) ht
  | nul p u hp ih =>
    rcases shape_eq_cases h with ⟨hfree, _⟩ | ⟨q, v, p', u', hq, heq, hp', rfl, hlook, hu⟩
    · exact absurd (by simp) hfree
    · obtain ⟨rfl, rfl⟩ := part_unique hp hq heq
      -- Whether a token starts at the NUL is seen from the part behind it.
      by_cases hname : ∃ v, u = k.name ++ '\x00' :: v
      · obtain ⟨v, rfl⟩ := hname
        obtain ⟨v', rfl, hv⟩ := shape_name (m := .kind k) hu
        refine .inr ⟨p, v, p', v', firstToken_hit hp v, firstToken_hit hp' v', ?_, hv⟩
        rw [shape_nul hp, shape_nul hp', hlook]
      · have hmiss : ∀ v, u ≠ k.name ++ '\x00' :: v := fun v hv => hname ⟨v, hv⟩
        have hmiss' : ∀ v, u' ≠ k.name ++ '\x00' :: v := by
          rintro v rfl
          obtain ⟨v', hv', _⟩ := shape_name (m := .kind k) hu.symm
          exact hmiss v' hv'
        rcases ih hu with ⟨h₁, h₂⟩ | ⟨x, y, x', y', hx, hx', hxs, hys⟩
        · exact .inl ⟨by rw [cutTokens_miss hp hmiss, h₁], by rw [cutTokens_miss hp' hmiss', h₂]⟩
        · refine .inr ⟨_, y, _, y', hx.behind hp hmiss, hx'.behind hp' hmiss', ?_, hys⟩
          rw [List.append_assoc, List.append_assoc, List.cons_append, List.cons_append,
            shape_nul hp, shape_nul hp', hlook, hxs]

/-- Texts of one shape have the same number of tokens, and what stands between them is of one shape. -/
theorem sameGaps_cut (k : Kind) {b : Bool} {t t' : Text} (h : shape b t = shape b t') :
    SameGaps b (cutTokens k t).gaps (cutTokens k t').gaps := by
  generalize hn : t.length = n
  induction n using Nat.strongRecOn generalizing b t t' with
  | _ n ih =>
    rcases shape_first k h with ⟨hcut, hcut'⟩ | ⟨x, y, x', y', hx, hx', hxs, hys⟩
    · rw [hcut, hcut']
      exact .last h
    · have hlen : y.length < n := by
        have htoken : 0 < k.token.length := List.length_pos_of_ne_nil k.token_ne_nil
        rw [← hn, hx.eq, List.length_append, List.length_append]
        omega
      rw [hx.cut, hx'.cut]
      exact .cons hxs (ih y.length hlen hys rfl)

theorem SameGaps.length_eq {b : Bool} {gs gs' : List Text} (h : SameGaps b gs gs') :
    gs.length = gs'.length := by
  induction h with
  | last => rfl
  | cons _ _ ih => rw [List.length_cons, List.length_cons, ih]

/-- Texts of one shape have the same number of tokens. -/
theorem tokens_of_shape (k : Kind) {b : Bool} {t t' : Text} (h : shape b t = shape b t') :
    (cutTokens k t).rest.length = (cutTokens k t').rest.length := by
  have := (sameGaps_cut k h).length_eq
  simpa [Weave.gaps] using this

end VbTidy
