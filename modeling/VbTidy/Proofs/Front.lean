import VbTidy.Proofs.Unfenced
import VbTidy.Proofs.Reads

/-
What stands in front of a sign on its line when markup is put back and the fences are taken away.
Padding touches the blanks next to delimiters, and a fence takes with it the blanks and the line
break between it and the code. A line feed in front keeps both from reaching into the line, and a
sign that is neither blank nor part of a delimiter keeps what is behind it from reaching back. So
the text of a line before the sign stays as it is if no markup stands in it (`putBack_front`).
-/
namespace VbTidy

/-! ## The last line -/

theorem takeWhile_no_feed {t : Text} (h : '\n' ∉ t) (u : Text) :
    (t.reverse ++ u).takeWhile (· != '\n') = t.reverse ++ u.takeWhile (· != '\n') := by
  apply List.takeWhile_append_of_pos
  intro c hc
  rw [bne_iff_ne]
  rintro rfl
  exact h (List.mem_reverse.mp hc)

theorem lastLine_of_no_feed {t : Text} (h : '\n' ∉ t) : lastLine t = t := by
  have hall := takeWhile_no_feed h []
  rw [List.append_nil, List.takeWhile_nil, List.append_nil] at hall
  rw [lastLine, hall, List.reverse_reverse]

theorem lastLine_behind_feed {t : Text} (x : Text) (h : '\n' ∉ t) :
    lastLine (x ++ '\n' :: t) = t := by
  have hcut : (x ++ '\n' :: t).reverse = t.reverse ++ '\n' :: x.reverse := by simp
  rw [lastLine, hcut, takeWhile_no_feed h, List.takeWhile_cons_of_neg (by simp), List.append_nil,
    List.reverse_reverse]

/-- A text is its last line, or a line feed stands before that. -/
theorem lastLine_cases (t : Text) :
    '\n' ∉ lastLine t ∧ (t = lastLine t ∨ ∃ x, t = x ++ '\n' :: lastLine t) := by
  by_cases h : '\n' ∈ t.reverse
  · obtain ⟨u, v, huv, hu⟩ := List.eq_append_cons_of_mem h
    have ht : t = v.reverse ++ '\n' :: u.reverse := by
      rw [← List.reverse_reverse t, huv]
      simp
    have hu' : '\n' ∉ u.reverse := fun hm => hu (List.mem_reverse.mp hm)
    have hlast : lastLine t = u.reverse := by rw [ht, lastLine_behind_feed _ hu']
    rw [hlast]
    exact ⟨hu', .inr ⟨_, ht⟩⟩
  · have hfree : '\n' ∉ t := fun hm => h (List.mem_reverse.mpr hm)
    rw [lastLine_of_no_feed hfree]
    exact ⟨hfree, .inl rfl⟩

theorem lastLine_append {t : Text} (u : Text) (h : '\n' ∉ t) :
    lastLine (u ++ t) = lastLine u ++ t := by
  obtain ⟨hfeed, hu | ⟨x, hu⟩⟩ := lastLine_cases u
  · have hfree : '\n' ∉ u ++ t := by
      rw [List.mem_append, not_or]
      exact ⟨hu ▸ hfeed, h⟩
    rw [lastLine_of_no_feed hfree, ← hu]
  · have hfree : '\n' ∉ lastLine u ++ t := by
      rw [List.mem_append, not_or]
      exact ⟨hfeed, h⟩
    conv_lhs => rw [hu, List.append_assoc, List.cons_append]
    exact lastLine_behind_feed x hfree

theorem lastLine_feed_append (x u : Text) : lastLine (x ++ '\n' :: u) = lastLine u := by
  obtain ⟨hfeed, hu | ⟨y, hu⟩⟩ := lastLine_cases u
  · rw [← hu] at hfeed
    rw [lastLine_behind_feed x hfeed, ← hu]
  · have hwhole : x ++ '\n' :: u = (x ++ '\n' :: y) ++ '\n' :: lastLine u := by
      conv_lhs => rw [hu]
      simp
    rw [hwhole, lastLine_behind_feed _ hfeed]

/-! ## Signs -/

/-- A character that is neither blank nor part of a line break, a delimiter or a token's edge. -/
def isSign (c : Char) : Bool :=
  !(isBlank c || c == '\r' || c == '\n' || c == '%' || c == '>' || c == '\x00')

theorem isSign_iff {c : Char} : isSign c = true ↔
    isBlank c = false ∧ c ≠ '\r' ∧ c ≠ '\n' ∧ c ≠ '%' ∧ c ≠ '>' ∧ c ≠ '\x00' := by
  simp only [isSign, Bool.not_eq_true', Bool.or_eq_false_iff, beq_eq_false_iff_ne, and_assoc]

/-! ## Padding -/

/-- Code and markup put together, with the code padded. -/
def padded (hosts : List Text) (w : Weave) : Text :=
  joinPadded w.head (hosts.zip (w.rest.map Prod.snd))

theorem padBeforeClose_sign (x : Text) {c : Char} (hc : isBlank c = false) (e : Text) :
    ∃ e', padBeforeClose (x ++ c :: e) = x ++ c :: e' := by
  rw [padBeforeClose]
  split
  · exact ⟨e, rfl⟩
  · refine ⟨dropEnd isBlank e ++ [' '], ?_⟩
    rw [dropEnd_cut hc]
    simp

theorem joinPadded_sign (x : Text) {c : Char} (hc : isBlank c = false) (e : Text)
    (more : List (Text × Text)) : ∃ e', joinPadded (x ++ c :: e) more = x ++ c :: e' := by
  cases more with
  | nil => exact ⟨e, rfl⟩
  | cons p more =>
    obtain ⟨host, after⟩ := p
    rw [joinPadded]
    split
    · obtain ⟨e', he⟩ := padBeforeClose_sign x hc e
      rw [he, List.append_assoc, List.append_assoc]
      exact ⟨_, rfl⟩
    · rw [List.append_assoc, List.append_assoc]
      exact ⟨_, rfl⟩

/-- Behind a line feed an opening delimiter pads nothing. -/
theorem padAfterOpen_feed (g : Text) :
    ∃ x, ∀ z, padAfterOpen (g ++ '\n' :: z) = x ++ '\n' :: z := by
  have hline : ∀ z, firstLine (g ++ '\n' :: z) = firstLine (g ++ ['\n']) := by
    intro z
    rw [firstLine, firstLine, List.takeWhile_append, List.takeWhile_append,
      List.takeWhile_cons_of_neg (by simp), List.takeWhile_cons_of_neg (by simp)]
  have hbare : ∀ z, (g ++ '\n' :: z).dropWhile isBlank = g.dropWhile isBlank ++ '\n' :: z :=
    dropWhile_cut (by decide) g
  have hhead : ∀ z, (g.dropWhile isBlank ++ '\n' :: z).head? =
      (g.dropWhile isBlank ++ ['\n']).head? := by
    intro z
    rw [List.head?_append, List.head?_append, List.head?_cons, List.head?_cons]
  simp only [padAfterOpen_eq, hline, hbare, hhead]
  split
  · exact ⟨_, fun _ => rfl⟩
  · exact ⟨' ' :: g.dropWhile isBlank, fun _ => rfl⟩

/-- Markup in front of a line feed and what is behind a sign leave what stands between them. The
induction is on the runs of markup in front; the code after each is padded or not, which is `f`. -/
theorem joinPadded_feed {f : Text → Text} (hf : ∀ g, ∃ x, ∀ z, f (g ++ '\n' :: z) = x ++ '\n' :: z)
    (w : Weave) {hosts : List Text} (hlen : w.rest.length ≤ hosts.length) :
    ∃ x, (∀ z, joinPadded (f (w.append ⟨'\n' :: z, []⟩).head)
        (hosts.zip ((w.append ⟨'\n' :: z, []⟩).rest.map Prod.snd)) = x ++ '\n' :: z) ∧
      ∀ z c e more, isBlank c = false → ∃ e',
        joinPadded (f (w.append ⟨'\n' :: (z ++ c :: e), more⟩).head)
          (hosts.zip ((w.append ⟨'\n' :: (z ++ c :: e), more⟩).rest.map Prod.snd)) =
        x ++ '\n' :: (z ++ c :: e') := by
  obtain ⟨h, rest⟩ := w
  induction rest generalizing h f hosts with
  | nil =>
    obtain ⟨x, hx⟩ := hf h
    refine ⟨x, fun z => ?_, fun z c e more hc => ?_⟩
    · simp only [Weave.append_last, hx, List.map_nil, List.zip_nil_right, joinPadded]
    · simp only [Weave.append_last, hx]
      obtain ⟨e', he⟩ := joinPadded_sign (x ++ '\n' :: z) hc e (hosts.zip (more.map Prod.snd))
      refine ⟨e', ?_⟩
      simpa using he
  | cons p rest ih =>
    obtain ⟨host, hosts, rfl⟩ :=
      List.exists_cons_of_length_pos (l := hosts) (by simp at hlen; omega)
    let pad : Text → Text := fun after =>
      if endsWith ['<', '%'] host then padAfterOpen after else after
    have hpad : ∀ g, ∃ x, ∀ z, pad (g ++ '\n' :: z) = x ++ '\n' :: z := by
      intro g
      simp only [pad]
      split
      · exact padAfterOpen_feed g
      · exact ⟨g, fun _ => rfl⟩
    have hlen' : rest.length ≤ hosts.length := by simpa using hlen
    obtain ⟨x, hx, hsign⟩ := ih hpad p.2 hlen'
    let before := (if ['%', '>'].isPrefixOf host then padBeforeClose (f h) else f h) ++ host
    have hstep : ∀ v, joinPadded (f (Weave.append ⟨h, p :: rest⟩ v).head)
        ((host :: hosts).zip ((Weave.append ⟨h, p :: rest⟩ v).rest.map Prod.snd)) =
          before ++ joinPadded (pad (Weave.append ⟨p.2, rest⟩ v).head)
            (hosts.zip ((Weave.append ⟨p.2, rest⟩ v).rest.map Prod.snd)) := by
      intro v
      rw [Weave.append_cons, List.map_cons, List.zip_cons_cons, joinPadded]
    refine ⟨before ++ x, fun z => ?_, fun z c e more hc => ?_⟩
    · rw [hstep, hx, List.append_assoc before]
    · obtain ⟨e', he⟩ := hsign z c e more hc
      refine ⟨e', ?_⟩
      rw [hstep, he, List.append_assoc before]

/-- Up to a sign, a text is padded as it would be if it ended there, if no markup stands before the
sign on its line. -/
theorem padded_front {hosts : List Text} {a b : Text} {c : Char}
    (hlen : (cutTokens .markup a).rest.length ≤ hosts.length) (hfree : '\x00' ∉ lastLine a)
    (hsign : isSign c = true) :
    ∃ e, padded hosts (cutTokens .markup (a ++ c :: b)) =
        padded hosts (cutTokens .markup a) ++ c :: e ∧
      (padded hosts (cutTokens .markup a) = lastLine a ∨
        ∃ x, padded hosts (cutTokens .markup a) = x ++ '\n' :: lastLine a) := by
  obtain ⟨hblank, _, _, _, _, hnul⟩ := isSign_iff.mp hsign
  have hpush : ∀ t, cutTokens .markup (c :: t) = (cutTokens .markup t).prepend [c] := fun t =>
    cutTokens_char .markup hnul t
  obtain ⟨_, ha | ⟨x, ha⟩⟩ := lastLine_cases a
  · -- the text has one line
    rw [← ha] at hfree
    obtain ⟨e, he⟩ := joinPadded_sign a hblank (cutTokens .markup b).head
      (hosts.zip ((cutTokens .markup b).rest.map Prod.snd))
    have hcode : padded hosts (cutTokens .markup a) = a := by
      rw [cutTokens_free .markup hfree, padded, List.map_nil, List.zip_nil_right, joinPadded]
    refine ⟨e, ?_, .inl (hcode.trans ha)⟩
    rw [hcode, cutTokens_nul_free .markup hfree, hpush]
    exact he
  · have hfeed : ∀ u, cutTokens .markup (x ++ '\n' :: u) =
        (cutTokens .markup x).append (cutTokens .markup ('\n' :: u)) := fun u =>
      cutTokens_append rfl
    have hrest : (cutTokens .markup x).rest.length ≤ hosts.length := by
      rw [ha, hfeed, Weave.rest_append] at hlen
      omega
    obtain ⟨y, hy, hmore⟩ := joinPadded_feed (f := id) (fun g => ⟨g, fun _ => rfl⟩)
      (cutTokens .markup x) hrest
    obtain ⟨e, he⟩ :=
      hmore (lastLine a) c (cutTokens .markup b).head (cutTokens .markup b).rest hblank
    have hline : '\x00' ∉ '\n' :: lastLine a := by
      rw [List.mem_cons, not_or]
      exact ⟨by decide, hfree⟩
    have hcode : padded hosts (cutTokens .markup a) = y ++ '\n' :: lastLine a := by
      rw [ha, hfeed, cutTokens_free .markup hline, ← ha]
      exact hy (lastLine a)
    refine ⟨e, ?_, .inr ⟨y, hcode⟩⟩
    have hwhole : a ++ c :: b = x ++ '\n' :: (lastLine a ++ c :: b) := by
      conv_lhs => rw [ha]
      simp
    rw [hcode, hwhole, hfeed, ← List.cons_append, cutTokens_nul_free .markup hline, hpush]
    refine Eq.trans ?_ (he.trans (by simp))
    simp [padded, Weave.prepend]

/-! ## Fences -/

section
variable {newline : Text}

/-- A line break at the start of a text is dropped before it is known what comes behind. -/
theorem dropNewline_feed (u : Text) : (∀ z, dropNewline (u ++ '\n' :: z) = z) ∨
    ∀ z, dropNewline (u ++ '\n' :: z) = dropNewline u ++ '\n' :: z := by
  by_cases hboth : ∃ v, u = '\r' :: '\n' :: v
  · obtain ⟨v, rfl⟩ := hboth
    exact .inr fun _ => rfl
  by_cases hfeed : ∃ v, u = '\n' :: v
  · obtain ⟨v, rfl⟩ := hfeed
    exact .inr fun _ => rfl
  by_cases hnil : u = []
  · subst hnil
    exact .inl fun _ => rfl
  by_cases hreturn : u = ['\r']
  · subst hreturn
    exact .inl fun _ => rfl
  refine .inr fun z => ?_
  obtain ⟨c, u, rfl⟩ := List.exists_cons_of_ne_nil hnil
  rw [dropNewline_of_other hboth hfeed, dropNewline_of_other]
  · rintro ⟨v, hv⟩
    rw [List.cons_append, List.cons.injEq] at hv
    obtain ⟨rfl, hv⟩ := hv
    cases u with
    | nil => exact hreturn rfl
    | cons d u =>
      rw [List.cons_append, List.cons.injEq] at hv
      obtain ⟨rfl, _⟩ := hv
      exact hboth ⟨u, rfl⟩
  · rintro ⟨v, hv⟩
    obtain ⟨rfl, _⟩ := List.cons.inj hv
    exact hfeed ⟨u, rfl⟩

theorem withoutOpening_feed (hn : ∃ n, newline = n ++ ['\n']) (x : Text) :
    ∃ y, ∀ z, withoutOpening newline (x ++ '\n' :: z) = y ++ '\n' :: withoutOpening newline z := by
  generalize hlen : x.length = n
  induction n using Nat.strongRecOn generalizing x with
  | _ n ih =>
    rcases nul_cases x with hx | ⟨p, u, hp, rfl⟩
    · refine ⟨x, fun z => ?_⟩
      have hfree : '\x00' ∉ x ++ ['\n'] := by simp [hx]
      have h := @withoutOpening_free newline _ hfree z
      simpa using h
    · rw [List.length_append, List.length_cons] at hlen
      by_cases hfence : ∃ w, '\x00' :: u = openFence ++ w
      · obtain ⟨w, hw⟩ := hfence
        have hshort : (afterOpening w).length < n := by
          have hless := length_afterOpening_lt w
          rw [← hw, List.length_cons] at hless
          omega
        have hhit : ∀ z, withoutOpening newline (p ++ '\x00' :: u ++ '\n' :: z) =
            p ++ (newline ++ withoutOpening newline (afterOpening (w ++ '\n' :: z))) := by
          intro z
          rw [hw, List.append_assoc, withoutOpening_free hp, List.append_assoc, withoutOpening_hit]
        have hbare : ∀ z, afterOpening (w ++ '\n' :: z) =
            dropNewline (w.dropWhile isBlank ++ '\n' :: z) := by
          intro z
          rw [afterOpening, dropWhile_cut (by decide)]
        rcases dropNewline_feed (w.dropWhile isBlank) with hdrop | hdrop
        · -- the fence takes the line feed with it, and leaves the line break in its place
          obtain ⟨n, rfl⟩ := hn
          refine ⟨p ++ n, fun z => ?_⟩
          rw [hhit, hbare, hdrop]
          simp
        · obtain ⟨y, hy⟩ := ih _ hshort (afterOpening w) rfl
          refine ⟨p ++ (newline ++ y), fun z => ?_⟩
          have hkeep : afterOpening (w ++ '\n' :: z) = afterOpening w ++ '\n' :: z :=
            (hbare z).trans (hdrop z)
          rw [hhit, hkeep, hy]
          simp
      · -- a fence that reached over the line feed would have one in it
        have hmiss : ∀ z w, '\x00' :: (u ++ '\n' :: z) ≠ openFence ++ w := by
          intro z w hw
          rcases List.append_eq_append_iff.mp (show ('\x00' :: u) ++ '\n' :: z = _ from hw) with
            ⟨a, ha, hz⟩ | ⟨a, ha, _⟩
          · cases a with
            | nil => exact hfence ⟨[], by rw [ha]; simp⟩
            | cons d a =>
              obtain ⟨rfl, _⟩ := List.cons.inj hz
              have hmem : '\n' ∈ openFence := by rw [ha]; simp
              exact absurd hmem (by decide)
          · exact hfence ⟨a, ha⟩
        obtain ⟨y, hy⟩ := ih u.length (by omega) u rfl
        refine ⟨p ++ '\x00' :: y, fun z => ?_⟩
        rw [List.append_assoc, withoutOpening_free hp, List.cons_append,
          withoutOpening_miss (hmiss z), hy]
        simp

/-- No closing fence starts in code in front of a text and ends in the text. -/
def Guarded (t : Text) : Prop :=
  ∀ q, '\x00' ∉ q → dropCloseFence? (q ++ t) = none

theorem guarded_free {t : Text} (h : '\x00' ∉ t) : Guarded t := by
  intro q hq
  apply dropCloseFence?_of_nul_free
  rw [List.mem_append, not_or]
  exact ⟨hq, h⟩

/-- A sign is no part of what a closing fence takes with it. -/
theorem not_isClosing_of_sign {s : Text} {c : Char} (hc : isSign c = true) (hs : c ∈ s) :
    isClosing s = false := by
  obtain ⟨hblank, hreturn, hfeed, hpercent, hgreater, _⟩ := isSign_iff.mp hc
  have hbreak : c ∈ dropNewline s := by
    unfold dropNewline
    split
    · simpa [hreturn, hfeed] using hs
    · simpa [hfeed] using hs
    · exact hs
  have hbare : c ∈ (dropNewline s).dropWhile isBlank := by
    rw [← List.takeWhile_append_dropWhile (p := isBlank) (l := dropNewline s)] at hbreak
    rcases List.mem_append.mp hbreak with h | h
    · have := List.all_eq_true.mp List.all_takeWhile c h
      rw [hblank] at this
      cases this
    · exact h
  rw [isClosing, beq_eq_false_iff_ne]
  intro heq
  rw [heq] at hbare
  simp [hpercent, hgreater] at hbare

theorem guarded_sign {v : Text} {c : Char} (hv : '\x00' ∉ v) (hc : isSign c = true) (e : Text) :
    Guarded (v ++ c :: e) := by
  intro q hq
  have hnul : c ≠ '\x00' := (isSign_iff.mp hc).2.2.2.2.2
  have hcode : ∀ {p}, '\x00' ∉ p → '\x00' ∉ q ++ (v ++ c :: p) := by
    intro p hp
    simp [hq, hv, hp, hnul.symm]
  rcases nul_cases e with he | ⟨p, u, hp, rfl⟩
  · exact dropCloseFence?_of_nul_free (hcode he)
  · have hwhole : q ++ (v ++ c :: (p ++ '\x00' :: u)) = (q ++ (v ++ c :: p)) ++ '\x00' :: u := by
      simp
    rw [hwhole]
    exact (dropCloseFence?_nul (hcode hp) u).2 (.inl (not_isClosing_of_sign hc (by simp)))

theorem withoutClosing_guarded {q t : Text} (hq : '\x00' ∉ q) (ht : Guarded t) :
    withoutClosing newline (q ++ t) = q ++ withoutClosing newline t := by
  induction q with
  | nil => rfl
  | cons c q ih =>
    have hmiss : dropCloseFence? (c :: (q ++ t)) = none := ht (c :: q) hq
    rw [List.cons_append, withoutClosing, replace_ofRest_miss newline hmiss]
    exact congrArg _ (ih fun hm => hq (List.mem_cons_of_mem _ hm))

theorem withoutClosing_sign {v : Text} {c : Char} (hv : '\x00' ∉ v) (hc : isSign c = true)
    (e : Text) : withoutClosing newline (v ++ c :: e) = v ++ c :: withoutClosing newline e := by
  have hguard : Guarded (c :: e) := @guarded_sign [] c (by simp) hc e
  rw [withoutClosing_guarded hv hguard]
  exact congrArg _ (replace_ofRest_miss newline (hguard [] (by simp)))

theorem withoutClosing_feed (x : Text) : ∃ y, ∀ z, Guarded z →
    withoutClosing newline (x ++ '\n' :: z) = y ++ '\n' :: withoutClosing newline z := by
  generalize hlen : x.length = n
  induction n using Nat.strongRecOn generalizing x with
  | _ n ih =>
    rcases nul_cases x with hx | ⟨p, u, hp, rfl⟩
    · refine ⟨x, fun z hz => ?_⟩
      have hfree : '\x00' ∉ x ++ ['\n'] := by simp [hx]
      have h := @withoutClosing_guarded newline _ _ hfree hz
      simpa using h
    · rw [List.length_append, List.length_cons] at hlen
      by_cases hfence : ['%', '>'] <:+ p ∧ ∃ v, u = Mark.fence.name ++ '\x00' :: v
      · obtain ⟨hend, v, rfl⟩ := hfence
        rw [List.length_append, List.length_cons] at hlen
        obtain ⟨y, hy⟩ := ih v.length (by omega) v rfl
        refine ⟨beforeClosing p ++ (newline ++ y), fun z hz => ?_⟩
        have hwhole : p ++ '\x00' :: (Mark.fence.name ++ '\x00' :: v) ++ '\n' :: z =
            p ++ '\x00' :: (Mark.fence.name ++ '\x00' :: (v ++ '\n' :: z)) := by simp
        rw [hwhole, withoutClosing_hit hp hend, hy z hz]
        simp
      · -- here too the line feed is in the way of a fence
        have hmiss : ∀ z, (¬ ['%', '>'] <:+ p) ∨
            ∀ v, u ++ '\n' :: z ≠ Mark.fence.name ++ '\x00' :: v := by
          intro z
          by_cases hend : ['%', '>'] <:+ p
          case neg => exact .inl hend
          case pos =>
            refine .inr fun v hv => hfence ⟨hend, ?_⟩
            have hv' : u ++ '\n' :: z = (Mark.fence.name ++ ['\x00']) ++ v := by simpa using hv
            rcases List.append_eq_append_iff.mp hv' with ⟨a, ha, hz⟩ | ⟨a, ha, _⟩
            · cases a with
              | nil =>
                refine ⟨[], ?_⟩
                rw [← List.append_nil u, ← ha]
              | cons d a =>
                obtain ⟨rfl, _⟩ := List.cons.inj hz
                have hmem : '\n' ∈ Mark.fence.name ++ ['\x00'] := by rw [ha]; simp
                exact absurd hmem (by decide)
            · exact ⟨a, by simpa using ha⟩
        obtain ⟨y, hy⟩ := ih u.length (by omega) u rfl
        refine ⟨p ++ '\x00' :: y, fun z hz => ?_⟩
        rw [List.append_assoc, List.cons_append, withoutClosing_miss hp (hmiss z), hy z hz]
        simp

/-- Up to a sign, the fences are taken away as if the text ended there. -/
theorem unfence_front (hn : ∃ n, newline = n ++ ['\n']) {t v : Text} {c : Char} (hv : '\x00' ∉ v)
    (hc : isSign c = true) (ht : t = v ∨ ∃ x, t = x ++ '\n' :: v) (e : Text) :
    ∃ e', unfenceScripts newline (t ++ c :: e) = unfenceScripts newline t ++ c :: e' ∧
      (unfenceScripts newline t = v ∨ ∃ x, unfenceScripts newline t = x ++ '\n' :: v) := by
  have hunfence : ∀ t,
      unfenceScripts newline t = withoutClosing newline (withoutOpening newline t) :=
    fun _ => rfl
  have hnul : '\x00' ∉ v ++ [c] := by
    have := (isSign_iff.mp hc).2.2.2.2.2
    simp [hv, this.symm]
  have hopening : withoutOpening newline (v ++ c :: e) = v ++ c :: withoutOpening newline e := by
    have h := @withoutOpening_free newline _ hnul e
    simpa using h
  have hkeep : withoutOpening newline v = v := withoutOpening_all hv
  refine ⟨withoutClosing newline (withoutOpening newline e), ?_⟩
  rcases ht with rfl | ⟨x, rfl⟩
  · rw [hunfence, hunfence, hopening, hkeep, withoutClosing_sign hv hc, withoutClosing_free hv]
    exact ⟨rfl, .inl rfl⟩
  · obtain ⟨y, hy⟩ := withoutOpening_feed hn x
    obtain ⟨y', hy'⟩ := @withoutClosing_feed newline y
    have hline : unfenceScripts newline (x ++ '\n' :: v) = y' ++ '\n' :: v := by
      rw [hunfence, hy, hkeep, hy' v (guarded_free hv), withoutClosing_free hv]
    rw [hline]
    refine ⟨?_, .inr ⟨y', rfl⟩⟩
    have hwhole : x ++ '\n' :: v ++ c :: e = x ++ '\n' :: (v ++ c :: e) := by simp
    rw [hwhole, hunfence, hy, hopening, hy' _ (guarded_sign hv hc _), withoutClosing_sign hv hc]
    simp

end

/-! ## Both -/

/-- Markup is put back, code padded and fences taken away up to a sign as if the text ended there,
and the line of the sign is the same before it. -/
theorem putBack_front {newline : Text} (hn : ∃ n, newline = n ++ ['\n']) {hosts : List Text}
    {a b : Text} {c : Char} (hlen : (cutTokens .markup a).rest.length ≤ hosts.length)
    (hfree : '\x00' ∉ lastLine a) (hc : isSign c = true) :
    ∃ rest, unfenceScripts newline (padded hosts (cutTokens .markup (a ++ c :: b))) =
        unfenceScripts newline (padded hosts (cutTokens .markup a)) ++ c :: rest ∧
      lastLine (unfenceScripts newline (padded hosts (cutTokens .markup a))) = lastLine a := by
  obtain ⟨e, he, hline⟩ := @padded_front hosts a b c hlen hfree hc
  obtain ⟨e', he', hline'⟩ := unfence_front hn hfree hc hline e
  refine ⟨e', by rw [he, he'], ?_⟩
  have hfeed := (lastLine_cases a).1
  rcases hline' with h | ⟨x, h⟩
  · rw [h, lastLine_of_no_feed hfeed]
  · rw [h, lastLine_behind_feed x hfeed]

/-- Without padding the line before the sign is the same too. -/
theorem lastLine_fillWith {a : Text} (hfree : '\x00' ∉ lastLine a) (ls : List Text)
    (hlen : (cutTokens .markup a).rest.length ≤ ls.length) :
    lastLine ((cutTokens .markup a).fillWith ls) = lastLine a := by
  obtain ⟨hfeed, ha | ⟨x, ha⟩⟩ := lastLine_cases a
  · rw [← ha] at hfree
    rw [cutTokens_free .markup hfree]
    simp [Weave.fillWith]
  · have hline : '\x00' ∉ '\n' :: lastLine a := by
      rw [List.mem_cons, not_or]
      exact ⟨by decide, hfree⟩
    have hcut : cutTokens .markup a = (cutTokens .markup x).append ⟨'\n' :: lastLine a, []⟩ := by
      conv_lhs => rw [ha]
      rw [cutTokens_append rfl, cutTokens_free .markup hline]
    rw [hcut, Weave.rest_append] at hlen
    rw [hcut, Weave.fillWith_append_drop (by omega)]
    have hlast : (Weave.mk ('\n' :: lastLine a) []).fillWith
        (ls.drop (cutTokens .markup x).rest.length) = '\n' :: lastLine a := by simp [Weave.fillWith]
    rw [hlast, lastLine_behind_feed _ hfeed]

end VbTidy
