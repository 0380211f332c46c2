import VbTidy.Proofs.Unfenced
import VbTidy.Proofs.StyleOnly

/-
Texts whose NUL characters all belong to whole fences. A document with its fences written into it is
one (`whole_fenceFrom`), and so is each run of markup that is cut out of it (`whole_markup`). Padding
code and joining it with the runs of markup keeps fences whole (`whole_joinPadded`), and taking the
fences away from such a text leaves no NUL (`nul_not_mem_unfenceScripts`). Behind a closing fence
stands the bracket of a tag: were it a delimiter, the boundary token would be taken for that of an
opening fence.
-/
namespace VbTidy

/-! ## Whole fences -/

/-- Where a character stands at the end and nowhere before, it stands at the end only. -/
theorem last_unique {c : Char} {s p n : Text} (hn : c ∉ n) (h : s ++ c :: p = n ++ [c]) :
    s = n ∧ p = [] := by
  rcases List.append_eq_append_iff.mp h with ⟨a, rfl, ha⟩ | ⟨a, rfl, ha⟩
  · cases a with
    | nil => exact ⟨by simp, (List.cons.inj ha).2⟩
    | cons d a =>
      obtain rfl : c = d := (List.cons.inj ha).1
      exact absurd (by simp) hn
  · cases a with
    | nil => exact ⟨by simp, (List.cons.inj ha).2.symm⟩
    | cons d a => simp at ha

/-- What a character other than NUL keeps is kept by a text without NUL. -/
theorem free_append_induction {P : Text → Prop}
    (char : ∀ {c t}, c ≠ '\x00' → P t → P (c :: t)) {s t : Text} (hs : '\x00' ∉ s) (ht : P t) :
    P (s ++ t) := by
  induction s with
  | nil => exact ht
  | cons c s ih =>
    rw [List.mem_cons, not_or] at hs
    exact char (Ne.symm hs.1) (ih hs.2)

/-- A text of fences and of characters other than NUL. Behind a closing fence stands the bracket of
a tag, and no opening delimiter. -/
inductive Whole : Text → Prop
  | nil : Whole []
  | char {c : Char} {t : Text} (hc : c ≠ '\x00') (ht : Whole t) : Whole (c :: t)
  | opening {t : Text} (ht : Whole t) : Whole (openFence ++ t)
  | closing {c : Char} {t : Text} (hc : c ≠ '%') (ht : Whole ('<' :: c :: t)) :
      Whole (closeFence ++ '<' :: c :: t)

namespace Whole
variable {s t : Text}

theorem append (hs : Whole s) (ht : Whole t) : Whole (s ++ t) := by
  induction hs with
  | nil => exact ht
  | char hc _ ih => exact .char hc ih
  | opening _ ih =>
    rw [List.append_assoc]
    exact .opening ih
  | closing hc _ ih =>
    rw [List.append_assoc]
    exact .closing hc ih

theorem of_nul_free (h : '\x00' ∉ t) : Whole t := by
  simpa using free_append_induction (P := Whole) .char h .nil

theorem tail {c : Char} (hc : c ≠ '\x00') (hd : c ≠ '%') (h : Whole (c :: t)) : Whole t := by
  generalize hu : c :: t = u at h
  cases h with
  | nil => cases hu
  | char _ ht =>
    obtain ⟨_, rfl⟩ := List.cons.inj hu
    exact ht
  | opening _ =>
    rw [openFence_append] at hu
    exact absurd (List.cons.inj hu).1 hc
  | closing _ _ =>
    rw [closeFence_append] at hu
    exact absurd (List.cons.inj hu).1 hd

theorem dropWhile {p : Char → Bool} (hnul : p '\x00' = false) (hp : p '%' = false)
    (h : Whole t) : Whole (t.dropWhile p) := by
  induction t with
  | nil => exact h
  | cons c t ih =>
    cases hc : p c with
    | true =>
      rw [List.dropWhile_cons_of_pos hc]
      refine ih (h.tail ?_ ?_)
      · rintro rfl
        rw [hnul] at hc
        cases hc
      · rintro rfl
        rw [hp] at hc
        cases hc
    | false => rwa [List.dropWhile_cons_of_neg (by simp [hc])]

/-- Behind a closing fence the rest of a text may be exchanged, if something of it is kept and no
opening delimiter comes about. -/
theorem closing_exchange {c : Char} {w a v : Text} (hc : c ≠ '%') (hw : '<' :: c :: w = a ++ t)
    (ha : a ≠ []) (hv : v ≠ [] ∧ v.head? ≠ some '%') (h : Whole (a ++ v)) :
    Whole (closeFence ++ (a ++ v)) := by
  match a with
  | [] => exact absurd rfl ha
  | [d] =>
    obtain rfl : '<' = d := (List.cons.inj hw).1
    obtain ⟨e, v, rfl⟩ := List.exists_cons_of_ne_nil hv.1
    exact .closing (by simpa using hv.2) h
  | d :: e :: a =>
    obtain ⟨rfl, rfl, _⟩ : '<' = d ∧ c = e ∧ w = a ++ t := by simpa using hw
    exact .closing hc h

/-- Blanks at the end may be exchanged for a space. -/
theorem space_end (hblank : ∀ c ∈ t, isBlank c = true) (h : Whole (s ++ t)) :
    Whole (s ++ [' ']) := by
  have hnot : ∀ {c : Char}, isBlank c = false → c ∉ t := by
    intro c hc hmem
    rw [hblank c hmem] at hc
    cases hc
  generalize heq : s ++ t = w at h
  induction h generalizing s with
  | nil =>
    obtain ⟨rfl, _⟩ := List.append_eq_nil_iff.mp heq
    exact .of_nul_free (by decide)
  | @char c w hc _ ih =>
    cases s with
    | nil => exact .of_nul_free (by decide)
    | cons d s =>
      obtain ⟨rfl, hrest⟩ := List.cons.inj heq
      exact .char hc (ih hrest)
  | @opening w _ ih =>
    rcases List.append_eq_append_iff.mp heq with ⟨a, hopen, rfl⟩ | ⟨a, rfl, hw⟩
    · rcases List.eq_nil_or_concat' a with rfl | ⟨a, e, rfl⟩
      · rw [List.append_nil] at hopen
        rw [← hopen]
        exact .opening (.of_nul_free (by decide))
      · rw [← List.append_assoc] at hopen
        have hlast : (Mark.fence.token ++ ['<']) ++ ['%'] = (s ++ a) ++ [e] := hopen
        obtain ⟨_, rfl⟩ := List.append_singleton_inj.mp hlast
        exact absurd (by simp) (hnot (c := '%') (by decide))
    · rw [List.append_assoc]
      exact .opening (ih hw.symm)
  | @closing c w hc _ ih =>
    have hbracket : '<' ∉ t := hnot (by decide)
    rcases List.append_eq_append_iff.mp heq with ⟨a, _, rfl⟩ | ⟨a, rfl, hw⟩
    · exact absurd (by simp) hbracket
    · rw [List.append_assoc]
      refine closing_exchange hc hw ?_ (by decide) (ih hw.symm)
      rintro rfl
      rw [List.nil_append] at hw
      rw [← hw] at hbracket
      exact hbracket List.mem_cons_self

/-- A percent sign is not inside a fence but where one opens or closes. -/
theorem from_percent {u z : Text} (h : Whole (u ++ '%' :: z)) : Whole ('%' :: z) := by
  generalize heq : u ++ '%' :: z = w at h
  induction h generalizing u with
  | nil => simp at heq
  | @char c t hc ht ih =>
    cases u with
    | nil =>
      obtain ⟨rfl, rfl⟩ := List.cons.inj heq
      exact .char hc ht
    | cons d u => exact ih (List.cons.inj heq).2
  | @opening t ht ih =>
    rcases List.append_eq_append_iff.mp heq with ⟨a, hopen, hz⟩ | ⟨a, rfl, hz⟩
    · cases a with
      | nil =>
        rw [List.nil_append] at hz
        rwa [hz]
      | cons d a =>
        obtain ⟨rfl, rfl⟩ := List.cons.inj hz
        have hfence : u ++ '%' :: a = (Mark.fence.token ++ ['<']) ++ ['%'] := hopen.symm
        obtain ⟨_, rfl⟩ := last_unique (by decide) hfence
        exact .char (by decide) ht
    · exact ih hz.symm
  | @closing c t hc ht ih =>
    rcases List.append_eq_append_iff.mp heq with ⟨a, hclose, hz⟩ | ⟨a, rfl, hz⟩
    · cases a with
      | nil => exact absurd (List.cons.inj hz).1 (by decide)
      | cons d a =>
        obtain ⟨rfl, rfl⟩ := List.cons.inj hz
        cases u with
        | nil =>
          rw [List.nil_append] at hclose
          have hwhole : '%' :: (a ++ '<' :: c :: t) = closeFence ++ '<' :: c :: t := by
            rw [hclose, List.cons_append]
          exact hwhole ▸ .closing hc ht
        | cons e u =>
          have hmem : '%' ∈ '>' :: Mark.fence.token := by
            have hrest : '>' :: Mark.fence.token = u ++ '%' :: a := (List.cons.inj hclose).2
            rw [hrest]
            simp
          exact absurd hmem (by decide)
    · exact ih hz.symm

/-- No fence goes on behind an opening delimiter. -/
theorem through_opening {u z : Text} (h : Whole (u ++ '<' :: '%' :: z)) :
    Whole (u ++ ['<', '%']) := by
  generalize heq : u ++ '<' :: '%' :: z = w at h
  induction h generalizing u with
  | nil => simp at heq
  | @char c t hc ht ih =>
    cases u with
    | nil => exact .of_nul_free (by decide)
    | cons d u =>
      obtain ⟨rfl, hrest⟩ := List.cons.inj heq
      exact .char hc (ih hrest)
  | @opening t ht ih =>
    rcases List.append_eq_append_iff.mp heq with ⟨a, hopen, hz⟩ | ⟨a, rfl, hz⟩
    · match a with
      | [] =>
        rw [List.append_nil] at hopen
        rw [← hopen]
        exact .opening (.of_nul_free (by decide))
      | [d] =>
        obtain rfl : '<' = d := (List.cons.inj hz).1
        have hlast : (Mark.fence.token ++ ['<']) ++ ['%'] = u ++ ['<'] := hopen
        exact absurd (List.append_singleton_inj.mp hlast).2 (by decide)
      | d :: e :: a =>
        obtain ⟨rfl, rfl, rfl⟩ : '<' = d ∧ '%' = e ∧ z = a ++ t := by simpa using hz
        have hfence : (u ++ ['<']) ++ '%' :: a = (Mark.fence.token ++ ['<']) ++ ['%'] := by
          rw [List.append_assoc]
          exact hopen.symm
        obtain ⟨_, rfl⟩ := last_unique (by decide) hfence
        rw [← hopen, ← List.append_nil openFence]
        exact .opening .nil
    · rw [List.append_assoc]
      exact .opening (ih hz.symm)
  | @closing c t hc ht ih =>
    rcases List.append_eq_append_iff.mp heq with ⟨a, hclose, hz⟩ | ⟨a, rfl, hz⟩
    · cases a with
      | nil => exact absurd (List.cons.inj (List.cons.inj hz).2).1.symm hc
      | cons d a =>
        obtain rfl : '<' = d := (List.cons.inj hz).1
        have hmem : '<' ∈ closeFence := by
          rw [hclose]
          simp
        exact absurd hmem (by decide)
    · rw [List.append_assoc]
      refine closing_exchange hc hz ?_ (by decide) (ih hz.symm)
      rintro rfl
      exact hc (List.cons.inj (List.cons.inj hz).2).1

end Whole

/-- A tag that closes a block goes on behind its first bracket. -/
theorem dropCloseTag?_behind {c : Char} {t rest : Text} (h : dropCloseTag? (c :: t) = some rest) :
    ∃ d u, t = d :: (u ++ rest) ∧ d ≠ '%' := by
  unfold dropCloseTag? at h
  split at h
  · rename_i t' heq
    obtain ⟨rfl, rfl⟩ := List.cons.inj heq
    split at h
    · rename_i v hslash
      have hrest : rest <:+ v := by
        split at h
        · rename_i after hword
          cases h
          obtain ⟨w, hw, hdrop⟩ := Option.map_eq_some_iff.mp hword
          have hbehind : '>' :: rest <:+ v := by
            rw [← hdrop]
            exact (List.dropWhile_suffix _).trans
              ((suffix_dropWord? hw).trans (List.dropWhile_suffix _))
          exact (List.suffix_cons '>' rest).trans hbehind
        · cases h
      obtain ⟨x, hx⟩ := (hslash ▸ List.dropWhile_suffix isSpace : '/' :: v <:+ t)
      obtain ⟨y, rfl⟩ := hrest
      cases x with
      | nil => exact ⟨'/', y, hx.symm, by decide⟩
      | cons d x =>
        refine ⟨d, x ++ '/' :: y, by rw [← hx]; simp, ?_⟩
        rintro rfl
        rw [← hx, List.cons_append, List.dropWhile_cons_of_neg (by decide)] at hslash
        cases hslash
    · cases h
  · cases h

theorem whole_fenceFrom {inBlock quoted due : Bool} {skip : Nat} {t : Text} (ht : '\x00' ∉ t) :
    Whole ((fenceFrom inBlock quoted due skip t).flatMap Fenced.written) := by
  induction t generalizing inBlock quoted due skip with
  | nil =>
    rw [fenceFrom]
    exact .nil
  | cons c t ih =>
    rw [List.mem_cons, not_or] at ht
    have hc : c ≠ '\x00' := fun h => ht.1 h.symm
    cases skip with
    | succ skip =>
      rw [fenceFrom, List.flatMap_cons, List.flatMap_append]
      refine .char hc ?_
      split
      · exact .opening (ih ht.2)
      · exact ih ht.2
    | zero =>
      rw [fenceFrom]
      split
      · exact .char hc (ih ht.2)
      · rename_i rest hrest
        simp only
        split
        · exact .char hc (ih ht.2)
        · split
          · rename_i hblock
            rw [if_pos hblock] at hrest
            obtain rfl := dropCloseTag?_eq_some hrest
            obtain ⟨d, u, rfl, hd⟩ := dropCloseTag?_behind hrest
            obtain ⟨skip, hskip⟩ : ∃ skip, (d :: (u ++ rest)).length - rest.length = skip + 1 := by
              refine ⟨u.length, ?_⟩
              rw [List.length_cons, List.length_append]
              omega
            have hmore := @ih false (quoteAfter quoted '<') false (skip + 1) ht.2
            rw [hskip]
            rw [fenceFrom, List.flatMap_cons] at hmore ⊢
            exact .closing hd (.char (by decide) hmore)
          · exact .char hc (ih ht.2)

/-! ## Runs of markup and code between them -/

/-- Each run of markup has whole fences. -/
theorem whole_markup {raw h : Text} (hnul : '\x00' ∉ raw)
    (hh : h ∈ (Lifting.result raw).shelves.get .markup) : Whole h := by
  rw [shelves_eq, if_neg (by decide)] at hh
  obtain ⟨u, v, heq, hstart, hstop, _⟩ := host_in_markup hh
  have hall : Whole (u ++ (h ++ v)) := by
    rw [← heq]
    exact whole_fenceFrom hnul
  have hfrom : Whole (h ++ v) := by
    rcases hstart with rfl | ⟨h', rfl⟩
    · exact hall
    · exact hall.from_percent
  rcases hstop with rfl | ⟨h', rfl⟩
  · rwa [List.append_nil] at hfrom
  · rw [List.append_assoc] at hfrom
    exact hfrom.through_opening

theorem Whole.padBeforeClose {code : Text} (h : Whole code) : Whole (padBeforeClose code) := by
  rw [VbTidy.padBeforeClose]
  split
  · exact h
  · obtain ⟨s, hs, hblank⟩ := dropEnd_append isBlank code
    rw [hs] at h
    exact h.space_end hblank

theorem Whole.padAfterOpen {code : Text} (h : Whole code) : Whole (padAfterOpen code) := by
  have hbare := h.dropWhile (p := isBlank) (by decide) (by decide)
  rw [padAfterOpen_eq]
  split
  · exact hbare
  · exact .char (by decide) hbare

/-- Code with whole fences between runs of markup with whole fences. -/
theorem whole_joinPadded {code : Text} {ps : List (Text × Text)} (hcode : Whole code)
    (hps : ∀ p ∈ ps, Whole p.1 ∧ Whole p.2) : Whole (joinPadded code ps) :=
  joinPadded_induction (P := Whole) .append .padBeforeClose .padAfterOpen hcode hps

/-! ## Taking away -/

/-- A text of closing fences and of characters other than NUL. -/
inductive Closed : Text → Prop
  | nil : Closed []
  | char {c : Char} {t : Text} (hc : c ≠ '\x00') (ht : Closed t) : Closed (c :: t)
  | closing {t : Text} (ht : Closed t) : Closed (closeFence ++ t)

theorem Closed.free_append {s t : Text} (hs : '\x00' ∉ s) (ht : Closed t) : Closed (s ++ t) :=
  free_append_induction .char hs ht

theorem Whole.afterOpening {t : Text} (h : Whole t) : Whole (afterOpening t) := by
  have hbare := h.dropWhile (p := isBlank) (by decide) (by decide)
  rw [VbTidy.afterOpening]
  generalize t.dropWhile isBlank = u at hbare
  unfold dropNewline
  split
  · exact (hbare.tail (by decide) (by decide)).tail (by decide) (by decide)
  · exact hbare.tail (by decide) (by decide)
  · exact hbare

theorem prefix_beforeClosing (t : Text) : beforeClosing t <+: t := by
  induction t with
  | nil => exact List.prefix_refl _
  | cons c t ih =>
    rw [beforeClosing]
    split
    · exact List.nil_prefix
    · exact (List.prefix_cons_inj c).mpr ih

/-- Neither NUL of a closing fence before a tag is that of an opening fence. -/
theorem withoutOpening_closing {newline : Text} {c : Char} (hc : c ≠ '%') (t : Text) :
    withoutOpening newline (closeFence ++ '<' :: c :: t) =
      closeFence ++ withoutOpening newline ('<' :: c :: t) := by
  have hfirst : ∀ w, '\x00' :: (Mark.fence.name ++ '\x00' :: '<' :: c :: t) ≠ openFence ++ w := by
    intro w hw
    rw [openFence_append] at hw
    obtain ⟨_, hbehind⟩ :=
      part_unique (nul_not_mem_name .fence) (nul_not_mem_name .fence) (List.cons.inj hw).2
    exact hc (List.cons.inj (List.cons.inj hbehind).2).1
  have hsecond : ∀ w, '\x00' :: '<' :: c :: t ≠ openFence ++ w := by
    intro w hw
    rw [openFence_append] at hw
    exact absurd (List.cons.inj (List.cons.inj hw).2).1 (by decide)
  rw [closeFence_append, withoutOpening_free (by decide), withoutOpening_miss hfirst,
    withoutOpening_free (nul_not_mem_name .fence), withoutOpening_miss hsecond, ← closeFence_append]

section
variable {newline : Text} (hfree : '\x00' ∉ newline)
include hfree

/-- Without its opening fences a text of whole fences has closing ones only. -/
theorem closed_withoutOpening {t : Text} (h : Whole t) : Closed (withoutOpening newline t) := by
  induction hn : t.length using Nat.strongRecOn generalizing t with
  | _ n ih =>
    cases h with
    | nil => exact .nil
    | @char c t hc ht =>
      have hrest := ih t.length (by simp at hn; omega) ht rfl
      have hkeep : withoutOpening newline ([c] ++ t) = [c] ++ withoutOpening newline t :=
        withoutOpening_free (by simpa using hc.symm) t
      rw [List.singleton_append] at hkeep
      rw [hkeep]
      exact .char hc hrest
    | @opening t ht =>
      have hshort : (afterOpening t).length < n := hn ▸ length_afterOpening_lt t
      rw [withoutOpening_hit]
      exact (ih _ hshort ht.afterOpening rfl).free_append hfree
    | @closing c t hc ht =>
      rw [List.length_append] at hn
      have hpos : 0 < closeFence.length := by decide
      have hrest := ih _ (by omega) ht rfl
      rw [withoutOpening_closing hc]
      exact .closing hrest

/-- Without its closing fences such a text has no NUL. -/
theorem nul_not_mem_withoutClosing {t : Text} (h : Closed t) :
    '\x00' ∉ withoutClosing newline t := by
  suffices hall : ∀ p, '\x00' ∉ p → '\x00' ∉ withoutClosing newline (p ++ t) from
    hall [] (by simp)
  induction h with
  | nil =>
    intro p hp
    rwa [List.append_nil, withoutClosing_free hp]
  | @char c t hc _ ih =>
    intro p hp
    have hassoc : p ++ c :: t = (p ++ [c]) ++ t := by simp
    rw [hassoc]
    exact ih _ (by simp [hp, hc.symm])
  | @closing t _ ih =>
    intro p hp
    have hp' : '\x00' ∉ p ++ ['%', '>'] := by simp [hp]
    rw [withoutClosing_closeFence hp, List.mem_append, List.mem_append, not_or, not_or]
    exact ⟨fun h => hp' ((prefix_beforeClosing _).subset h), hfree, by simpa using ih [] (by simp)⟩

/-- Where all fences are whole, none of them is left. -/
theorem nul_not_mem_unfenceScripts {t : Text} (h : Whole t) :
    '\x00' ∉ unfenceScripts newline t :=
  nul_not_mem_withoutClosing hfree (closed_withoutOpening hfree h)

end

end VbTidy
