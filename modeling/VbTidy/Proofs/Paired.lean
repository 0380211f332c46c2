import VbTidy.Proofs.Unbroken
import VbTidy.Proofs.Unfenced

/-
Documents whose lines end with a carriage return and a line feed. Line breaks come from four places:
the worked lines are joined with the break of the document, literals bring the breaks that they have,
padding cuts the code next to a delimiter, and a fence takes a break away and leaves another. None
of them parts a return from its feed.

What is proved:
  1. `pairsFrom_eq_true_iff`: whether the two come in pairs only (`Paired`) is seen in one pass over a
     text, which has to remember whether the last character was a return. So it is kept where texts
     are joined (`Paired.append`), and where one is cut in front of anything but a feed
     (`paired_append_iff`).
  2. `paired_fenceScripts`: fences are written behind the end of a tag or in front of its start.
  3. `paired_shelves`, `paired_workedText`: the literals and the text that is handed to putting back
     are paired, and so is the text with all literals back (`paired_backText`).
  4. `paired_withoutOpening`, `paired_withoutClosing`: a fence takes a whole pair or nothing.
  5. `format_paired`: what comes out of a paired document with a break in it is paired.
-/
namespace VbTidy

/-- Every line feed has a carriage return before it, and every carriage return a line feed behind
it. -/
def Paired (t : Text) : Prop :=
  (∀ x y, t = x ++ '\n' :: y → x.getLast? = some '\r') ∧
    ∀ x y, t = x ++ '\r' :: y → y.head? = some '\n'

/-- Whether a text is paired behind a carriage return, or behind anything else. -/
def pairsFrom (behindReturn : Bool) : Text → Bool
  | [] => !behindReturn
  | c :: t => (c == '\n') == behindReturn && pairsFrom (c == '\r') t

/-! ## Pairs -/

theorem Paired.nil : Paired [] := by
  constructor
  · intro x y h
    simp at h
  · intro x y h
    simp at h

theorem paired_cons {c : Char} (hreturn : c ≠ '\r') (hfeed : c ≠ '\n') {t : Text} :
    Paired (c :: t) ↔ Paired t := by
  constructor
  · rintro ⟨h₁, h₂⟩
    refine ⟨fun x y ht => ?_, fun x y ht => h₂ (c :: x) y (by rw [ht, List.cons_append])⟩
    have hlast := h₁ (c :: x) y (by rw [ht, List.cons_append])
    rcases List.eq_nil_or_concat x with rfl | ⟨x, d, rfl⟩
    · exact absurd (Option.some.inj hlast) hreturn
    · simpa [List.getLast?_cons] using hlast
  · rintro ⟨h₁, h₂⟩
    refine ⟨fun x y ht => ?_, fun x y ht => ?_⟩
    · rcases List.cons_eq_append_iff.mp ht with ⟨_, hy⟩ | ⟨x, rfl, htail⟩
      · exact absurd (List.cons.inj hy).1.symm hfeed
      · rw [List.getLast?_cons, h₁ x y htail]
        rfl
    · rcases List.cons_eq_append_iff.mp ht with ⟨_, hy⟩ | ⟨x, rfl, htail⟩
      · exact absurd (List.cons.inj hy).1.symm hreturn
      · exact h₂ x y htail

theorem paired_pair {t : Text} : Paired ('\r' :: '\n' :: t) ↔ Paired t := by
  constructor
  · rintro ⟨h₁, h₂⟩
    refine ⟨fun x y ht => ?_, fun x y ht => h₂ ('\r' :: '\n' :: x) y (by rw [ht]; rfl)⟩
    have hlast := h₁ ('\r' :: '\n' :: x) y (by rw [ht]; rfl)
    rcases List.eq_nil_or_concat x with rfl | ⟨x, d, rfl⟩
    · simp at hlast
    · simpa [List.getLast?_cons] using hlast
  · rintro ⟨h₁, h₂⟩
    refine ⟨fun x y ht => ?_, fun x y ht => ?_⟩
    · rcases List.cons_eq_append_iff.mp ht with ⟨_, hy⟩ | ⟨x, rfl, hfeed⟩
      · exact absurd (List.cons.inj hy).1 (by decide)
      · rcases List.cons_eq_append_iff.mp hfeed with ⟨rfl, _⟩ | ⟨x, rfl, htail⟩
        · rfl
        · rw [List.getLast?_cons, List.getLast?_cons, h₁ x y htail]
          rfl
    · rcases List.cons_eq_append_iff.mp ht with ⟨_, hy⟩ | ⟨x, rfl, hfeed⟩
      · rw [(List.cons.inj hy).2]
        rfl
      · rcases List.cons_eq_append_iff.mp hfeed with ⟨_, hy⟩ | ⟨x, rfl, htail⟩
        · exact absurd (List.cons.inj hy).1 (by decide)
        · exact h₂ x y htail

theorem not_paired_feed (t : Text) : ¬ Paired ('\n' :: t) := fun h =>
  absurd (h.1 [] t rfl) (by simp)

theorem not_paired_return {t : Text} (ht : t.head? ≠ some '\n') : ¬ Paired ('\r' :: t) := fun h =>
  ht (h.2 [] t rfl)

/-- One pass over a text finds whether it is paired. -/
theorem pairsFrom_eq_true_iff (t : Text) :
    (pairsFrom false t = true ↔ Paired t) ∧ (pairsFrom true t = true ↔ Paired ('\r' :: t)) := by
  induction t with
  | nil => exact ⟨iff_of_true rfl .nil, iff_of_false (by decide) (not_paired_return (by simp))⟩
  | cons c t ih =>
    obtain ⟨ihOther, ihReturn⟩ := ih
    by_cases hfeed : c = '\n'
    · subst hfeed
      refine ⟨iff_of_false (by simp [pairsFrom]) (not_paired_feed t), ?_⟩
      rw [paired_pair, ← ihOther]
      simp [pairsFrom]
    · have hreturned : ¬ Paired ('\r' :: c :: t) := not_paired_return (by simpa using hfeed)
      refine ⟨?_, iff_of_false (by simp [pairsFrom, hfeed]) hreturned⟩
      by_cases hreturn : c = '\r'
      · subst hreturn
        rw [← ihReturn]
        simp [pairsFrom]
      · have hother : (c == '\r') = false := by simpa using hreturn
        rw [paired_cons hreturn hfeed, ← ihOther]
        simp [pairsFrom, hfeed, hother]

theorem paired_iff {t : Text} : Paired t ↔ pairsFrom false t = true :=
  (pairsFrom_eq_true_iff t).1.symm

instance (t : Text) : Decidable (Paired t) :=
  decidable_of_iff _ paired_iff.symm

/-- What stands behind a paired text is paired by itself or not at all. -/
theorem pairsFrom_behind {s : Text} {r : Bool} (h : pairsFrom r s = true) (t : Text) :
    pairsFrom r (s ++ t) = pairsFrom false t := by
  induction s generalizing r with
  | nil =>
    obtain rfl : r = false := by simpa [pairsFrom] using h
    rfl
  | cons c s ih =>
    rw [pairsFrom, Bool.and_eq_true] at h
    rw [List.cons_append, pairsFrom, h.1, Bool.true_and, ih h.2]

/-- A cut in front of anything but a line feed parts no pair. -/
theorem pairsFrom_append {t : Text} (ht : t.head? ≠ some '\n') (r : Bool) (s : Text) :
    pairsFrom r (s ++ t) = (pairsFrom r s && pairsFrom false t) := by
  induction s generalizing r with
  | nil =>
    cases t with
    | nil => cases r <;> rfl
    | cons c t =>
      have hc : (c == '\n') = false := by simpa using ht
      cases r <;> simp [pairsFrom, hc]
  | cons c s ih => rw [List.cons_append, pairsFrom, pairsFrom, ih, Bool.and_assoc]

theorem Paired.append {s t : Text} (hs : Paired s) (ht : Paired t) : Paired (s ++ t) := by
  rw [paired_iff] at hs
  rw [paired_iff, pairsFrom_behind hs, ← paired_iff]
  exact ht

theorem Paired.right {s t : Text} (h : Paired (s ++ t)) (hs : Paired s) : Paired t := by
  rw [paired_iff] at hs
  rw [paired_iff, pairsFrom_behind hs, ← paired_iff] at h
  exact h

theorem paired_append_iff {s t : Text} (ht : t.head? ≠ some '\n') :
    Paired (s ++ t) ↔ Paired s ∧ Paired t := by
  rw [paired_iff, pairsFrom_append ht, Bool.and_eq_true, ← paired_iff, ← paired_iff]

/-- Induction on a paired text: its characters are no breaks, or come as pairs. -/
theorem Paired.induct {motive : Text → Prop} (nil : motive [])
    (char : ∀ c t, c ≠ '\r' → c ≠ '\n' → motive t → motive (c :: t))
    (pair : ∀ t, motive t → motive ('\r' :: '\n' :: t)) {t : Text} (h : Paired t) : motive t := by
  generalize hn : t.length = n
  induction n using Nat.strongRecOn generalizing t with
  | _ n ih =>
    cases t with
    | nil => exact nil
    | cons c t =>
      by_cases hfeed : c = '\n'
      · subst hfeed
        exact absurd h (not_paired_feed t)
      · by_cases hreturn : c = '\r'
        · subst hreturn
          obtain ⟨u, rfl⟩ : ∃ u, t = '\n' :: u := by
            cases t with
            | nil => exact absurd h (not_paired_return (by simp))
            | cons d u => exact ⟨u, by rw [Option.some.inj (h.2 [] _ rfl)]⟩
          exact pair u (ih u.length (by simp at hn; omega) (paired_pair.mp h) rfl)
        · exact char c t hreturn hfeed
            (ih t.length (by simp at hn; omega) ((paired_cons hreturn hfeed).mp h) rfl)

theorem Paired.of_unbroken {t : Text} (h : Unbroken t) : Paired t := by
  induction t with
  | nil => exact .nil
  | cons c t ih =>
    have hc := h c List.mem_cons_self
    refine (paired_cons ?_ ?_).mpr (ih fun d hd => h d (List.mem_cons_of_mem _ hd))
    · rintro rfl
      exact absurd hc (by decide)
    · rintro rfl
      exact absurd hc (by decide)

/-! ## Fences -/

theorem pairsFrom_closeFence (r : Bool) : pairsFrom r closeFence = !r := by
  cases r <;> decide

/-- A fence stands where it parts no pair. `hdue` says where the opening tag ends that a fence is due
for. -/
theorem pairsFrom_fenceFrom {inBlock quoted due : Bool} {skip : Nat} {t : Text}
    (hdue : due = true → ∀ n, skip = n + 1 → t[n]? = some '>') (r : Bool) :
    pairsFrom r ((fenceFrom inBlock quoted due skip t).flatMap Fenced.written) =
      pairsFrom r t := by
  have hopening : ∀ u, pairsFrom false (openFence ++ u) = pairsFrom false u :=
    pairsFrom_behind (by decide)
  induction t generalizing inBlock quoted due skip r with
  | nil => rw [fenceFrom, List.flatMap_nil]
  | cons c t ih =>
    have hchar : ∀ {fs : List Fenced}, pairsFrom (c == '\r') (fs.flatMap Fenced.written) =
          pairsFrom (c == '\r') t →
        pairsFrom r ((.text c :: fs).flatMap Fenced.written) = pairsFrom r (c :: t) := by
      intro fs h
      show pairsFrom r (c :: fs.flatMap Fenced.written) = _
      rw [pairsFrom, pairsFrom, h]
    cases skip with
    | succ skip =>
      rw [fenceFrom]
      refine hchar ?_
      rw [List.flatMap_append]
      split
      · next h =>
        simp only [Bool.and_eq_true, beq_iff_eq] at h
        obtain ⟨hd, rfl⟩ := h
        obtain rfl : c = '>' := by simpa using hdue hd 0 rfl
        exact (hopening _).trans (ih (by simp) false)
      · refine ih (fun hd n hn => ?_) _
        have := hdue hd (n + 1) (by omega)
        simpa using this
    | zero =>
      rw [fenceFrom]
      split
      · exact hchar (ih (by simp) _)
      · rename_i rest hrest
        dsimp only
        split
        · exact hchar (ih (by simp) _)
        · split
          · rename_i hblock
            rw [if_pos hblock] at hrest
            obtain rfl := dropCloseTag?_eq_some hrest
            show pairsFrom r (closeFence ++ '<' :: List.flatMap Fenced.written _) = _
            rw [pairsFrom_append (by simp), pairsFrom_closeFence, pairsFrom, pairsFrom,
              ih (by simp)]
            cases r <;> rfl
          · rename_i hblock
            rw [if_neg hblock] at hrest
            obtain ⟨u, rfl⟩ := dropOpenTag?_eq_some hrest
            refine hchar (ih (fun _ n hn => ?_) _)
            have hlen : n = u.length := by
              rw [List.length_append, List.length_cons] at hn
              omega
            simp [hlen]

theorem paired_fenceScripts {raw : Text} (h : Paired raw) : Paired (fenceScripts raw) := by
  rw [paired_iff] at h ⊢
  rw [fenceScripts, fence, pairsFrom_fenceFrom (by simp)]
  exact h

/-! ## Literals -/

/-- A run of markup is cut out in front of a delimiter or behind one. -/
theorem paired_markup {raw h : Text} (hraw : Paired raw)
    (hh : h ∈ (Lifting.markup raw).hits) : Paired h := by
  obtain ⟨u, v, heq, hstart, hstop, _⟩ := host_in_markup hh
  have hall := paired_fenceScripts hraw
  rw [heq] at hall
  have hrest : Paired (h ++ v) := by
    rcases hstart with rfl | ⟨h', rfl⟩
    · exact hall
    · exact ((paired_append_iff (by simp)).mp hall).2
  rcases hstop with rfl | ⟨h', rfl⟩
  · rwa [List.append_nil] at hrest
  · rw [List.append_assoc] at hrest
    have hfront := ((paired_append_iff (by simp)).mp hrest).1
    exact hfront.append (by decide)

theorem unbroken_literalsOf {cut : Text → Weave} (hcut : ∀ l, (cut l).source = l)
    {lines : List Text} (h : ∀ l ∈ lines, Unbroken l) :
    ∀ l ∈ literalsOf (lines.map cut), Unbroken l := by
  intro l hl c hc
  rw [literalsOf, List.flatMap_map] at hl
  obtain ⟨line, hline, hl⟩ := List.mem_flatMap.mp hl
  apply h line hline
  rw [← hcut line]
  exact mem_source.mpr (.inr ⟨l, hl, hc⟩)

/-- Only a run of markup has breaks, and it has whole ones. -/
theorem paired_shelves {raw : Text} (hraw : Paired raw) (k : Kind) :
    ∀ l ∈ (Lifting.result raw).shelves.get k, Paired l := by
  have hlines := unbroken_splitLines (Lifting.mask .delimiter (Lifting.delimiter raw))
  intro l hl
  cases k with
  | markup =>
    simp only [Lifting.result, PerKind.get] at hl
    exact paired_markup hraw hl
  | delimiter =>
    simp only [Lifting.result, PerKind.get] at hl
    rcases hit_delimiter hl with rfl | rfl
    · decide
    · decide
  | string =>
    simp only [Lifting.result, PerKind.get] at hl
    exact .of_unbroken (unbroken_literalsOf source_cutStrings hlines l hl)
  | remark =>
    simp only [Lifting.result, PerKind.get] at hl
    have hmasked := unbroken_maskLines (k := .string) source_cutStrings hlines
    exact .of_unbroken (unbroken_literalsOf source_cutRemark hmasked l hl)
  | resume =>
    simp only [Lifting.result, PerKind.get] at hl
    obtain ⟨_, _, rfl⟩ := List.mem_map.mp hl
    decide

/-! ## Lines and their literals -/

theorem paired_closeLines {newline : Text} (hn : Paired newline) {finalNewline : Bool}
    {lines : List Text} (h : ∀ l ∈ lines, Unbroken l) :
    Paired (closeLines newline finalNewline lines) := by
  have hlines : Paired (joinLines newline lines) := by
    induction lines with
    | nil => exact .nil
    | cons l lines ih =>
      have hl : Paired l := .of_unbroken (h l List.mem_cons_self)
      cases lines with
      | nil =>
        rw [joinLines_singleton]
        exact hl
      | cons l' lines =>
        rw [joinLines_cons_cons]
        exact hl.append (hn.append (ih fun l hl => h l (List.mem_cons_of_mem _ hl)))
  rw [closeLines]
  refine hlines.append ?_
  split
  · exact hn
  · exact .nil

theorem paired_workedText {raw : Text} {style : Style} {worked : Worked}
    (hn : hasPart ['\r', '\n'] raw = true) (hu : ∀ c ∈ style.unit, isBlank c = true)
    (hwork : (workLines style (Lifting.result raw).shelves (Lifting.result raw).lines).outcome =
      .ok worked) : Paired (workedText raw worked) := by
  apply paired_closeLines _ (unbroken_workLines hu hwork)
  rw [newlineOf, if_pos hn]
  decide

/-- A token parts no pair, so what stands between tokens is paired. -/
theorem paired_gaps_of_mask {k : Kind} {w : Weave} (h : Paired (Lifting.mask k w)) :
    ∀ g ∈ w.gaps, Paired g := by
  obtain ⟨head, rest⟩ := w
  induction rest generalizing head with
  | nil =>
    intro g hg
    obtain rfl := List.mem_singleton.mp hg
    simpa [Lifting.mask, Weave.replace] using h
  | cons p rest ih =>
    intro g hg
    rw [mask_cons] at h
    obtain ⟨hhead, hrest⟩ := (paired_append_iff (by rw [Mark.token_append]; simp)).mp h
    rcases List.mem_cons.mp hg with rfl | hg
    · exact hhead
    · exact ih p.2 (hrest.right (.of_unbroken (unbroken_token _))) g hg

theorem paired_gaps {k : Kind} {t : Text} (h : Paired t) :
    ∀ g ∈ (cutTokens k t).gaps, Paired g := by
  apply paired_gaps_of_mask (k := k)
  rw [mask_cutTokens]
  exact h

theorem paired_fillWith {w : Weave} {ls : List Text} (hw : ∀ g ∈ w.gaps, Paired g)
    (hl : ∀ l ∈ ls, Paired l) : Paired (w.fillWith ls) :=
  Weave.fillWith_induction Paired.append hw hl

theorem paired_backTexts {s : Shelves} {t : Text} (hs : ∀ k, ∀ l ∈ s.get k, Paired l)
    (ht : Paired t) (k : Kind) : Paired ((backTexts s t).get k) := by
  have hfilled : ∀ k, Paired ((backTexts s t).get k) → Paired (filled s t k) :=
    fun k h => paired_fillWith (paired_gaps h) (hs k)
  have hresume : Paired ((backTexts s t).get .resume) := ht
  have hremark : Paired ((backTexts s t).get .remark) := hfilled .resume hresume
  have hstring : Paired ((backTexts s t).get .string) := hfilled .remark hremark
  have hdelimiter : Paired ((backTexts s t).get .delimiter) := hfilled .string hstring
  cases k with
  | resume => exact hresume
  | remark => exact hremark
  | string => exact hstring
  | delimiter => exact hdelimiter
  | markup => exact hfilled .delimiter hdelimiter

/-! ## Padding -/

theorem paired_blanks {s : Text} (h : ∀ c ∈ s, isBlank c = true) : Paired s :=
  .of_unbroken (.blanks h)

theorem Paired.dropWhile_blanks {t : Text} (h : Paired t) : Paired (t.dropWhile isBlank) := by
  rw [← List.takeWhile_append_dropWhile (p := isBlank) (l := t)] at h
  exact h.right (paired_blanks fun c hc => List.all_eq_true.mp List.all_takeWhile c hc)

theorem Paired.dropEnd_blanks {t : Text} (h : Paired t) : Paired (dropEnd isBlank t) := by
  obtain ⟨s, hs, hblank⟩ := dropEnd_append isBlank t
  rw [hs] at h
  refine ((paired_append_iff fun hfeed => ?_).mp h).1
  exact absurd (hblank _ (List.mem_of_head? hfeed)) (by decide)

theorem paired_padBeforeClose {code : Text} (h : Paired code) : Paired (padBeforeClose code) := by
  rw [padBeforeClose]
  split
  · exact h
  · exact h.dropEnd_blanks.append (by decide)

theorem paired_padAfterOpen {code : Text} (h : Paired code) : Paired (padAfterOpen code) := by
  rw [padAfterOpen_eq]
  split
  · exact h.dropWhile_blanks
  · exact (paired_cons (by decide) (by decide)).mpr h.dropWhile_blanks

theorem paired_backText {s : Shelves} {t : Text} (hs : ∀ k, ∀ l ∈ s.get k, Paired l)
    (ht : Paired t) : Paired (backText s t) := by
  have hgaps : ∀ g ∈ (backCut s t .markup).gaps, Paired g :=
    paired_gaps (paired_backTexts hs ht .markup)
  refine joinPadded_induction (P := Paired) Paired.append paired_padBeforeClose
    paired_padAfterOpen (hgaps _ (Weave.head_mem_gaps _)) fun p hp => ?_
  obtain ⟨hhost, hafter⟩ := List.of_mem_zip hp
  exact ⟨hs .markup p.1 hhost, hgaps p.2 (List.mem_cons_of_mem _ hafter)⟩

/-! ## Fences taken away -/

/-- A line break is dropped with its return. -/
theorem Paired.dropNewline {t : Text} (h : Paired t) : Paired (dropNewline t) := by
  unfold VbTidy.dropNewline
  split
  · exact paired_pair.mp h
  · exact absurd h (not_paired_feed _)
  · exact h

theorem Paired.afterOpening {t : Text} (h : Paired t) : Paired (afterOpening t) :=
  h.dropWhile_blanks.dropNewline

/-- A fence is not found between a return and its feed: it would have been found before the
return. -/
theorem Paired.beforeClosing {t : Text} (h : Paired t) : Paired (beforeClosing t) := by
  refine Paired.induct (motive := fun t => Paired (VbTidy.beforeClosing t)) .nil
    (fun c t hreturn hfeed ih => ?_) (fun t ih => ?_) h
  · rw [VbTidy.beforeClosing]
    split
    · exact .nil
    · exact (paired_cons hreturn hfeed).mpr ih
  · have hsame : isClosing ('\r' :: '\n' :: t) = isClosing ('\n' :: t) := rfl
    rw [VbTidy.beforeClosing, VbTidy.beforeClosing, hsame]
    split
    · exact .nil
    · exact paired_pair.mpr ih

section
variable {newline : Text} (hn : Paired newline)
include hn

theorem paired_withoutOpening {t : Text} (h : Paired t) :
    Paired (withoutOpening newline t) := by
  generalize hlen : t.length = n
  induction n using Nat.strongRecOn generalizing t with
  | _ n ih =>
    rcases nul_cases t with ht | ⟨p, u, hp, rfl⟩
    · rwa [withoutOpening_all ht]
    · obtain ⟨hfront, hrest⟩ := (paired_append_iff (by simp)).mp h
      rw [List.length_append, List.length_cons] at hlen
      rw [withoutOpening_free hp]
      refine hfront.append ?_
      by_cases hfence : ∃ w, '\x00' :: u = openFence ++ w
      · obtain ⟨w, hw⟩ := hfence
        rw [hw] at hrest ⊢
        have hshort : (afterOpening w).length < n := by
          have hless := length_afterOpening_lt w
          rw [← hw, List.length_cons] at hless
          omega
        rw [withoutOpening_hit]
        exact hn.append (ih _ hshort (hrest.right (by decide)).afterOpening rfl)
      · rw [withoutOpening_miss fun w hw => hfence ⟨w, hw⟩]
        have hu := (paired_cons (by decide) (by decide)).mp hrest
        exact (paired_cons (by decide) (by decide)).mpr (ih u.length (by omega) hu rfl)

theorem paired_withoutClosing {t : Text} (h : Paired t) :
    Paired (withoutClosing newline t) := by
  generalize hlen : t.length = n
  induction n using Nat.strongRecOn generalizing t with
  | _ n ih =>
    rcases nul_cases t with ht | ⟨p, u, hp, rfl⟩
    · rwa [withoutClosing_free ht]
    · obtain ⟨hfront, hrest⟩ := (paired_append_iff (by simp)).mp h
      have hu := (paired_cons (by decide) (by decide)).mp hrest
      rw [List.length_append, List.length_cons] at hlen
      by_cases hend : ['%', '>'] <:+ p ∧ ∃ v, u = Mark.fence.name ++ '\x00' :: v
      · obtain ⟨hend, v, rfl⟩ := hend
        have hv : Paired v := by
          have hname := hu.right (by decide)
          exact (paired_cons (by decide) (by decide)).mp hname
        rw [List.length_append, List.length_cons] at hlen
        rw [withoutClosing_hit hp hend]
        exact hfront.beforeClosing.append (hn.append (ih v.length (by omega) hv rfl))
      · rw [withoutClosing_miss hp (by
          rw [not_and_or, not_exists] at hend
          exact hend)]
        refine hfront.append ((paired_cons (by decide) (by decide)).mpr ?_)
        exact ih u.length (by omega) hu rfl

end

/-- A document whose breaks are all returns with feeds comes out with such breaks only. -/
theorem format_paired {settings : Settings} {raw : Text} {f : Formatted}
    (hn : hasPart ['\r', '\n'] raw = true) (hraw : Paired raw)
    (hok : format settings raw = .ok f) : Paired f.text := by
  obtain ⟨style, worked, hstyle, _, hwork, _, _, htext⟩ := format_ok hok
  obtain ⟨hu, _⟩ := Settings.style_ok hstyle
  have hnewline : Paired (newlineOf raw) := by
    rw [newlineOf, if_pos hn]
    decide
  have hback := paired_backText (paired_shelves hraw) (paired_workedText hn hu hwork)
  rw [htext]
  exact paired_withoutClosing hnewline (paired_withoutOpening hnewline hback)

/-- A page with a client script, and a declaration to split. -/
def scriptPage : Text :=
  "<script vbscript>\r\nDim a,b\r\n</script>".toList

theorem format_scriptPage :
    hasPart ['\r', '\n'] scriptPage = true ∧ Paired scriptPage ∧
      ∃ f, format {} scriptPage = .ok f ∧ Paired f.text := by
  have hbreak : hasPart ['\r', '\n'] scriptPage = true := by decide
  have hpaired : Paired scriptPage := by decide
  have hok : (format {} scriptPage).isOk = true := by decide +kernel
  refine ⟨hbreak, hpaired, ?_⟩
  cases h : format {} scriptPage with
  | error e =>
    rw [h] at hok
    cases hok
  | ok f => exact ⟨f, rfl, format_paired hbreak hpaired h⟩

end VbTidy
