import Mathlib.Data.List.Induction
import Mathlib.Data.List.TakeWhile
import VbTidy.Proofs.Front
import VbTidy.Proofs.Whole

/-
Script blocks. `Blocks` records a scan for tags: text outside of blocks, an opening fence behind
each tag that opens one, code, a closing fence before each tag that closes one, and every tag stands
where no string is open. What the record says of the places of the fences is read off it by
induction, and so is what is left where they are taken away (`Unfenced`): outside of blocks the text
as it is, and of the code of a block all but the blanks and the line break next to each fence, for
which the fences leave a line break each, or one for both where there is nothing else between them
(`fences_reversible`).
-/
namespace VbTidy

/-! ## The record of a scan -/

/-- The text of a document with the places of its fences. -/
def charsOf (fs : List Fenced) : Text :=
  fs.filterMap fun
    | .text c => some c
    | _ => none

/-- The fences among the parts of a document. -/
def fencesOf (fs : List Fenced) : List Fenced :=
  fs.filter fun
    | .text _ => false
    | _ => true

/-- A number of fences in turn, from inside a block or from outside. -/
def turns : Bool → Nat → List Fenced
  | _, 0 => []
  | inBlock, n + 1 => (if inBlock then .closing else .opening) :: turns (!inBlock) n

/-- No string is open at the end of a text: the quotes on its last line are even in number. -/
def EvenQuotes (before : Text) : Prop :=
  (lastLine before).count '"' % 2 = 0

/-- A scan from inside a block or from outside, with the text before it. -/
inductive Blocks : Bool → Text → Text → List Fenced → Prop
  | rest (inBlock : Bool) (before s : Text) : Blocks inBlock before s (s.map .text)
  | opened {before s tag t : Text} {fs : List Fenced} (htag : dropOpenTag? (tag ++ t) = some t)
      (hquotes : EvenQuotes (before ++ s)) (h : Blocks true (before ++ (s ++ tag)) t fs) :
      Blocks false before (s ++ (tag ++ t)) ((s ++ tag).map .text ++ .opening :: fs)
  | closed {before s tag t : Text} {fs : List Fenced} (htag : dropCloseTag? (tag ++ t) = some t)
      (hquotes : EvenQuotes (before ++ s)) (h : Blocks false (before ++ (s ++ tag)) t fs) :
      Blocks true before (s ++ (tag ++ t)) (s.map .text ++ .closing :: (tag.map .text ++ fs))

/-- Text in front of a scan. -/
theorem Blocks.prepend {inBlock : Bool} {before x t : Text} {fs : List Fenced}
    (h : Blocks inBlock (before ++ x) t fs) :
    Blocks inBlock before (x ++ t) (x.map .text ++ fs) := by
  cases h with
  | rest =>
    rw [← List.map_append]
    exact .rest inBlock before (x ++ t)
  | @opened _ s tag t fs htag hquotes h =>
    rw [List.append_assoc] at hquotes h
    have hmore : Blocks true (before ++ ((x ++ s) ++ tag)) t fs := by rwa [List.append_assoc x]
    simpa using Blocks.opened htag hquotes hmore
  | @closed _ s tag t fs htag hquotes h =>
    rw [List.append_assoc] at hquotes h
    have hmore : Blocks false (before ++ ((x ++ s) ++ tag)) t fs := by rwa [List.append_assoc x]
    simpa using Blocks.closed htag hquotes hmore

/-! ## The scan -/

theorem lastLine_concat (t : Text) (c : Char) :
    lastLine (t ++ [c]) = if c = '\n' then [] else lastLine t ++ [c] := by
  split
  · next h =>
    rw [h]
    exact lastLine_feed_append t []
  · next h => exact lastLine_append t (by simpa using Ne.symm h)

/-- The scan knows whether a string is open. -/
theorem quoteAfter_eq_false {before : Text} :
    before.foldl quoteAfter false = false ↔ EvenQuotes before := by
  rw [EvenQuotes]
  induction before using List.reverseRecOn with
  | nil => simp [lastLine]
  | append_singleton t c ih =>
    rw [List.foldl_append, List.foldl_cons, List.foldl_nil, lastLine_concat, quoteAfter]
    by_cases hfeed : c = '\n'
    · simp [hfeed]
    · by_cases hquote : c = '"'
      · rw [if_neg (by simpa using hfeed), if_neg hfeed, if_pos (by simpa using hquote),
          Bool.not_eq_false', ← Bool.not_eq_false, ih]
        simp [List.count_append, hquote]
        omega
      · rw [if_neg (by simpa using hfeed), if_neg hfeed, if_neg (by simpa using hquote), ih]
        simp [List.count_append, hquote]

/-- The characters of a tag are passed over, and then the fence that is due stands. -/
theorem fenceFrom_tag {inBlock quoted due : Bool} {tag : Text} (hne : tag ≠ []) (t : Text) :
    fenceFrom inBlock quoted due tag.length (tag ++ t) =
      tag.map .text ++ ((if due then [.opening] else []) ++
        fenceFrom inBlock (tag.foldl quoteAfter quoted) due 0 t) := by
  induction tag generalizing quoted with
  | nil => exact absurd rfl hne
  | cons c tag ih =>
    rw [List.length_cons, List.cons_append, fenceFrom]
    cases tag with
    | nil => simp
    | cons d tag =>
      rw [ih (List.cons_ne_nil d tag)]
      simp

/-- A fence is due inside a tag only. -/
theorem fenceFrom_due (inBlock quoted due : Bool) (t : Text) :
    fenceFrom inBlock quoted due 0 t = fenceFrom inBlock quoted false 0 t := by
  cases t with
  | nil => rw [fenceFrom, fenceFrom]
  | cons c t => rw [fenceFrom, fenceFrom]

/-- A scan leaves a record. -/
theorem blocks_fenceFrom (inBlock : Bool) (before t : Text) :
    Blocks inBlock before t (fenceFrom inBlock (before.foldl quoteAfter false) false 0 t) := by
  generalize hlen : t.length = n
  induction n using Nat.strongRecOn generalizing inBlock before t with
  | _ n ih =>
    have hfold : ∀ x : Text, x.foldl quoteAfter (before.foldl quoteAfter false) =
        (before ++ x).foldl quoteAfter false := fun x => List.foldl_append.symm
    cases t with
    | nil =>
      rw [fenceFrom]
      exact .rest inBlock before []
    | cons c t =>
      rw [List.length_cons] at hlen
      rw [fenceFrom]
      split
      · -- no tag starts here
        have hmore := ih t.length (by omega) inBlock (before ++ [c]) t rfl
        rw [← hfold] at hmore
        exact hmore.prepend
      · next rest htag =>
        obtain ⟨tag, hne, rfl⟩ : ∃ tag, tag ≠ [] ∧ t = tag ++ rest := by
          cases inBlock with
          | true =>
            obtain ⟨d, u, rfl, -⟩ := dropCloseTag?_behind htag
            exact ⟨d :: u, List.cons_ne_nil d u, rfl⟩
          | false =>
            obtain ⟨u, rfl⟩ := dropOpenTag?_eq_some htag
            exact ⟨u ++ ['>'], by simp, by simp⟩
        have hskip : (tag ++ rest).length - rest.length = tag.length := by
          rw [List.length_append]
          omega
        have hshort : rest.length < n := by
          rw [List.length_append] at hlen
          omega
        have hmore := fun inBlock before => ih rest.length hshort inBlock before rest rfl
        simp only [hskip, fenceFrom_tag hne, fenceFrom_due _ _ true]
        have hquoted : tag.foldl quoteAfter (quoteAfter (before.foldl quoteAfter false) c) =
            (before ++ c :: tag).foldl quoteAfter false := hfold (c :: tag)
        rw [hquoted]
        split
        · -- the tag stands in a string
          have hpass := (hmore inBlock (before ++ c :: tag)).prepend
          simpa using hpass
        · next hopen =>
          have hquotes : EvenQuotes (before ++ []) := by
            rw [List.append_nil, ← quoteAfter_eq_false]
            simpa using hopen
          cases inBlock with
          | true =>
            have hclosed : Blocks true before ([] ++ (c :: tag ++ rest)) _ :=
              .closed htag hquotes (hmore false _)
            simpa using hclosed
          | false =>
            have hopened : Blocks false before ([] ++ (c :: tag ++ rest)) _ :=
              .opened htag hquotes (hmore true _)
            simpa using hopened

/-! ## The places of the fences -/

@[simp] theorem charsOf_opening (fs : List Fenced) : charsOf (.opening :: fs) = charsOf fs :=
  rfl

@[simp] theorem charsOf_closing (fs : List Fenced) : charsOf (.closing :: fs) = charsOf fs :=
  rfl

@[simp] theorem charsOf_append (xs ys : List Fenced) :
    charsOf (xs ++ ys) = charsOf xs ++ charsOf ys :=
  List.filterMap_append

@[simp] theorem charsOf_text (s : Text) : charsOf (s.map .text) = s := by
  induction s with
  | nil => rfl
  | cons c s ih => exact congrArg (c :: ·) ih

theorem fencesOf_append (xs ys : List Fenced) : fencesOf (xs ++ ys) = fencesOf xs ++ fencesOf ys :=
  List.filter_append ..

@[simp] theorem fencesOf_text (s : Text) : fencesOf (s.map .text) = [] := by
  rw [fencesOf, List.filter_eq_nil_iff]
  simp

/-- What does not stand in the front of a list stands behind that. -/
theorem behind_free {α : Type} {a : α} {front t w r : List α} (hfree : a ∉ front)
    (h : front ++ t = w ++ a :: r) : ∃ x, w = front ++ x ∧ t = x ++ a :: r := by
  rcases List.append_eq_append_iff.mp h with ⟨x, hw, ht⟩ | ⟨y, hfront, hr⟩
  · exact ⟨x, hw, ht⟩
  · cases y with
    | nil => exact ⟨[], by simpa using hfront.symm, hr.symm⟩
    | cons d y =>
      obtain ⟨rfl, -⟩ := List.cons.inj hr
      exact absurd (by simp [hfront]) hfree

/-- A fence stands behind a text with no fences. -/
theorem fence_behind {x : Text} {f : Fenced} (hf : ∀ c, f ≠ .text c) {u v g : List Fenced}
    (h : x.map .text ++ g = u ++ f :: v) : ∃ w, u = x.map .text ++ w ∧ g = w ++ f :: v := by
  refine behind_free (fun hmem => ?_) h
  obtain ⟨c, _, hc⟩ := List.mem_map.mp hmem
  exact hf c hc.symm

section
variable {inBlock : Bool} {before t : Text} {fs : List Fenced}

/-- Without its fences the document is the text. -/
theorem Blocks.chars (h : Blocks inBlock before t fs) : charsOf fs = t := by
  induction h with
  | rest => exact charsOf_text _
  | opened _ _ _ ih =>
    rw [charsOf_append, charsOf_text, charsOf_opening, ih, List.append_assoc]
  | closed _ _ _ ih =>
    rw [charsOf_append, charsOf_text, charsOf_closing, charsOf_append, charsOf_text, ih]

/-- Opening and closing fences stand in turn. -/
theorem Blocks.turns (h : Blocks inBlock before t fs) : ∃ n, fencesOf fs = turns inBlock n := by
  induction h with
  | rest => exact ⟨0, fencesOf_text _⟩
  | @opened _ s tag _ fs _ _ _ ih =>
    obtain ⟨n, hn⟩ := ih
    refine ⟨n + 1, ?_⟩
    calc fencesOf ((s ++ tag).map .text ++ .opening :: fs)
        = .opening :: fencesOf fs := by rw [fencesOf_append, fencesOf_text]; rfl
      _ = .opening :: VbTidy.turns true n := by rw [hn]
  | @closed _ s tag _ fs _ _ _ ih =>
    obtain ⟨n, hn⟩ := ih
    refine ⟨n + 1, ?_⟩
    calc fencesOf (s.map .text ++ .closing :: (tag.map .text ++ fs))
        = .closing :: fencesOf (tag.map .text ++ fs) := by rw [fencesOf_append, fencesOf_text]; rfl
      _ = .closing :: fencesOf fs := by rw [fencesOf_append, fencesOf_text, List.nil_append]
      _ = .closing :: VbTidy.turns false n := by rw [hn]

/-- An opening fence stands behind a tag that opens a block. -/
theorem Blocks.opening_behind (h : Blocks inBlock before t fs) {u v : List Fenced}
    (hfs : fs = u ++ .opening :: v) : ∃ s tag, u = s ++ tag.map .text ∧
      dropOpenTag? (tag ++ charsOf v) = some (charsOf v) ∧ EvenQuotes (before ++ charsOf s) := by
  induction h generalizing u with
  | rest _ _ s =>
    have hmem : Fenced.opening ∈ s.map Fenced.text := by simp [hfs]
    simp at hmem
  | @opened before s tag t fs htag hquotes hrest ih =>
    obtain ⟨w, rfl, hw⟩ := fence_behind (by simp) hfs
    cases w with
    | nil =>
      obtain rfl : fs = v := (List.cons.inj hw).2
      refine ⟨s.map .text, tag, by simp, ?_, by rwa [charsOf_text]⟩
      rwa [hrest.chars]
    | cons e w =>
      obtain ⟨rfl, hmore⟩ : Fenced.opening = e ∧ fs = w ++ .opening :: v := List.cons.inj hw
      obtain ⟨x, tag', rfl, htag', hx⟩ := ih hmore
      refine ⟨(s ++ tag).map .text ++ .opening :: x, tag', by simp, htag', ?_⟩
      rwa [charsOf_append, charsOf_text, charsOf_opening, ← List.append_assoc]
  | @closed before s tag t fs htag hquotes hrest ih =>
    obtain ⟨w, rfl, hw⟩ := fence_behind (by simp) hfs
    cases w with
    | nil => cases (List.cons.inj hw).1
    | cons e w =>
      obtain ⟨rfl, hbehind⟩ : Fenced.closing = e ∧ tag.map .text ++ fs = w ++ .opening :: v :=
        List.cons.inj hw
      obtain ⟨w, rfl, hmore⟩ := fence_behind (by simp) hbehind
      obtain ⟨x, tag', rfl, htag', hx⟩ := ih hmore
      refine ⟨s.map .text ++ .closing :: (tag.map .text ++ x), tag', by simp, htag', ?_⟩
      rw [List.append_assoc, List.append_assoc] at hx
      rwa [charsOf_append, charsOf_text, charsOf_closing, charsOf_append, charsOf_text]

/-- A closing fence stands before a tag that closes a block. -/
theorem Blocks.closing_before (h : Blocks inBlock before t fs) {u v : List Fenced}
    (hfs : fs = u ++ .closing :: v) : ∃ tag w, v = tag.map .text ++ w ∧
      dropCloseTag? (tag ++ charsOf w) = some (charsOf w) ∧ EvenQuotes (before ++ charsOf u) := by
  induction h generalizing u with
  | rest _ _ s =>
    have hmem : Fenced.closing ∈ s.map Fenced.text := by simp [hfs]
    simp at hmem
  | @opened before s tag t fs htag hquotes hrest ih =>
    obtain ⟨w, rfl, hw⟩ := fence_behind (by simp) hfs
    cases w with
    | nil => cases (List.cons.inj hw).1
    | cons e w =>
      obtain ⟨rfl, hmore⟩ : Fenced.opening = e ∧ fs = w ++ .closing :: v := List.cons.inj hw
      obtain ⟨tag', x, rfl, htag', hx⟩ := ih hmore
      refine ⟨tag', x, rfl, htag', ?_⟩
      rwa [charsOf_append, charsOf_text, charsOf_opening, ← List.append_assoc]
  | @closed before s tag t fs htag hquotes hrest ih =>
    obtain ⟨w, rfl, hw⟩ := fence_behind (by simp) hfs
    cases w with
    | nil =>
      obtain rfl : tag.map .text ++ fs = v := (List.cons.inj hw).2
      refine ⟨tag, fs, rfl, by rwa [hrest.chars], ?_⟩
      rwa [List.append_nil, charsOf_text]
    | cons e w =>
      obtain ⟨rfl, hbehind⟩ : Fenced.closing = e ∧ tag.map .text ++ fs = w ++ .closing :: v :=
        List.cons.inj hw
      obtain ⟨w, rfl, hmore⟩ := fence_behind (by simp) hbehind
      obtain ⟨tag', x, rfl, htag', hx⟩ := ih hmore
      refine ⟨tag', x, rfl, htag', ?_⟩
      rw [List.append_assoc, List.append_assoc] at hx
      rwa [charsOf_append, charsOf_text, charsOf_closing, charsOf_append, charsOf_text]

end

/-! ## Next to a fence -/

/-- A line feed with or without a carriage return. -/
def LineBreak (t : Text) : Prop :=
  t = ['\n'] ∨ t = ['\r', '\n']

/-- Blanks, and at most one line break behind them. -/
def FrontEdge (z : Text) : Prop :=
  ∃ x nl, z = x ++ nl ∧ Blanks x ∧ (nl = [] ∨ LineBreak nl)

/-- Blanks, and at most one line break before them. -/
def BackEdge (z : Text) : Prop :=
  ∃ nl y, z = nl ++ y ∧ (nl = [] ∨ LineBreak nl) ∧ Blanks y

/-- No longer part of a text is an edge at its front. -/
structure Lead (lead rest : Text) : Prop where
  edge : FrontEdge lead
  longest : ∀ s, s ≠ [] → s <+: rest → ¬ FrontEdge (lead ++ s)

/-- No longer part of a text is an edge at its back. -/
structure Trail (rest trail : Text) : Prop where
  edge : BackEdge trail
  longest : ∀ s, s ≠ [] → s <:+ rest → ¬ BackEdge (s ++ trail)

theorem dropNewline_split (t : Text) :
    ∃ nl, t = nl ++ dropNewline t ∧ (nl = [] ∨ LineBreak nl) := by
  unfold dropNewline
  split
  · exact ⟨['\r', '\n'], rfl, .inr (.inr rfl)⟩
  · exact ⟨['\n'], rfl, .inr (.inl rfl)⟩
  · exact ⟨[], rfl, .inl rfl⟩

theorem dropNewline_break {nl : Text} (h : LineBreak nl) (t : Text) :
    dropNewline (nl ++ t) = t := by
  rcases h with rfl | rfl <;> rfl

/-- Behind an opening fence no less goes than an edge. -/
theorem FrontEdge.suffix {z : Text} (h : FrontEdge z) (r : Text) : afterOpening (z ++ r) <:+ r := by
  obtain ⟨x, nl, rfl, hx, hnl⟩ := h
  rw [List.append_assoc, afterOpening, List.dropWhile_append_of_pos hx]
  rcases hnl with rfl | hnl
  · exact suffix_afterOpening r
  · have hstop : (nl ++ r).dropWhile isBlank = nl ++ r := by
      rcases hnl with rfl | rfl <;> exact List.dropWhile_cons_of_neg (by decide)
    exact ⟨[], by rw [List.nil_append, hstop, dropNewline_break hnl]⟩

/-- Behind an opening fence the longest edge goes. -/
theorem lead_afterOpening (t : Text) :
    ∃ lead, t = lead ++ afterOpening t ∧ Lead lead (afterOpening t) := by
  obtain ⟨nl, hd, hnl⟩ := dropNewline_split (t.dropWhile isBlank)
  have ht : t = (t.takeWhile isBlank ++ nl) ++ afterOpening t := by
    rw [List.append_assoc, afterOpening, ← hd, List.takeWhile_append_dropWhile]
  refine ⟨_, ht, ⟨_, nl, rfl, fun c hc => List.all_eq_true.mp List.all_takeWhile c hc, hnl⟩, ?_⟩
  rintro s hne ⟨r, hr⟩ hedge
  have hsuffix := hedge.suffix r
  rw [List.append_assoc _ s, hr, ← ht, ← hr] at hsuffix
  have hle := hsuffix.length_le
  have hpos := List.length_pos_iff.mpr hne
  rw [List.length_append] at hle
  omega

theorem isClosing_iff {z : Text} : isClosing (z ++ ['%', '>']) = true ↔ BackEdge z := by
  rw [isClosing, beq_iff_eq, dropNewline_cut (by decide) (by decide), dropWhile_cut (by decide)]
  constructor
  · intro h
    have hnil : (dropNewline z).dropWhile isBlank = [] :=
      List.append_left_eq_self.mp h
    obtain ⟨nl, hz, hnl⟩ := dropNewline_split z
    refine ⟨nl, dropNewline z, hz, hnl, ?_⟩
    rwa [List.dropWhile_eq_nil_iff] at hnil
  · rintro ⟨nl, y, rfl, hnl, hy⟩
    have hdrop : dropNewline (nl ++ y) = y := by
      rcases hnl with rfl | hnl
      · apply dropNewline_of_other
        · rintro ⟨u, rfl⟩
          exact absurd (hy '\r' List.mem_cons_self) (by decide)
        · rintro ⟨u, rfl⟩
          exact absurd (hy '\n' List.mem_cons_self) (by decide)
      · exact dropNewline_break hnl y
    rw [hdrop, List.dropWhile_eq_nil_iff.mpr hy]
    rfl

/-- Before a closing fence the longest edge goes. -/
theorem Trail.beforeClosing {p z : Text} (h : Trail p z) :
    beforeClosing (p ++ (z ++ ['%', '>'])) = p := by
  induction p with
  | nil =>
    have hclosing := isClosing_iff.mpr h.edge
    obtain ⟨c, t, ht⟩ := List.exists_cons_of_ne_nil (l := z ++ ['%', '>']) (by simp)
    rw [ht] at hclosing
    rw [List.nil_append, ht, VbTidy.beforeClosing, if_pos hclosing]
  | cons c p ih =>
    have hmiss := h.longest (c :: p) (List.cons_ne_nil c p) (List.suffix_refl _)
    rw [← isClosing_iff, List.append_assoc, List.cons_append] at hmiss
    rw [List.cons_append, VbTidy.beforeClosing, if_neg hmiss]
    refine congrArg (c :: ·) (ih ⟨h.edge, fun s hne hs => ?_⟩)
    exact h.longest s hne (hs.trans (List.suffix_cons c p))

theorem trail_split (t : Text) : ∃ core trail, t = core ++ trail ∧ Trail core trail := by
  induction t with
  | nil =>
    refine ⟨[], [], rfl, ⟨[], [], rfl, .inl rfl, by simp [Blanks]⟩, ?_⟩
    intro s hne hs
    exact absurd (List.suffix_nil.mp hs) hne
  | cons c t ih =>
    by_cases hedge : BackEdge (c :: t)
    · refine ⟨[], c :: t, rfl, hedge, ?_⟩
      intro s hne hs
      exact absurd (List.suffix_nil.mp hs) hne
    · obtain ⟨core, trail, rfl, h⟩ := ih
      refine ⟨c :: core, trail, rfl, h.edge, ?_⟩
      intro s hne hs
      rcases List.suffix_cons_iff.mp hs with rfl | hs
      · exact hedge
      · exact h.longest s hne hs

/-- Behind a line feed an edge has blanks only, and before it a carriage return at most. -/
theorem BackEdge.feed {s t : Text} (h : BackEdge (s ++ '\n' :: t)) :
    Blanks t ∧ (s = [] ∨ s = ['\r']) := by
  obtain ⟨nl, y, heq, hnl, hy⟩ := h
  have hfeed : '\n' ∉ y := fun hm => absurd (hy _ hm) (by decide)
  rcases List.append_eq_append_iff.mp heq with ⟨a, ha, hrest⟩ | ⟨b, rfl, hrest⟩
  · cases a with
    | nil =>
      rw [List.nil_append] at hrest
      exact absurd (by rw [← hrest]; exact List.mem_cons_self) hfeed
    | cons d a =>
      obtain ⟨rfl, rfl⟩ : '\n' = d ∧ t = a ++ y := List.cons.inj hrest
      rcases hnl with rfl | rfl | rfl
      · simp at ha
      · obtain ⟨rfl, rfl⟩ : s = [] ∧ a = [] := by
          cases s with
          | nil => exact ⟨rfl, (List.cons.inj ha).2.symm⟩
          | cons e s => simp at ha
        exact ⟨hy, .inl rfl⟩
      · obtain ⟨rfl, rfl⟩ : s = ['\r'] ∧ a = [] := by
          rcases s with - | ⟨e, - | ⟨f, s⟩⟩
          · exact absurd (List.cons.inj ha).1 (by decide)
          · obtain ⟨rfl, hbehind⟩ := List.cons.inj ha
            exact ⟨rfl, (List.cons.inj hbehind).2.symm⟩
          · simp at ha
        exact ⟨hy, .inr rfl⟩
  · exact absurd (by rw [hrest]; simp) hfeed

/-! ## Taking the fences away -/

/-- What is left of the code of a block between two fences: a line break for both if it is one line
break with blanks around it or just blanks, and else a line break for each, in place of the longest
edge. -/
inductive Inner (newline : Text) : Text → Text → Prop
  | shared {x nl y : Text} (hx : Blanks x) (hnl : nl = [] ∨ LineBreak nl) (hy : Blanks y) :
      Inner newline (x ++ (nl ++ y)) newline
  | apart {lead core trail : Text} (hlead : Lead lead (core ++ trail)) (htrail : Trail core trail)
      (hcode : ¬ Blanks (core ++ trail)) :
      Inner newline (lead ++ (core ++ trail)) (newline ++ (core ++ newline))

/-- A document before and after its fences were taken away, from inside a block or from outside. -/
inductive Unfenced (newline : Text) : Bool → List Fenced → Text → Prop
  | host (s : Text) : Unfenced newline false (s.map .text) s
  | opening {s out : Text} {fs : List Fenced} (h : Unfenced newline true fs out) :
      Unfenced newline false (s.map .text ++ .opening :: fs) (s ++ out)
  | last {lead rest : Text} (hlead : Lead lead rest) :
      Unfenced newline true ((lead ++ rest).map .text) (newline ++ rest)
  | block {body inner out : Text} {fs : List Fenced} (hbody : Inner newline body inner)
      (h : Unfenced newline false fs out) :
      Unfenced newline true (body.map .text ++ .closing :: fs) (inner ++ out)

theorem Unfenced.prepend {newline out : Text} {fs : List Fenced} (h : Unfenced newline false fs out)
    (x : Text) : Unfenced newline false (x.map .text ++ fs) (x ++ out) := by
  cases h with
  | host =>
    rw [← List.map_append]
    exact .host (x ++ out)
  | @opening s out fs h =>
    rw [← List.append_assoc, ← List.append_assoc, ← List.map_append]
    exact .opening h

/-- An edge does not reach over a line feed with more than blanks behind it. -/
theorem Trail.behind_feed {core trail : Text} (h : Trail core trail)
    (hcode : ¬ Blanks (core ++ trail)) (x : Text) : Trail (x ++ ['\n'] ++ core) trail := by
  refine ⟨h.edge, ?_⟩
  intro s hne hs hedge
  have hcore : core <:+ x ++ ['\n'] ++ core := List.suffix_append _ core
  rcases List.suffix_or_suffix_of_suffix hs hcore with hin | ⟨s, rfl⟩
  · exact h.longest s hne hin hedge
  · rcases List.eq_nil_or_concat' s with rfl | ⟨s, c, rfl⟩
    · exact h.longest core hne (List.suffix_refl core) hedge
    · obtain ⟨u, hu⟩ := hs
      have hends : ((u ++ s) ++ [c]) ++ core = (x ++ ['\n']) ++ core := by simpa using hu
      obtain ⟨-, rfl⟩ := List.append_singleton_inj.mp (List.append_cancel_right hends)
      have hassoc : s ++ ['\n'] ++ core ++ trail = s ++ '\n' :: (core ++ trail) := by simp
      rw [hassoc] at hedge
      exact hcode hedge.feed.1

section
variable {newline : Text} (hn : LineBreak newline)
include hn

/-- A line break with blanks behind it is all of an edge, where the text before cannot be taken for
a part of the line break. -/
theorem trail_break {x rest : Text} (hx : x.getLast? ≠ some '\r') (hrest : Blanks rest) :
    Trail x (newline ++ rest) := by
  refine ⟨⟨newline, rest, rfl, .inr hn, hrest⟩, ?_⟩
  intro s hne hs hedge
  rcases hn with rfl | rfl
  · rcases (show BackEdge (s ++ '\n' :: rest) from hedge).feed.2 with rfl | rfl
    · exact hne rfl
    · obtain ⟨u, rfl⟩ := hs
      exact hx (by simp)
  · have hassoc : s ++ (['\r', '\n'] ++ rest) = (s ++ ['\r']) ++ '\n' :: rest := by simp
    rw [hassoc] at hedge
    rcases hedge.feed.2 with hnil | hreturn
    · exact hne (List.append_eq_nil_iff.mp hnil).1
    · exact hne (List.append_left_eq_self.mp hreturn)

/-- The code of a block between its fences. -/
theorem edged_body {x : Text} (hx : x.getLast? ≠ some '\r') (body : Text) :
    ∃ inner, Inner newline body inner ∧
      beforeClosing (x ++ (newline ++ (afterOpening body ++ ['%', '>']))) ++ newline =
        x ++ inner := by
  obtain ⟨lead, hbody, hlead⟩ := lead_afterOpening body
  generalize afterOpening body = rest at hbody hlead
  by_cases hrest : Blanks rest
  · -- the closing fence takes the line break that the opening one has left
    obtain ⟨b, nl, rfl, hb, hnl⟩ := hlead.edge
    refine ⟨newline, ?_, ?_⟩
    · rw [hbody, List.append_assoc]
      exact .shared hb hnl hrest
    · rw [← List.append_assoc _ rest, (trail_break hn hx hrest).beforeClosing]
  · obtain ⟨core, trail, rfl, htrail⟩ := trail_split rest
    obtain ⟨front, hfront⟩ : ∃ front, newline = front ++ ['\n'] := by
      rcases hn with rfl | rfl
      · exact ⟨[], rfl⟩
      · exact ⟨['\r'], rfl⟩
    have hall := htrail.behind_feed hrest (x ++ front)
    rw [hbody]
    refine ⟨_, .apart hlead htrail hrest, ?_⟩
    have hassoc : x ++ (newline ++ (core ++ trail ++ ['%', '>'])) =
        x ++ front ++ ['\n'] ++ core ++ (trail ++ ['%', '>']) := by simp [hfront]
    rw [hassoc, hall.beforeClosing]
    simp [hfront]

end

/-- What is behind a place in a document once the opening fences behind it are taken away; in a
block the line break for its own is there already. -/
def stripped (newline : Text) (inBlock : Bool) (fs : List Fenced) : Text :=
  let t := fs.flatMap Fenced.written
  if inBlock then newline ++ withoutOpening newline (afterOpening t) else withoutOpening newline t

theorem written_text (s : Text) : (s.map Fenced.text).flatMap Fenced.written = s := by
  induction s with
  | nil => rfl
  | cons c s ih => exact congrArg (c :: ·) ih

theorem afterOpening_cut {c : Char} (hblank : isBlank c = false) (hreturn : c ≠ '\r')
    (hfeed : c ≠ '\n') (s z : Text) : afterOpening (s ++ c :: z) = afterOpening s ++ c :: z := by
  rw [afterOpening, dropWhile_cut hblank, dropNewline_cut hreturn hfeed, afterOpening]

/-- A tag that opens a block is there and ends with its bracket. -/
theorem openTag_end {tag t : Text} (h : dropOpenTag? (tag ++ t) = some t) :
    ∃ u, tag = u ++ ['>'] := by
  cases htag : tag ++ t with
  | nil =>
    rw [htag] at h
    cases h
  | cons c r =>
    rw [htag] at h
    obtain ⟨u, rfl⟩ := dropOpenTag?_eq_some h
    have hwhole : tag ++ t = ((c :: u) ++ ['>']) ++ t := by
      rw [htag]
      simp
    exact ⟨c :: u, List.append_cancel_right hwhole⟩

/-- A tag that closes a block starts with its bracket and goes on behind it. -/
theorem closeTag_start {tag t : Text} (h : dropCloseTag? (tag ++ t) = some t) :
    ∃ d u, tag = '<' :: d :: u ∧ d ≠ '%' := by
  cases htag : tag ++ t with
  | nil =>
    rw [htag] at h
    cases h
  | cons c r =>
    rw [htag] at h
    obtain rfl := dropCloseTag?_eq_some h
    obtain ⟨d, u, rfl, hd⟩ := dropCloseTag?_behind h
    have hwhole : tag ++ t = ('<' :: d :: u) ++ t := htag
    exact ⟨d, u, List.append_cancel_right hwhole, hd⟩

/-- An opening fence leaves a line break. -/
theorem stripped_opening {newline s : Text} (hs : '\x00' ∉ s) (fs : List Fenced) :
    stripped newline false (s.map .text ++ .opening :: fs) = s ++ stripped newline true fs := by
  rw [stripped, if_neg (by decide), List.flatMap_append, written_text, List.flatMap_cons,
    withoutOpening_free hs]
  exact congrArg _ (withoutOpening_hit newline _)

/-- A closing fence before a tag is no opening one. -/
theorem stripped_closing {newline s tag : Text} (hs : '\x00' ∉ s) (htag : '\x00' ∉ tag)
    (hstart : ∃ d u, tag = '<' :: d :: u ∧ d ≠ '%') (fs : List Fenced) :
    stripped newline true (s.map .text ++ .closing :: (tag.map .text ++ fs)) =
      newline ++ (afterOpening s ++ (closeFence ++ (tag ++ stripped newline false fs))) := by
  have hwritten : List.flatMap Fenced.written (s.map .text ++ .closing :: (tag.map .text ++ fs)) =
      s ++ (closeFence ++ (tag ++ fs.flatMap Fenced.written)) := by
    rw [List.flatMap_append, written_text, List.flatMap_cons, List.flatMap_append, written_text]
    rfl
  have hafter : afterOpening (s ++ (closeFence ++ (tag ++ fs.flatMap Fenced.written))) =
      afterOpening s ++ (closeFence ++ (tag ++ fs.flatMap Fenced.written)) :=
    afterOpening_cut (by decide) (by decide) (by decide) s _
  have hrest : '\x00' ∉ afterOpening s := fun hm => hs ((suffix_afterOpening s).subset hm)
  have hbehind : withoutOpening newline (closeFence ++ (tag ++ fs.flatMap Fenced.written)) =
      closeFence ++ (tag ++ stripped newline false fs) := by
    obtain ⟨d, u, rfl, hd⟩ := hstart
    rw [List.cons_append, List.cons_append, withoutOpening_closing hd, ← List.cons_append,
      ← List.cons_append, withoutOpening_free htag]
    rfl
  show newline ++ withoutOpening newline (afterOpening _) = _
  rw [hwritten, hafter, withoutOpening_free hrest, hbehind]

/-- The fences of a scan taken away, with a text in front. -/
theorem Blocks.unfenced {newline : Text} (hn : LineBreak newline) {inBlock : Bool} {before t : Text}
    {fs : List Fenced} (h : Blocks inBlock before t fs) (hfree : '\x00' ∉ t) {x : Text}
    (hx : '\x00' ∉ x) (hlast : inBlock = true → x.getLast? ≠ some '\r') :
    ∃ out, Unfenced newline inBlock fs out ∧
      withoutClosing newline (x ++ stripped newline inBlock fs) = x ++ out := by
  have hnul : '\x00' ∉ newline := by rcases hn with rfl | rfl <;> decide
  have hafter : ∀ s : Text, '\x00' ∉ s → '\x00' ∉ afterOpening s :=
    fun s hs hm => hs ((suffix_afterOpening s).subset hm)
  induction h generalizing x with
  | rest inBlock _ s =>
    rw [stripped, written_text]
    cases inBlock with
    | false =>
      refine ⟨s, .host s, ?_⟩
      rw [if_neg (by decide), withoutOpening_all hfree]
      exact withoutClosing_free (by simp [hx, hfree])
    | true =>
      obtain ⟨lead, hs, hlead⟩ := lead_afterOpening s
      refine ⟨newline ++ afterOpening s, ?_, ?_⟩
      · conv in s.map _ => rw [hs]
        exact .last hlead
      · rw [if_pos rfl, withoutOpening_all (hafter s hfree)]
        exact withoutClosing_free (by simp [hx, hnul, hafter s hfree])
  | @opened _ s tag t fs htag _ _ ih =>
    rw [← List.append_assoc, List.mem_append, not_or] at hfree
    have hbracket : (x ++ (s ++ tag)).getLast? ≠ some '\r' := by
      obtain ⟨u, rfl⟩ := openTag_end htag
      simp [← List.append_assoc]
    have hfront : '\x00' ∉ x ++ (s ++ tag) := by
      rw [List.mem_append, not_or]
      exact ⟨hx, hfree.1⟩
    obtain ⟨out, hout, heq⟩ := ih hfree.2 hfront fun _ => hbracket
    refine ⟨(s ++ tag) ++ out, .opening hout, ?_⟩
    rw [stripped_opening hfree.1, ← List.append_assoc x, heq, List.append_assoc x]
  | @closed _ s tag t fs htag _ _ ih =>
    rw [List.mem_append, List.mem_append, not_or, not_or] at hfree
    obtain ⟨hs, htagfree, ht⟩ := hfree
    obtain ⟨out, hout, heq⟩ := ih ht htagfree (by simp)
    obtain ⟨inner, hinner, hbody⟩ := edged_body hn (hlast rfl) s
    refine ⟨inner ++ (tag ++ out), .block hinner (hout.prepend tag), ?_⟩
    have hp : '\x00' ∉ x ++ (newline ++ afterOpening s) := by simp [hx, hnul, hafter s hs]
    calc withoutClosing newline
          (x ++ stripped newline true (s.map .text ++ .closing :: (tag.map .text ++ fs)))
        = withoutClosing newline ((x ++ (newline ++ afterOpening s)) ++
            (closeFence ++ (tag ++ stripped newline false fs))) := by
          rw [stripped_closing hs htagfree (closeTag_start htag)]
          simp only [List.append_assoc]
      _ = beforeClosing (x ++ (newline ++ (afterOpening s ++ ['%', '>']))) ++ newline ++
            (tag ++ out) := by
          rw [withoutClosing_closeFence hp, heq]
          simp only [List.append_assoc]
      _ = x ++ (inner ++ (tag ++ out)) := by rw [hbody, List.append_assoc]

/-- Fences stand in turn, each next to a tag where no string is open, and without them the document
is the text. Where they are taken away no NUL is left, and of the text only the edges of blocks
change: each fence leaves a line break in place of the blanks and the line break next to it, and two
fences with nothing else between them leave one. -/
theorem fences_reversible {t newline : Text} (h : '\x00' ∉ t) (hn : LineBreak newline) :
    charsOf (fence t) = t ∧
    (∃ n, fencesOf (fence t) = turns false n) ∧
    (∀ u v, fence t = u ++ .opening :: v → ∃ s tag, u = s ++ tag.map .text ∧
      dropOpenTag? (tag ++ charsOf v) = some (charsOf v) ∧ EvenQuotes (charsOf s)) ∧
    (∀ u v, fence t = u ++ .closing :: v → ∃ tag w, v = tag.map .text ++ w ∧
      dropCloseTag? (tag ++ charsOf w) = some (charsOf w) ∧ EvenQuotes (charsOf u)) ∧
    '\x00' ∉ unfenceScripts newline (fenceScripts t) ∧
    Unfenced newline false (fence t) (unfenceScripts newline (fenceScripts t)) := by
  have hblocks : Blocks false [] t (fence t) := blocks_fenceFrom false [] t
  have hnul : '\x00' ∉ newline := by rcases hn with rfl | rfl <;> decide
  obtain ⟨out, hout, heq⟩ := hblocks.unfenced hn h (x := []) (by simp) (by simp)
  rw [List.nil_append, List.nil_append] at heq
  have hunfence : unfenceScripts newline (fenceScripts t) = out := heq
  refine ⟨hblocks.chars, hblocks.turns, fun u v => hblocks.opening_behind,
    fun u v => hblocks.closing_before, ?_, ?_⟩
  · exact nul_not_mem_unfenceScripts hnul (whole_fenceFrom h)
  · rwa [hunfence]

/-- A page with a block of code, and an empty one. -/
def twoBlocks : Text :=
  "<script vbscript> \n x\t\r\n</script><script vbscript>\t\n </script>".toList

theorem twoBlocks_reversible : '\x00' ∉ twoBlocks ∧ LineBreak ['\n'] ∧
    charsOf (fence twoBlocks) = twoBlocks ∧
    Unfenced ['\n'] false (fence twoBlocks)
      "<script vbscript>\n x\t\n</script><script vbscript>\n</script>".toList := by
  have hfree : '\x00' ∉ twoBlocks := by decide
  have hout : unfenceScripts ['\n'] (fenceScripts twoBlocks) =
      "<script vbscript>\n x\t\n</script><script vbscript>\n</script>".toList := by decide +kernel
  obtain ⟨hchars, -, -, -, -, hunfenced⟩ := fences_reversible hfree (.inl rfl : LineBreak ['\n'])
  rw [hout] at hunfenced
  exact ⟨hfree, .inl rfl, hchars, hunfenced⟩

end VbTidy
