import VbTidy.Proofs.Shifted
import VbTidy.Proofs.Recased

/-
The numbers of tokens and literals. A document is put back as a whole, and measured in pieces: each
piece is filled from where the one before has left off. `Tally` says that every kind in turn finds
as many tokens in the pieces as it has literals; then both ways of filling succeed (`matched_tally`,
`align_tally`). Pieces that are fit have a tally, if their marks are those that putting aside has
left (`tally_of_fit`): whole tokens and no strays let every kind find its own tokens and no others,
and what is put back keeps the pieces fit for the kinds to come.
-/
namespace VbTidy

/-! ## Pieces -/

/-- The pieces of a document after a kind is back, each filled from where the one before has left
off. -/
def fillPieces (k : Kind) : List Text → List Text → List Text
  | [], _ => []
  | p :: ps, ls =>
    (cutTokens k p).fillWith ls :: fillPieces k ps (ls.drop (cutTokens k p).rest.length)

/-- The number of tokens of a kind in pieces. -/
def tokensIn (k : Kind) : List Text → Nat
  | [] => 0
  | p :: ps => (cutTokens k p).rest.length + tokensIn k ps

/-- Kinds in turn find as many tokens as they have literals. -/
def Tally (s : Shelves) : List Kind → List Text → Prop
  | [], _ => True
  | k :: ks, ps => tokensIn k ps = (s.get k).length ∧ Tally s ks (fillPieces k ps (s.get k))

/-- A document in one piece. -/
theorem matched_tally {s : Shelves} {t : Text} (h : Tally s Kind.backOrder [t]) : Matched s t := by
  have htokens : ∀ k u, tokensIn k [u] = (cutTokens k u).rest.length := by
    simp [tokensIn]
  simp only [Kind.backOrder, Tally, fillPieces, htokens] at h
  obtain ⟨h₁, h₂, h₃, h₄, h₅, _⟩ := h
  intro k
  cases k with
  | resume => exact h₁
  | remark => exact h₂
  | string => exact h₃
  | delimiter => exact h₄
  | markup => exact h₅

/-- Kinds in turn have literals enough from their positions on. -/
def Enough (s : Shelves) (at_ : PerKind Nat) : List Kind → List Text → Prop
  | [], _ => True
  | k :: ks, ps => at_.get k + tokensIn k ps ≤ (s.get k).length ∧
      Enough s at_ ks (fillPieces k ps ((s.get k).drop (at_.get k)))

theorem Tally.enough {s : Shelves} {ks : List Kind} {ps : List Text} (h : Tally s ks ps) :
    Enough s (PerKind.const 0) ks ps := by
  induction ks generalizing ps with
  | nil => trivial
  | cons k ks ih =>
    obtain ⟨hk, hks⟩ := h
    refine ⟨?_, ?_⟩
    · rw [PerKind.get_const, hk]
      omega
    · rw [PerKind.get_const, List.drop_zero]
      exact ih hks

theorem Enough.congr {s : Shelves} {at_ at' : PerKind Nat} {ks : List Kind} {ps : List Text}
    (hat : ∀ k ∈ ks, at'.get k = at_.get k) (h : Enough s at_ ks ps) : Enough s at' ks ps := by
  induction ks generalizing ps with
  | nil => trivial
  | cons k ks ih =>
    have hk := hat k List.mem_cons_self
    rw [Enough, hk]
    exact ⟨h.1, ih (fun j hj => hat j (List.mem_cons_of_mem _ hj)) h.2⟩

/-- A piece is filled, and enough is left for the pieces behind it. -/
theorem fillFrom_ok {s : Shelves} {ks : List Kind} (hnd : ks.Nodup) {at_ : PerKind Nat} {p : Text}
    {ps : List Text} (h : Enough s at_ ks (p :: ps)) :
    ∃ t at', s.fillFrom ks at_ p = (.ok t, at') ∧ Enough s at' ks ps ∧
      ∀ j, j ∉ ks → at'.get j = at_.get j := by
  induction ks generalizing at_ p ps with
  | nil => exact ⟨p, at_, rfl, trivial, fun _ _ => rfl⟩
  | cons k ks ih =>
    obtain ⟨hk, hnd⟩ := List.nodup_cons.mp hnd
    obtain ⟨hlen, hmore⟩ := h
    have htokens : tokensIn k (p :: ps) = (cutTokens k p).rest.length + tokensIn k ps := rfl
    rw [htokens] at hlen
    have hfill : (s.shelf k).fill (at_.get k) p =
        (.ok ((cutTokens k p).fillWith ((s.get k).drop (at_.get k))),
          at_.get k + (cutTokens k p).rest.length) :=
      Shelf.fill_ok (s := s.shelf k) (t := p) (by
        change at_.get k + (cutTokens k p).rest.length ≤ (s.get k).length
        omega)
    rw [fillPieces] at hmore
    have hset : ∀ j ∈ ks, (at_.set k (at_.get k + (cutTokens k p).rest.length)).get j =
        at_.get j := by
      intro j hj
      rw [PerKind.get_set, if_neg]
      rintro rfl
      exact hk hj
    obtain ⟨t, at', hrun, henough, hother⟩ := ih hnd (hmore.congr hset)
    have hat : at'.get k = at_.get k + (cutTokens k p).rest.length := by
      rw [hother k hk, PerKind.get_set_self]
    refine ⟨t, at', ?_, ⟨?_, ?_⟩, fun j hj => ?_⟩
    · rw [Shelves.fillFrom, hfill]
      exact hrun
    · rw [hat]
      omega
    · rw [hat, ← List.drop_drop]
      exact henough
    · rw [List.mem_cons, not_or] at hj
      rw [hother j hj.2, PerKind.get_set, if_neg hj.1]

/-- The pieces of a line with a cut or none. -/
def piecesOf : Text × Option Nat → List Text
  | (line, none) => [line]
  | (line, some cut) => [line.take cut, line.drop cut]

theorem columnsFrom_ok {s : Shelves} {lines : List (Text × Option Nat)} {at_ : PerKind Nat}
    (h : Enough s at_ Kind.backOrder (lines.flatMap piecesOf)) :
    ∃ cols, columnsFrom s at_ lines = .ok cols := by
  have hnd : Kind.backOrder.Nodup := by decide
  induction lines generalizing at_ with
  | nil => exact ⟨[], rfl⟩
  | cons p lines ih =>
    obtain ⟨line, cut⟩ := p
    cases cut with
    | none =>
      obtain ⟨t, at', hfill, hmore, _⟩ := fillFrom_ok hnd (p := line) h
      obtain ⟨cols, hcols⟩ := ih hmore
      refine ⟨none :: cols, ?_⟩
      rw [columnsFrom, Shelves.fill, hfill]
      simp [hcols, Except.map]
    | some cut =>
      obtain ⟨head, at', hfill, hmore, _⟩ := fillFrom_ok hnd (p := line.take cut) h
      obtain ⟨t, at'', hfill', hmore', _⟩ := fillFrom_ok hnd (p := line.drop cut) hmore
      obtain ⟨cols, hcols⟩ := ih hmore'
      refine ⟨some (width (lastLine head)) :: cols, ?_⟩
      rw [columnsFrom, Shelves.fill, hfill]
      simp only [Shelves.fill, hfill', hcols]
      rfl

/-- Lines are aligned if their pieces have a tally. -/
theorem align_tally {m : Marker} {s : Shelves} {lines : List Text}
    (h : Tally s Kind.backOrder ((lines.map fun line => (line, m.cut line)).flatMap piecesOf)) :
    ∃ out, m.align s lines = .ok out := by
  obtain ⟨cols, hcols⟩ := columnsFrom_ok h.enough
  simp only [Marker.align]
  split
  · exact ⟨lines, rfl⟩
  · rw [columns, hcols]
    exact ⟨_, rfl⟩

/-! ## Pieces that are fit -/

/-- A piece that the kinds from a turn on can be put back into: whole tokens, no strays, and nothing
that touches a comment from behind. -/
structure Fit (n : Nat) (p : Text) : Prop where
  sound : Sound n p
  clear : ∀ k : Kind, n ≤ k.turn → ¬ Stray k p
  ended : ∀ x y, Occurs (.kind .remark) x y p → (y.head?).all isBreak = true

theorem Fit.tokens {k : Kind} {p : Text} (h : Fit k.turn p) :
    (cutTokens k p).rest.length = (marks p).count (.kind k) := by
  have hcut := cut_sound h.sound (h.clear k (Nat.le_refl _))
  rw [← count_marks_mask hcut, mask_cutTokens]

theorem tokensIn_fit {k : Kind} {ps : List Text} (h : ∀ p ∈ ps, Fit k.turn p) :
    tokensIn k ps = (ps.flatMap marks).count (.kind k) := by
  induction ps with
  | nil => rfl
  | cons p ps ih =>
    have hmore := ih fun q hq => h q (List.mem_cons_of_mem _ hq)
    rw [List.flatMap_cons, List.count_append, ← hmore, ← (h p List.mem_cons_self).tokens]
    rfl

/-- What follows a literal of a kind where it is put back: a break or nothing after a comment. -/
def After (j : Kind) (b : Text) : Prop :=
  j = .remark → (b.head?).all isBreak = true

/-- Literals that a fit piece may be filled with. -/
structure Fitting (j : Kind) (l : Text) : Prop where
  sound : Sound (j.turn + 1) l
  shuts : ∀ k : Kind, j.turn < k.turn → Shuts k (After j) l
  clear : ∀ k : Kind, j.turn < k.turn → ¬ Stray k l
  free : j = .resume → '\x00' ∉ l

/-- A comment that a fit piece is filled with is followed by a break or nothing. -/
theorem Fit.after {j : Kind} {p : Text} (h : Fit j.turn p) {q : Text × Text}
    {more : List (Text × Text)} (hq : q :: more <:+ (cutTokens j p).rest) (ms : List Text) :
    After j ((Weave.mk q.2 more).fillWith ms) := by
  rintro rfl
  obtain ⟨pre, hpre⟩ := hq
  have hcut := cut_sound h.sound (h.clear .remark (Nat.le_refl _))
  have hmask := mask_cutTokens .remark p
  generalize cutTokens .remark p = w at *
  obtain ⟨head, rest⟩ := w
  simp only at hpre
  subst hpre
  -- the token in front of the text stands in the piece
  have hocc : ∀ head, (∀ g ∈ (Weave.mk head (pre ++ q :: more)).gaps, Sound 2 g) →
      ∃ x, Occurs (.kind .remark) x (Lifting.mask .remark ⟨q.2, more⟩)
        (Lifting.mask .remark ⟨head, pre ++ q :: more⟩) := by
    clear hmask hcut
    induction pre with
    | nil =>
      intro head hg
      exact ⟨head, mask_cons .remark head q more, (hg head List.mem_cons_self).mono (by omega)⟩
    | cons r pre ih =>
      intro head hg
      obtain ⟨x, hx⟩ := ih r.2 fun g hg' => hg g (List.mem_cons_of_mem _ hg')
      refine ⟨head ++ ((Mark.kind .remark).token ++ x), ?_⟩
      rw [List.cons_append, mask_cons]
      exact (hx.append_left (.mark (Nat.zero_le _))).append_left
        ((hg head List.mem_cons_self).mono (by omega))
  obtain ⟨x, hx⟩ := hocc head hcut
  rw [hmask] at hx
  have hbreak := h.ended x _ hx
  obtain ⟨r, gap⟩ := q
  cases gap with
  | cons c gap => exact hbreak
  | nil =>
    cases more with
    | nil => simp [Weave.fillWith]
    | cons r' more =>
      rw [mask_cons] at hbreak
      have hnul : isBreak '\x00' = true := hbreak
      exact absurd hnul (by decide)

/-- Error phrases leave what follows a comment as it is. -/
theorem ended_fill_resume {w : Weave} {ls : List Text} (hw : ∀ g ∈ w.gaps, Sound 0 g)
    (hl : ∀ l ∈ ls, '\x00' ∉ l) (hlen : ls.length = w.rest.length)
    (hm : ∀ x y, Occurs (.kind .remark) x y (Lifting.mask .resume w) →
      (y.head?).all isBreak = true) :
    ∀ x y, Occurs (.kind .remark) x y (w.fillWith ls) → (y.head?).all isBreak = true := by
  obtain ⟨head, rest⟩ := w
  induction rest generalizing head ls with
  | nil =>
    have hmask : Lifting.mask .resume ⟨head, []⟩ = (Weave.mk head []).fillWith ls := by
      simp [Lifting.mask, Weave.replace, Weave.fillWith]
    rwa [← hmask]
  | cons p rest ih =>
    obtain ⟨l, ls, rfl⟩ := List.exists_cons_of_length_pos (l := ls) (by simp at hlen; omega)
    have hhead := hw head List.mem_cons_self
    have hfill : (Weave.mk head (p :: rest)).fillWith (l :: ls) =
        head ++ (l ++ (Weave.mk p.2 rest).fillWith ls) := by
      simp [Weave.fillWith]
    rw [hfill]
    rw [mask_cons] at hm
    intro x y hxy
    rcases hxy.of_append hhead with ⟨y', h', rfl⟩ | ⟨x', h', _⟩
    · have := hm x _ (h'.append_right _)
      cases y' with
      | nil =>
        have hnul : isBreak '\x00' = true := this
        exact absurd hnul (by decide)
      | cons c y' => exact this
    · obtain ⟨x'', h'', _⟩ := h'.of_nul_free_append (hl l List.mem_cons_self)
      refine ih (fun l hl' => hl l (List.mem_cons_of_mem _ hl')) p.2
        (fun g hg => hw g (List.mem_cons_of_mem _ hg)) (by simpa using hlen) ?_ x'' y h''
      intro x y h
      exact hm _ y ((h.append_left (.mark (Nat.zero_le _))).append_left hhead)

/-- A fit piece filled with fitting literals is fit for the next turn, and has their marks where it
had marks of the kind. -/
theorem Fit.fill {j : Kind} {p : Text} {ls : List Text} (h : Fit j.turn p)
    (hl : ∀ l ∈ ls, Fitting j l) (hlen : (cutTokens j p).rest.length ≤ ls.length) :
    Fit (j.turn + 1) ((cutTokens j p).fillWith ls) ∧
      marks ((cutTokens j p).fillWith ls) = restock j (ls.map marks) (marks p) := by
  have hcut := cut_sound h.sound (h.clear j (Nat.le_refl _))
  have hmarks : marks ((cutTokens j p).fillWith ls) = restock j (ls.map marks) (marks p) := by
    rw [marks_fillWith hcut (fun l hl' => (hl l hl').sound) hlen, mask_cutTokens]
  refine ⟨?_, hmarks⟩
  have htake : ∀ l ∈ ls.take (cutTokens j p).rest.length, Fitting j l :=
    fun l hl' => hl l (List.mem_of_mem_take hl')
  have hsound : Sound (j.turn + 1) ((cutTokens j p).fillWith ls) :=
    sound_fillWith hcut fun l hl' => (hl l hl').sound
  rw [← Weave.fillWith_take] at hsound ⊢
  have hsame : (ls.take (cutTokens j p).rest.length).length = (cutTokens j p).rest.length := by
    simp [hlen]
  refine ⟨hsound, fun k hk => ?_, fun x y hxy => ?_⟩
  · rw [stray_fillWith (j := j) hk (After j) hcut
      (fun l hl' => (htake l hl').shuts k hk) hsame fun q more ms hq => h.after hq ms]
    rw [mask_cutTokens]
    rintro (hs | ⟨l, hl', hs⟩)
    · exact h.clear k (by omega) hs
    · exact (htake l hl').clear k hk hs
  · have hturn := turn_of_mem_marks hsound _ hxy.mem_marks
    -- only error phrases are put back before comments
    have hj : j = .resume := by
      cases j with
      | resume => rfl
      | remark => exact absurd hturn (by decide)
      | string => exact absurd hturn (by decide)
      | delimiter => exact absurd hturn (by decide)
      | markup => exact absurd hturn (by decide)
    subst hj
    refine ended_fill_resume (fun g hg => (hcut g hg).mono (Nat.zero_le _))
      (fun l hl' => (htake l hl').free rfl) hsame ?_ x y hxy
    rw [mask_cutTokens]
    exact h.ended

/-- All pieces of a document, filled one after the other. -/
theorem fit_fillPieces {j : Kind} {ps ls : List Text} (h : ∀ p ∈ ps, Fit j.turn p)
    (hl : ∀ l ∈ ls, Fitting j l) (hlen : tokensIn j ps ≤ ls.length) :
    (∀ p ∈ fillPieces j ps ls, Fit (j.turn + 1) p) ∧
      (fillPieces j ps ls).flatMap marks = restock j (ls.map marks) (ps.flatMap marks) := by
  induction ps generalizing ls with
  | nil => exact ⟨by simp [fillPieces], rfl⟩
  | cons p ps ih =>
    have hp := h p List.mem_cons_self
    have htokens : tokensIn j (p :: ps) = (cutTokens j p).rest.length + tokensIn j ps := rfl
    rw [htokens] at hlen
    obtain ⟨hfit, hmarks⟩ := hp.fill hl (by omega)
    obtain ⟨hmore, hmarks'⟩ := @ih (ls.drop (cutTokens j p).rest.length)
      (fun q hq => h q (List.mem_cons_of_mem _ hq)) (fun l hl' => hl l (List.mem_of_mem_drop hl'))
      (by rw [List.length_drop]; omega)
    rw [fillPieces]
    refine ⟨?_, ?_⟩
    · intro q hq
      rcases List.mem_cons.mp hq with rfl | hq
      · exact hfit
      · exact hmore q hq
    · rw [List.flatMap_cons, List.flatMap_cons, restock_append, hmarks, hmarks', ← hp.tokens,
        List.map_drop]

end VbTidy
