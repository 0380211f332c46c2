import VbTidy.Proofs.Tally

/-
When the bookkeeping rejects a document. A document of which nothing stands astray is never rejected
for its tokens (`matched_of_clear`): every pass leaves whole tokens and no strays, so every kind
finds a token for each of its literals. And a document in which a name stands astray is always
rejected, if it gets as far as that: were it not, the text would be sound at the end, hence cut at
real tokens only, and a stray would not have been cut at.
-/
namespace VbTidy

/-! ## Literals -/

theorem opens_of_head {k : Kind} {t : Text} (h : (t.head?).all isBreak = true) : Opens k t := by
  intro c hc
  rw [hc, Option.all_some] at h
  exact ⟨ne_nul_of_isBreak h, not_mem_name_of_isBreak h (.kind k)⟩

theorem StartsRemark.ne_nil {t : Text} (h : StartsRemark t) : t ≠ [] := by
  rintro rfl
  rcases h with h | h
  · cases h
  · cases h

/-- A comment does not go on with the name of a kind that is put back after comments. -/
theorem StartsRemark.opens {k : Kind} (hk : Kind.remark.turn < k.turn) {t : Text}
    (h : StartsRemark t) : Opens k t := by
  have hname : '\'' ∉ k.name ∧ 'r' ∉ k.name := by
    cases k with
    | resume => exact absurd hk (by decide)
    | remark => exact absurd hk (by decide)
    | string => decide
    | delimiter => decide
    | markup => decide
  intro c hc
  rcases h with h | h
  · obtain rfl : '\'' = c := Option.some.inj (h.symm.trans hc)
    exact ⟨by decide, hname.1⟩
  · match t, h with
    | r :: e :: m :: t, h =>
      obtain rfl : r = c := by simpa using hc
      simp only [isRem, Bool.and_eq_true, beq_iff_eq] at h
      refine ⟨?_, fun hr => ?_⟩
      · rintro rfl
        exact absurd h.1.1.1 (by decide)
      · have hsame : lowerChar r = r :=
          lowerChar_token (m := .kind k) (List.mem_cons_of_mem _ (List.mem_append_left _ hr))
        rw [hsame] at h
        exact hname.2 (h.1.1.1 ▸ hr)

section
variable {raw : Text} (hnul : '\x00' ∉ raw)
include hnul

theorem sound_shelves (j : Kind) :
    ∀ l ∈ (Lifting.result raw).shelves.get j, Sound (j.turn + 1) l := by
  intro l hl
  rw [shelves_eq] at hl
  split at hl
  · obtain ⟨_, _, rfl⟩ := List.mem_map.mp hl
    exact .of_nul_free (by decide)
  · exact (soundCut_lift hnul j).hits l hl

/-- A literal keeps strays on either side of it apart, a comment with a break or nothing behind
it. -/
theorem shuts_shelves {j k : Kind} (hjk : j.turn < k.turn) {l : Text}
    (hl : l ∈ (Lifting.result raw).shelves.get j) : Shuts k (After j) l := by
  have hsound : Sound 0 l := (sound_shelves hnul j l hl).mono (Nat.zero_le _)
  have hfree : '\x00' ∉ l → ∀ b, Sound 0 b → (Stray k (l ++ b) ↔ Stray k l ∨ Stray k b) := by
    intro hl b _
    rw [stray_nul_free_append hl]
    simp [not_stray_nul_free hl]
  have hopens : ∀ {c : Char} {z : Text}, c ≠ '\x00' → c ∉ k.name → Opens k (c :: z) := by
    intro c z hc hn d hd
    obtain rfl : c = d := by simpa using hd
    exact ⟨hc, hn⟩
  have hname : ∀ c ∈ ['O', '<', '-', '"', '\''], c ∉ k.name := by
    cases k <;> decide
  rw [shelves_eq] at hl
  cases j with
  | resume =>
    rw [if_pos rfl] at hl
    obtain ⟨_, _, rfl⟩ := List.mem_map.mp hl
    refine ⟨hsound, by decide, hopens (by decide) (hname 'O' (by decide)), ?_⟩
    exact fun b hb _ => hfree (by decide) b hb
  | delimiter =>
    rw [if_neg (by decide)] at hl
    rcases hit_delimiter hl with rfl | rfl
    · refine ⟨hsound, by decide, hopens (by decide) (hname '<' (by decide)), ?_⟩
      exact fun b hb _ => hfree (by decide) b hb
    · refine ⟨hsound, by decide, hopens (by decide) (hname '-' (by decide)), ?_⟩
      exact fun b hb _ => hfree (by decide) b hb
  | string =>
    rw [if_neg (by decide)] at hl
    obtain ⟨body, rfl⟩ := string_of_hit hl
    refine ⟨hsound, by simp, hopens (by decide) (hname '"' (by decide)), fun b hb _ => ?_⟩
    -- no name has the double quote in it that ends the literal
    have hquote : '"' ∉ k.name := hname '"' (by decide)
    have hbody : Sound 0 ('"' :: body) := by
      refine (Sound.split (z := ['"']) (Sound.clean_cons (by decide) (by decide)) ?_).1
      simpa using hsound
    have hall : '"' :: (body ++ ['"']) ++ b = ('"' :: body) ++ '"' :: b := by simp
    have hone : '"' :: (body ++ ['"']) = ('"' :: body) ++ '"' :: [] := by simp
    rw [hall, hone, stray_break hbody hb (by decide) hquote,
      stray_break hbody .nil (by decide) hquote]
    simp [stray_nil]
  | remark =>
    rw [if_neg (by decide)] at hl
    have hstart := startsRemark_of_hit hl
    refine ⟨hsound, hstart.ne_nil, hstart.opens hjk, fun b hb hafter => ?_⟩
    exact stray_append_opens hsound hb (opens_of_head (hafter rfl))
  | markup =>
    have : k.turn ≤ 4 := by cases k <;> decide
    exact absurd hjk (by have : Kind.markup.turn = 4 := rfl; omega)

/-- No literal has a stray of a kind that is put back after it. -/
def ClearLiterals (raw : Text) : Prop :=
  ∀ j k : Kind, j.turn < k.turn → ∀ l ∈ (Lifting.result raw).shelves.get j, ¬ Stray k l

theorem fitting_shelves (hclear : ClearLiterals raw) (j : Kind) :
    ∀ l ∈ (Lifting.result raw).shelves.get j, Fitting j l := by
  intro l hl
  refine ⟨sound_shelves hnul j l hl, fun k hk => shuts_shelves hnul hk hl,
    fun k hk => hclear j k hk l hl, ?_⟩
  rintro rfl
  rw [shelves_eq, if_pos rfl] at hl
  obtain ⟨_, _, rfl⟩ := List.mem_map.mp hl
  decide

/-! ## The tally -/

theorem sound_takenFrom (j : Kind) : Sound (j.turn + 1) (takenFrom raw j) := by
  cases j with
  | markup => exact sound_fenceScripts hnul
  | delimiter => exact (soundCut_lift hnul .markup).mask
  | string => exact (soundCut_lift hnul .delimiter).mask
  | remark => exact (soundCut_lift hnul .string).mask
  | resume => exact (soundCut_lift hnul .remark).mask

/-- The literals of a kind bring the marks back that were there before they were put aside. -/
theorem restock_shelves (j : Kind) :
    restock j (((Lifting.result raw).shelves.get j).map marks)
      (marks (Lifting.mask j ((liftCut raw).get j))) = marks (takenFrom raw j) := by
  have hcut := soundCut_lift hnul j
  have hlen := shelves_length raw j
  have hl := sound_shelves hnul j
  rw [← marks_fillWith hcut.gaps hl (by omega)]
  refine marks_of_squeezed (sound_fillWith hcut.gaps hl) (sound_takenFrom hnul j) ?_
  rw [Weave.squeezed_fillWith, shelves_squeezed, ← Weave.squeezed_fillWith, Weave.fillWith_hits,
    squeezed_source_lift]

/-- One kind is put back: it finds a token for each literal, and leaves the pieces fit for the next
kind. -/
theorem tally_step (hclear : ClearLiterals raw) {j : Kind} {ps : List Text}
    (hfit : ∀ p ∈ ps, Fit j.turn p)
    (hmarks : ps.flatMap marks = marks (Lifting.mask j ((liftCut raw).get j))) :
    tokensIn j ps = ((Lifting.result raw).shelves.get j).length ∧
      (∀ p ∈ fillPieces j ps ((Lifting.result raw).shelves.get j), Fit (j.turn + 1) p) ∧
      (fillPieces j ps ((Lifting.result raw).shelves.get j)).flatMap marks =
        marks (takenFrom raw j) := by
  have hcount : tokensIn j ps = ((Lifting.result raw).shelves.get j).length := by
    rw [tokensIn_fit hfit, hmarks, count_marks_mask (soundCut_lift hnul j).gaps, shelves_length]
  obtain ⟨hmore, hmarks'⟩ := fit_fillPieces hfit (fitting_shelves hnul hclear j) (by omega)
  refine ⟨hcount, hmore, ?_⟩
  rw [hmarks', hmarks, restock_shelves hnul]

theorem tally_of_fit (hclear : ClearLiterals raw) {ps : List Text} (hfit : ∀ p ∈ ps, Fit 0 p)
    (hmarks : ps.flatMap marks = marks (Lifting.mask .resume ((liftCut raw).get .resume))) :
    Tally (Lifting.result raw).shelves Kind.backOrder ps := by
  obtain ⟨h₁, hfit₁, hmarks₁⟩ := tally_step hnul hclear (j := .resume) hfit hmarks
  obtain ⟨h₂, hfit₂, hmarks₂⟩ := tally_step hnul hclear (j := .remark) hfit₁ hmarks₁
  obtain ⟨h₃, hfit₃, hmarks₃⟩ := tally_step hnul hclear (j := .string) hfit₂ hmarks₂
  obtain ⟨h₄, hfit₄, hmarks₄⟩ := tally_step hnul hclear (j := .delimiter) hfit₃ hmarks₃
  obtain ⟨h₅, _, _⟩ := tally_step hnul hclear (j := .markup) hfit₄ hmarks₄
  exact ⟨h₁, h₂, h₃, h₄, h₅, trivial⟩

end

/-! ## Lines and their pieces -/

/-- A line that nothing stands astray in. -/
structure Clear (l : Text) : Prop where
  settled : Settled l
  clear : ∀ k, ¬ Stray k l

theorem Clear.fit {l : Text} (h : Clear l) : Fit 0 l where
  sound := h.settled.sound
  clear k _ := h.clear k
  ended x y hxy := by rw [h.settled.last x y hxy]; rfl

theorem Clear.moves {m : Marker} (hm : m = assignmentMarker ∨ m = remarkMarker) {l l' : Text}
    (h : Clear l) (hl : m.Moves l l') : Clear l' :=
  let ⟨hs, hc⟩ := h.settled.moves hm h.clear hl
  ⟨hs, hc⟩

theorem Fit.split {a b : Text} (ha : Sound 0 a) (h : Fit 0 (a ++ b)) : Fit 0 a ∧ Fit 0 b := by
  have hb : Sound 0 b := Sound.cancel ha h.sound
  refine ⟨⟨ha, fun k hk hs => h.clear k hk (hs.append_right hb), fun x y hxy => ?_⟩,
    ⟨hb, fun k hk hs => h.clear k hk (hs.append_left ha), fun x y hxy => ?_⟩⟩
  · have := h.ended x _ (hxy.append_right b)
    cases y with
    | nil => rfl
    | cons c y => exact this
  · exact h.ended _ y (hxy.append_left ha)

theorem Fit.append {a b : Text} (ha : Fit 0 a) (hb : Fit 0 b) (hh : (b.head?).all isBreak = true) :
    Fit 0 (a ++ b) where
  sound := ha.sound.append hb.sound
  clear k hk := by
    rw [stray_append_opens ha.sound hb.sound (opens_of_head hh)]
    rintro (hs | hs)
    · exact ha.clear k hk hs
    · exact hb.clear k hk hs
  ended x y hxy := by
    rcases hxy.of_append ha.sound with ⟨y', hy', rfl⟩ | ⟨x', hx', _⟩
    · cases y' with
      | nil => exact hh
      | cons c y' =>
        have := ha.ended x _ hy'
        exact this
    · exact hb.ended x' y hx'

/-- The text before the cut of a line has whole tokens. -/
theorem sound_take_cut {m : Marker} (hm : m = assignmentMarker ∨ m = remarkMarker) {l : Text}
    (h : Clear l) {cut : Nat} (hc : m.cut l = some cut) : Sound 0 (l.take cut) := by
  rcases hm with rfl | rfl
  · obtain ⟨a, b, rfl, rfl, _⟩ := assignment_shift (n := 0) hc
    rw [List.take_left]
    exact (Sound.split (clean_equals b) h.settled.sound).1
  · obtain ⟨x, y, rfl, hfirst, rfl, _⟩ := remark_shift (n := 0) hc
    obtain ⟨hx, _⟩ := comment_of_first h.settled.toOrderly (h.clear .remark) hfirst
    obtain ⟨s, hs, _⟩ := dropEnd_append isSpace x
    have hd : Sound 0 (dropEnd isSpace x) := (tame_dropEnd hx).sound
    have htake : (x ++ (Kind.remark.token ++ y)).take (dropEnd isSpace x).length =
        dropEnd isSpace x := by
      generalize dropEnd isSpace x = d at hs
      rw [hs, List.append_assoc, List.take_left]
    rwa [htake]

theorem fit_pieces {m : Marker} (hm : m = assignmentMarker ∨ m = remarkMarker) {l : Text}
    (h : Clear l) : (∀ p ∈ piecesOf (l, m.cut l), Fit 0 p) ∧
      (piecesOf (l, m.cut l)).flatMap marks = marks l := by
  cases hc : m.cut l with
  | none =>
    simp only [piecesOf, List.flatMap_singleton, List.mem_singleton, forall_eq]
    exact ⟨h.fit, trivial⟩
  | some cut =>
    have hsound := sound_take_cut hm h hc
    have hfit := h.fit
    rw [← List.take_append_drop cut l] at hfit
    obtain ⟨hleft, hright⟩ := hfit.split hsound
    refine ⟨?_, ?_⟩
    · intro p hp
      rcases List.mem_pair.mp hp with rfl | rfl
      · exact hleft
      · exact hright
    · have := marks_append hsound (l.drop cut)
      rw [List.take_append_drop] at this
      simp [piecesOf, this]

/-- The marks of sound lines are those of their letters. -/
theorem marks_squeezed_lines {lines : List Text} (h : ∀ l ∈ lines, Sound 0 l) :
    lines.flatMap marks = marks (lines.flatMap squeezed) := by
  induction lines with
  | nil => rfl
  | cons l lines ih =>
    have hl := h l List.mem_cons_self
    rw [List.flatMap_cons, List.flatMap_cons, marks_append hl.squeezed, marks_squeezed hl,
      ih fun l' hl' => h l' (List.mem_cons_of_mem _ hl')]

/-- Lines that a document is worked into: nothing stands astray, and the marks are those that
putting aside has left. -/
structure Sorted (raw : Text) (lines : List Text) : Prop where
  clear : ∀ l ∈ lines, Clear l
  marks_eq : lines.flatMap marks = marks (Lifting.mask .resume ((liftCut raw).get .resume))

theorem Sorted.sound {raw : Text} {lines : List Text} (h : Sorted raw lines) :
    ∀ l ∈ lines, Sound 0 l :=
  fun l hl => (h.clear l hl).settled.sound

/-- A pass that keeps the lines clear and their letters. -/
theorem Sorted.pass {raw : Text} {lines out : List Text} (h : Sorted raw lines)
    (hout : ∀ l ∈ out, Clear l) (hq : out.flatMap squeezed = lines.flatMap squeezed) :
    Sorted raw out := by
  refine ⟨hout, ?_⟩
  rw [marks_squeezed_lines fun l hl => (hout l hl).settled.sound, hq,
    ← marks_squeezed_lines h.sound, h.marks_eq]

theorem forall_of_forall₂ {R : Text → Text → Prop} {P Q : Text → Prop} {as bs : List Text}
    (hR : ∀ a b, P a → R a b → Q b) (h : List.Forall₂ R as bs) (has : ∀ a ∈ as, P a) :
    ∀ b ∈ bs, Q b := by
  induction h with
  | nil => simp
  | @cons a b as bs hab _ ih =>
    intro c hc
    rcases List.mem_cons.mp hc with rfl | hc
    · exact hR a c (has a List.mem_cons_self) hab
    · exact ih (fun a ha => has a (List.mem_cons_of_mem _ ha)) c hc

section
variable {raw : Text} (hnul : '\x00' ∉ raw) (hclear : ClearLiterals raw)
include hnul hclear

/-- Sorted lines are aligned, and sorted again. -/
theorem Sorted.align {m : Marker} (hm : m = assignmentMarker ∨ m = remarkMarker)
    {lines : List Text} (h : Sorted raw lines) :
    ∃ out, m.align (Lifting.result raw).shelves lines = .ok out ∧ Sorted raw out := by
  have hpieces := fun l hl => fit_pieces hm (h.clear l hl)
  have htally : Tally (Lifting.result raw).shelves Kind.backOrder
      ((lines.map fun line => (line, m.cut line)).flatMap piecesOf) := by
    rw [List.flatMap_map]
    refine tally_of_fit hnul hclear ?_ ?_
    · intro p hp
      obtain ⟨l, hl, hp⟩ := List.mem_flatMap.mp hp
      exact (hpieces l hl).1 p hp
    · rw [← h.marks_eq, List.flatMap_assoc]
      exact List.flatMap_congr fun l hl => (hpieces l hl).2
  obtain ⟨out, hout⟩ := align_tally htally
  have hmoves := align_moves hout
  have hspaces : m.Spaces := by
    rcases hm with rfl | rfl
    · exact assignmentMarker_spaces
    · exact remarkMarker_spaces
  refine ⟨out, hout, h.pass ?_ (squeezed_align hspaces hout)⟩
  exact forall_of_forall₂ (fun _ _ hl hmove => Clear.moves hm hl hmove) hmoves h.clear

end

/-! ## Passes -/

/-- The lines of a document before they are recased: statements with their white space set. -/
def spacedLines (style : Style) (raw : Text) : List Text :=
  (statements style (Lifting.result raw).lines).map spaceLine

theorem settled_spacedLines {raw : Text} (hnul : '\x00' ∉ raw) (style : Style) :
    (∀ l ∈ spacedLines style raw, Settled l) ∧
      (spacedLines style raw).flatMap marks =
        marks (Lifting.mask .resume ((liftCut raw).get .resume)) := by
  have hlines := orderly_liftedLines hnul
  obtain ⟨hstatements, hmarks⟩ := orderly_statements style hlines
  have hsettled : ∀ l ∈ spacedLines style raw, Settled l := by
    intro l hl
    obtain ⟨line, hline, rfl⟩ := List.mem_map.mp hl
    exact settled_spaceLine (hstatements line hline)
  refine ⟨hsettled, ?_⟩
  have hspaced : (spacedLines style raw).flatMap squeezed =
      (statements style (Lifting.result raw).lines).flatMap squeezed := by
    simp [spacedLines, List.flatMap_map]
  calc (spacedLines style raw).flatMap marks
      = marks ((spacedLines style raw).flatMap squeezed) :=
        marks_squeezed_lines fun l hl => (hsettled l hl).sound
    _ = (Lifting.result raw).lines.flatMap marks := by
        rw [hspaced, ← marks_squeezed_lines fun l hl => (hstatements l hl).sound, hmarks]
    _ = marks (squeezed (Lifting.mask .resume ((liftCut raw).get .resume))) := by
        rw [marks_squeezed_lines fun l hl => (hlines l hl).sound, squeezed_liftedLines]
    _ = marks (Lifting.mask .resume ((liftCut raw).get .resume)) :=
        marks_squeezed (soundCut_lift hnul .resume).mask

theorem Clear.recased {l l' : Text} (h : Clear l) (hl : Recased l l') : Clear l' where
  settled := hl.settled h.settled
  clear k := by rw [hl.stray]; exact h.clear k

theorem stray_trim {k : Kind} {l : Text} (h : Sound 0 l) : Stray k (trim l) ↔ Stray k l := by
  obtain ⟨s₁, s₂, hl, hs₁, hs₂⟩ := trim_split l
  have h₁ := nul_not_mem_spaces hs₁
  have htrim : Sound 0 (trim l ++ s₂) := Sound.cancel (.of_nul_free (n := 0) h₁) (hl ▸ h)
  have hsound := (Sound.split (clean_of_head (head_spaces hs₂)) htrim).1
  conv_rhs => rw [hl]
  rw [stray_nul_free_append h₁, stray_append_nul_free hsound (nul_not_mem_spaces hs₂)]

theorem clear_layOut {unit : Text} (hu : ∀ c ∈ unit, isBlank c = true) {lines : List Text}
    (h : ∀ l ∈ lines, Clear l) : ∀ l ∈ layOut unit (nest lines), Clear l := by
  intro l hl
  refine ⟨settled_layOut hu (fun l hl => (h l hl).settled) l hl, fun k => ?_⟩
  rcases of_mem_layOut hu hl with rfl | ⟨r, hr, s, hs, rfl⟩
  · exact stray_nil
  · rw [stray_nul_free_append (nul_not_mem_spaces hs), stray_trim (h r hr).settled.sound]
    exact (h r hr).clear k

/-- A document of which nothing stands astray is worked on without a fault, once its words are
recased. -/
theorem sorted_workLines {raw : Text} {style : Style} (hnul : '\x00' ∉ raw)
    (hu : ∀ c ∈ style.unit, isBlank c = true) (hclear : ClearLiterals raw)
    (hlines : ∀ l ∈ spacedLines style raw, ∀ k, ¬ Stray k l) {recased : List Text}
    (hr : recase style.letterCase (spacedLines style raw) = .ok recased) :
    ∃ worked, (workLines style (Lifting.result raw).shelves (Lifting.result raw).lines).outcome =
      .ok worked ∧ Sorted raw worked.lines := by
  obtain ⟨hsettled, hmarks⟩ := settled_spacedLines hnul style
  have hspaced : Sorted raw (spacedLines style raw) :=
    ⟨fun l hl => ⟨hsettled l hl, hlines l hl⟩, hmarks⟩
  have hrecased : Sorted raw recased := by
    have hall := recase_forall₂ hspaced.sound hr
    refine hspaced.pass ?_ (squeezed_recase hr)
    exact forall_of_forall₂ (fun _ _ hl h => Clear.recased hl h) hall hspaced.clear
  have hlaid : Sorted raw (layOut style.unit (nest recased)) := by
    have hunit : squeezed style.unit = [] :=
      squeezed_of_spaces fun c hc => isSpace_of_isBlank (hu c hc)
    exact hrecased.pass (clear_layOut hu hrecased.clear) (squeezed_layOut hunit recased)
  obtain ⟨assigned, hassign, hassigned⟩ := hlaid.align hnul hclear (.inl rfl)
  obtain ⟨aligned, halign, haligned⟩ := hassigned.align hnul hclear (.inr rfl)
  rw [spacedLines] at hr
  rw [workLines_outcome, hr, ok_bind]
  dsimp only
  rw [hassign, ok_bind, halign, ok_bind]
  exact ⟨_, rfl, haligned⟩

theorem fit_breaks {s : Text} (h : ∀ c ∈ s, isBreak c = true) : Fit 0 s := by
  have hs : '\x00' ∉ s := fun hc => ne_nul_of_isBreak (h _ hc) rfl
  refine ⟨.of_nul_free hs, fun k _ => not_stray_nul_free hs, fun x y hxy => ?_⟩
  have := hxy.mem_marks
  rw [marks_nul_free hs] at this
  cases this

theorem Fit.breaks_append {s t : Text} (hs : ∀ c ∈ s, isBreak c = true) (h : Fit 0 t) :
    Fit 0 (s ++ t) := by
  have hnul : '\x00' ∉ s := fun hc => ne_nul_of_isBreak (hs _ hc) rfl
  refine ⟨(Sound.of_nul_free hnul).append h.sound, fun k hk => ?_, fun x y hxy => ?_⟩
  · rw [stray_nul_free_append hnul]
    exact h.clear k hk
  · obtain ⟨x', hx', _⟩ := hxy.of_nul_free_append hnul
    exact h.ended x' y hx'

theorem newlineOf_breaks (raw : Text) :
    newlineOf raw ≠ [] ∧ ∀ c ∈ newlineOf raw, isBreak c = true := by
  rw [newlineOf]
  split
  · decide
  · decide

/-- Fit lines make a fit text. -/
theorem fit_joinLines {newline : Text} (hne : newline ≠ [])
    (hn : ∀ c ∈ newline, isBreak c = true) {lines : List Text} (h : ∀ l ∈ lines, Fit 0 l) :
    Fit 0 (joinLines newline lines) := by
  induction lines with
  | nil => exact fit_breaks (by simp)
  | cons l lines ih =>
    have hl := h l List.mem_cons_self
    have hmore := ih fun l' hl' => h l' (List.mem_cons_of_mem _ hl')
    cases lines with
    | nil => simpa using hl
    | cons l' lines =>
      rw [joinLines_cons_cons]
      exact hl.append (hmore.breaks_append hn) (head_breaks_append hne hn _)

theorem Sorted.matched {raw : Text} {worked : Worked} (hnul : '\x00' ∉ raw)
    (hclear : ClearLiterals raw) (h : Sorted raw worked.lines) :
    Matched (Lifting.result raw).shelves (workedText raw worked) := by
  obtain ⟨hne, hn⟩ := newlineOf_breaks raw
  have hjoin := fit_joinLines hne hn fun l hl => (h.clear l hl).fit
  have hfit : Fit 0 (workedText raw worked) := by
    rw [workedText, closeLines]
    refine hjoin.append ?_ ?_
    · split
      · exact fit_breaks hn
      · exact fit_breaks (by simp)
    · split
      · exact head_breaks hn
      · rfl
  have hmarks : marks (workedText raw worked) = worked.lines.flatMap marks := by
    rw [← marks_squeezed hfit.sound, squeezed_workedText, ← marks_squeezed_lines h.sound]
  refine matched_tally (tally_of_fit hnul hclear ?_ ?_)
  · simpa using hfit
  · simp [hmarks, h.marks_eq]

end VbTidy
