import VbTidy.Proofs.Faults

/-
What is rejected for its tokens. A document in which a name stands astray never comes out: were all
numbers to match, then the texts between the literals would be sound at the end, so every kind was
put back at real tokens only (`sound_back`), and no kind would have met a stray. But a stray
outlives all the passes (`stray_workLines`) and all the kinds that are put back before its own
(`stray_back`). So the bookkeeping rejects exactly the documents with a name astray
(`rejected_iff_astray`), and there are such documents (`format_namedBetweenStrings`).
-/
namespace VbTidy

/-! ## Strays stay -/

/-- A stray outlives a kind that is put back before its own. -/
theorem stray_fill {j k : Kind} (hj : j.turn < k.turn) {w : Weave} {ls : List Text}
    (hw : ∀ g ∈ w.gaps, Sound (j.turn + 1) g) (hl : ∀ l ∈ ls, Sound 0 l)
    (hlen : ls.length = w.rest.length)
    (h : Stray k (Lifting.mask j w) ∨ ∃ l ∈ ls, Stray k l) : Stray k (w.fillWith ls) := by
  obtain ⟨head, rest⟩ := w
  induction rest generalizing head ls with
  | nil =>
    obtain rfl : ls = [] := List.eq_nil_of_length_eq_zero hlen
    simpa [Weave.fillWith, Lifting.mask, Weave.replace] using h
  | cons p rest ih =>
    obtain ⟨l, ls, rfl⟩ := List.exists_cons_of_length_pos (l := ls) (by simp at hlen; omega)
    have hhead : Sound 0 head := (hw head List.mem_cons_self).mono (Nat.zero_le _)
    have hw' : ∀ g ∈ (Weave.mk p.2 rest).gaps, Sound (j.turn + 1) g :=
      fun g hg => hw g (List.mem_cons_of_mem _ hg)
    have hl' : ∀ x ∈ ls, Sound 0 x := fun x hx => hl x (List.mem_cons_of_mem _ hx)
    have hlit : Sound 0 l := hl l List.mem_cons_self
    have hmore := ih hl' p.2 hw' (by simpa using hlen)
    have hfill : (Weave.mk head (p :: rest)).fillWith (l :: ls) =
        head ++ (l ++ (Weave.mk p.2 rest).fillWith ls) := by
      simp [Weave.fillWith]
    have hsound : Sound 0 ((Weave.mk p.2 rest).fillWith ls) :=
      sound_fillWith (fun g hg => (hw' g hg).mono (Nat.zero_le _)) hl'
    have hmask : Sound 0 (Lifting.mask j ⟨p.2, rest⟩) := (sound_mask hw').mono (Nat.zero_le _)
    rw [mask_cons, stray_append_token hj hhead hmask] at h
    rw [hfill]
    simp only [List.mem_cons, exists_eq_or_imp] at h
    rcases h with (h | h) | h | h
    · exact h.append_right (hlit.append hsound)
    · exact ((hmore (.inl h)).append_left hlit).append_left hhead
    · exact (h.append_right hsound).append_left hhead
    · exact ((hmore (.inr h)).append_left hlit).append_left hhead

/-- The text that a kind leaves is the one that the next kind is put back into. -/
theorem exists_next {s : Shelves} {t : Text} {j : Kind} (hj : j ≠ .markup) :
    ∃ j', j'.turn = j.turn + 1 ∧ (backTexts s t).get j' = filled s t j := by
  cases j with
  | resume => exact ⟨.remark, rfl, rfl⟩
  | remark => exact ⟨.string, rfl, rfl⟩
  | string => exact ⟨.delimiter, rfl, rfl⟩
  | delimiter => exact ⟨.markup, rfl, rfl⟩
  | markup => exact absurd rfl hj

section
variable {raw t : Text} (hnul : '\x00' ∉ raw) (hm : Matched (Lifting.result raw).shelves t)
  (hbase : ∀ g ∈ (backCut (Lifting.result raw).shelves t .markup).gaps, Sound 5 g)
include hnul hm hbase

/-- The kind of a stray meets it when it is put back. -/
theorem stray_back {j k : Kind} (hjk : j.turn ≤ k.turn)
    (h : Stray k ((backTexts (Lifting.result raw).shelves t).get j)) :
    Stray k ((backTexts (Lifting.result raw).shelves t).get k) := by
  obtain ⟨n, hn⟩ := Nat.le.dest hjk
  induction n generalizing j with
  | zero =>
    obtain rfl : j = k := Mark.kind.inj (Mark.eq_of_turn_eq hn)
    exact h
  | succ n ih =>
    have hj : j ≠ .markup := by
      rintro rfl
      have : k.turn ≤ 4 := by cases k <;> decide
      have : Kind.markup.turn = 4 := rfl
      omega
    obtain ⟨j', hturn, htext⟩ := exists_next (s := (Lifting.result raw).shelves) (t := t) hj
    refine ih (j := j') (by omega) ?_ (by omega)
    rw [htext]
    refine stray_fill (by omega) (sound_back hnul hm hbase j)
      (fun l hl => (sound_shelves hnul j l hl).mono (Nat.zero_le _)) (hm j).symm (.inl ?_)
    rw [backCut, mask_cutTokens]
    exact h

/-- Then neither the text has a stray, nor a literal one of a kind that is put back after it. -/
theorem clear_of_matched : (∀ k, ¬ Stray k t) ∧ ClearLiterals raw := by
  have hmet : ∀ k, ¬ Stray k ((backTexts (Lifting.result raw).shelves t).get k) :=
    fun k h => not_cut_sound_of_stray h (sound_back hnul hm hbase k)
  refine ⟨fun k h => ?_, fun j k hjk l hl h => ?_⟩
  · exact hmet k (stray_back hnul hm hbase (j := .resume) (Nat.zero_le _) h)
  · have hj : j ≠ .markup := by
      rintro rfl
      have : k.turn ≤ 4 := by cases k <;> decide
      have : Kind.markup.turn = 4 := rfl
      omega
    obtain ⟨j', hturn, htext⟩ := exists_next (s := (Lifting.result raw).shelves) (t := t) hj
    refine hmet k (stray_back hnul hm hbase (j := j') (by omega) ?_)
    rw [htext]
    exact stray_fill hjk (sound_back hnul hm hbase j)
      (fun l hl => (sound_shelves hnul j l hl).mono (Nat.zero_le _)) (hm j).symm (.inr ⟨l, hl, h⟩)

theorem sound_of_matched : Sound 0 t :=
  sound_of_gaps (k := .resume) (sound_back hnul hm hbase .resume)

end

/-! ## Strays outlive the passes -/

theorem forall₂_exists {R : Text → Text → Prop} {P Q : Text → Prop} {as bs : List Text}
    (hR : ∀ a b, b ∈ bs → R a b → P a → Q b) (h : List.Forall₂ R as bs) (ha : ∃ a ∈ as, P a) :
    ∃ b ∈ bs, Q b := by
  induction h with
  | nil =>
    obtain ⟨a, hmem, _⟩ := ha
    cases hmem
  | @cons a b as bs hab _ ih =>
    obtain ⟨c, hmem, hc⟩ := ha
    rcases List.mem_cons.mp hmem with rfl | hmem
    · exact ⟨b, List.mem_cons_self, hR _ b List.mem_cons_self hab hc⟩
    · obtain ⟨d, hd, hq⟩ :=
        ih (fun a b hb => hR a b (List.mem_cons_of_mem _ hb)) ⟨c, hmem, hc⟩
      exact ⟨d, List.mem_cons_of_mem _ hd, hq⟩

/-- Moving an equals sign keeps a line settled, strays or not. -/
theorem Settled.moves_assignment {l l' : Text} (h : Settled l)
    (hl : assignmentMarker.Moves l l') : Settled l' := by
  rcases hl with rfl | ⟨cut, n, hcut, rfl⟩
  · exact h
  · obtain ⟨a, b, rfl, _, hshift⟩ := assignment_shift (n := n) hcut
    rw [hshift]
    exact settled_moved_equals (spaces_replicate n) h

theorem stray_layOut {unit : Text} (hu : ∀ c ∈ unit, isBlank c = true) {lines : List Text}
    (hl : ∀ l ∈ lines, Sound 0 l) {k : Kind} (h : ∃ l ∈ lines, Stray k l) :
    ∃ l ∈ layOut unit (nest lines), Stray k l := by
  obtain ⟨l, hmem, hstray⟩ := h
  have htrim : Stray k (trim l) := (stray_trim (hl l hmem)).mpr hstray
  have hne : trim l ≠ [] := by
    intro hnil
    rw [hnil] at htrim
    exact stray_nil htrim
  obtain ⟨s, hs, hlaid⟩ := exists_mem_layOut hu hmem hne
  exact ⟨_, hlaid, (stray_nul_free_append (nul_not_mem_spaces hs)).mpr htrim⟩

/-- A stray in the lines as they are spaced is in the lines as they are worked, if these are
whole. -/
theorem stray_workLines {raw : Text} {style : Style} {worked : Worked} (hnul : '\x00' ∉ raw)
    (hu : ∀ c ∈ style.unit, isBlank c = true)
    (hwork : (workLines style (Lifting.result raw).shelves (Lifting.result raw).lines).outcome =
      .ok worked) (hsound : ∀ l ∈ worked.lines, Sound 0 l) {k : Kind}
    (h : ∃ l ∈ spacedLines style raw, Stray k l) : ∃ l ∈ worked.lines, Stray k l := by
  obtain ⟨recased, assigned, hr, hassign, halign⟩ := workLines_ok hwork
  rw [← spacedLines] at hr
  obtain ⟨hspaced, _⟩ := settled_spacedLines hnul style
  have hall := recase_forall₂ (fun l hl => (hspaced l hl).sound) hr
  have hrecased : ∀ l ∈ recased, Settled l :=
    forall_of_forall₂ (fun _ _ (hl : Settled _) hrel => Recased.settled hrel hl) hall hspaced
  have hlaid := settled_layOut hu hrecased
  have hassigned : ∀ l ∈ assigned, Settled l :=
    forall_of_forall₂ (fun _ _ hl hmove => hl.moves_assignment hmove) (align_moves hassign) hlaid
  have h₁ : ∃ l ∈ recased, Stray k l :=
    forall₂_exists (fun _ _ _ hrel (hs : Stray k _) => (Recased.stray hrel).mpr hs) hall h
  have h₂ := stray_layOut hu (fun l hl => (hrecased l hl).sound) h₁
  -- the settled lines travel with the pairs, since a stray is found again on a settled line only
  have pair : ∀ {m : Marker} {as bs : List Text}, (m = assignmentMarker ∨ m = remarkMarker) →
      List.Forall₂ m.Moves as bs → (∀ a ∈ as, Settled a) → (∀ b ∈ bs, Sound 0 b) →
      (∃ a ∈ as, Stray k a) → ∃ b ∈ bs, Stray k b := by
    intro m as bs hm hmoves has hbs hex
    have hex' : ∃ a ∈ as, Settled a ∧ Stray k a := by
      obtain ⟨a, ha, hs⟩ := hex
      exact ⟨a, ha, has a ha, hs⟩
    exact forall₂_exists
      (fun _ b hb hmove hp => hp.1.stray_moves hm (hbs b hb) hmove hp.2) hmoves hex'
  have h₃ := pair (.inl rfl) (align_moves hassign) hlaid (fun l hl => (hassigned l hl).sound) h₂
  exact pair (.inr rfl) (align_moves halign) hassigned hsound h₃

/-! ## The lines of a text and the text -/

/-- A line stands in the text between breaks, so its beads are beads of the text. -/
theorem line_in_text {newline : Text} (hne : newline ≠ [])
    (hn : ∀ c ∈ newline, isBreak c = true) {lines : List Text} {tail l : Text}
    (ht : (tail.head?).all isBreak = true) (hl : l ∈ lines) :
    ∃ a b, joinLines newline lines ++ tail = a ++ (l ++ b) ∧
      beads (joinLines newline lines ++ tail) = beads a ++ (beads l ++ beads b) := by
  induction lines with
  | nil => cases hl
  | cons l' lines ih =>
    cases lines with
    | nil =>
      obtain rfl : l = l' := List.mem_singleton.mp hl
      refine ⟨[], tail, by simp, ?_⟩
      simp [beads_append (loose_of_head ht)]
    | cons l'' lines =>
      have hsame : joinLines newline (l' :: l'' :: lines) ++ tail =
          l' ++ (newline ++ (joinLines newline (l'' :: lines) ++ tail)) := by
        simp [joinLines_cons_cons]
      have hhead := head_breaks_append hne hn
      have hafter : ∀ s t, beads (s ++ (newline ++ t)) = beads s ++ (beads newline ++ beads t) := by
        intro s t
        rw [beads_append (loose_of_head (hhead t)), beads_append (loose_breaks_left hn)]
      rw [hsame]
      rcases List.mem_cons.mp hl with rfl | hl
      · refine ⟨[], newline ++ (joinLines newline (l'' :: lines) ++ tail), rfl, ?_⟩
        exact beads_append (loose_of_head (hhead _))
      · obtain ⟨a, b, heq, hbeads⟩ := ih hl
        refine ⟨l' ++ (newline ++ a), b, by simp [heq], ?_⟩
        rw [hafter, hafter, hbeads]
        simp

section
variable {raw : Text} {worked : Worked} (h : Sound 0 (workedText raw worked))
include h

/-- In a whole text a line is whole, and so is what stands around it. -/
theorem line_in_workedText {l : Text} (hl : l ∈ worked.lines) :
    ∃ a b, workedText raw worked = a ++ (l ++ b) ∧ Sound 0 a ∧ Sound 0 l ∧ Sound 0 b := by
  obtain ⟨hne, hn⟩ := newlineOf_breaks raw
  rw [workedText, closeLines] at h ⊢
  have htail : (Option.all isBreak (List.head? (if (Lifting.result raw).finalNewline &&
      !worked.lines.isEmpty then newlineOf raw else []))) = true := by
    split
    · exact head_breaks hn
    · rfl
  obtain ⟨a, b, heq, hbeads⟩ := line_in_text hne hn htail hl
  have hall := (sound_beads _).mp h
  rw [hbeads] at hall
  refine ⟨a, b, heq, ?_, ?_, ?_⟩
  · exact (sound_beads a).mpr fun x hx => hall x (by simp [hx])
  · exact (sound_beads l).mpr fun x hx => hall x (by simp [hx])
  · exact (sound_beads b).mpr fun x hx => hall x (by simp [hx])

theorem stray_workedText {k : Kind} (hk : ∃ l ∈ worked.lines, Stray k l) :
    Stray k (workedText raw worked) := by
  obtain ⟨l, hl, hstray⟩ := hk
  obtain ⟨a, b, heq, ha, _, hb⟩ := line_in_workedText h hl
  rw [heq]
  exact (hstray.append_right hb).append_left ha

end

/-! ## The number of NUL characters -/

/-- Each mark of a whole text has two NUL characters. -/
theorem Sound.nuls_eq {n : Nat} {t : Text} (h : Sound n t) : nuls t = 2 * (marks t).length := by
  induction h with
  | nil => rfl
  | @char c t hc _ ih =>
    rw [marks_char hc, ← ih, nuls, nuls, List.count_cons_of_ne hc]
  | @token m t _ _ ih =>
    have hname : m.name.count '\x00' = 0 := List.count_eq_zero.mpr (nul_not_mem_name m)
    rw [marks_token, List.length_cons]
    simp only [nuls, Mark.token, tokenOf, List.cons_append, List.count_cons_self,
      List.count_append, hname, List.append_assoc, List.nil_append] at ih ⊢
    omega

/-- The passes leave as many NUL characters as putting aside has left. -/
theorem nuls_workedText {raw : Text} {style : Style} {worked : Worked} (hnul : '\x00' ∉ raw)
    (hu : ∀ c ∈ style.unit, isBlank c = true)
    (hwork : (workLines style (Lifting.result raw).shelves (Lifting.result raw).lines).outcome =
      .ok worked) :
    nuls (workedText raw worked) = nuls (Lifting.mask .resume ((liftCut raw).get .resume)) := by
  have hlifted := orderly_liftedLines hnul
  obtain ⟨hlines, hmarks⟩ := orderly_statements style hlifted
  have hcount : ∀ {ls : List Text}, (∀ l ∈ ls, Orderly l) →
      nuls (ls.flatMap squeezed) = 2 * (ls.flatMap marks).length := by
    intro ls hls
    induction ls with
    | nil => rfl
    | cons l ls ih =>
      have hl := (hls l List.mem_cons_self).sound.nuls_eq
      have hmore := ih fun l' hl' => hls l' (List.mem_cons_of_mem _ hl')
      have hsqueezed : nuls (squeezed l) = nuls l := count_squeezed l
      rw [nuls] at hmore hsqueezed
      rw [nuls, List.flatMap_cons, List.flatMap_cons, List.count_append, List.length_append]
      omega
  calc nuls (workedText raw worked)
      = nuls (squeezed (workedText raw worked)) := (count_squeezed _).symm
    _ = nuls ((statements style (Lifting.result raw).lines).flatMap squeezed) := by
        rw [squeezed_workedText, squeezed_workLines hu hwork]
    _ = nuls ((Lifting.result raw).lines.flatMap squeezed) := by
        rw [hcount hlines, hmarks, hcount hlifted]
    _ = nuls (Lifting.mask .resume ((liftCut raw).get .resume)) := by
        rw [squeezed_liftedLines]
        exact count_squeezed _

/-! ## The bookkeeping -/

/-- A name stands astray: between two tokens on a line as it is spaced, or in a literal that is put
back before the kinds of that name. -/
def Astray (style : Style) (raw : Text) : Prop :=
  (∃ k, ∃ l ∈ spacedLines style raw, Stray k l) ∨
    ∃ j k : Kind, j.turn < k.turn ∧ ∃ l ∈ (Lifting.result raw).shelves.get j, Stray k l

section
variable {settings : Settings} {style : Style} {raw : Text} (hnul : '\x00' ∉ raw)
  (hstyle : settings.style = .ok style)
include hnul hstyle

/-- Where nothing stands astray, every kind finds a token for each of its literals. -/
theorem matched_of_clear (hclear : ¬ Astray style raw) (hcount : Countable style raw) :
    ∃ worked f, (workLines style (Lifting.result raw).shelves (Lifting.result raw).lines).outcome =
        .ok worked ∧ Matched (Lifting.result raw).shelves (workedText raw worked) ∧
      format settings raw = .ok f := by
  obtain ⟨heven, recased, hr⟩ := hcount
  obtain ⟨hu, _⟩ := Settings.style_ok hstyle
  have hlit : ClearLiterals raw := fun j k hjk l hl hs => hclear (.inr ⟨j, k, hjk, l, hl, hs⟩)
  have hlines : ∀ l ∈ spacedLines style raw, ∀ k, ¬ Stray k l :=
    fun l hl k hs => hclear (.inl ⟨k, l, hl, hs⟩)
  obtain ⟨worked, hwork, hsorted⟩ := sorted_workLines hnul hu hlit hlines hr
  have hm := hsorted.matched hnul hlit
  rcases putBackLiterals_cases (Lifting.result raw).shelves (newlineOf raw)
      (workedText raw worked) with ⟨_, hback⟩ | ⟨hnot, _⟩
  · rw [format_outcome hstyle, if_pos heven, hwork, ok_bind, hback]
    exact ⟨worked, _, rfl, hm, rfl⟩
  · exact absurd hm hnot

/-- Where a name stands astray and there are no fences, nothing comes out. -/
theorem not_ok_of_astray (hfence : fenceScripts raw = raw) (hastray : Astray style raw)
    (f : Formatted) : format settings raw ≠ .ok f := by
  intro hok
  obtain ⟨style', worked, hstyle', _, hwork, hm, _⟩ := format_ok hok
  obtain rfl : style' = style := Except.ok.inj (hstyle'.symm.trans hstyle)
  obtain ⟨hu, _⟩ := Settings.style_ok hstyle
  have hnuls : nuls (filled (Lifting.result raw).shelves (workedText raw worked) .markup) = 0 := by
    rw [nuls_filled hm (nuls_workedText hnul hu hwork), takenFrom, hfence]
    exact List.count_eq_zero.mpr hnul
  have hbase : ∀ g ∈ (backCut (Lifting.result raw).shelves (workedText raw worked) .markup).gaps,
      Sound 5 g :=
    fun g hg => .of_nul_free (nul_free_gaps (hm .markup).symm hnuls g hg)
  have hsound := sound_of_matched hnul hm hbase
  obtain ⟨hclear, hlit⟩ := clear_of_matched hnul hm hbase
  rcases hastray with ⟨k, hlines⟩ | ⟨j, k, hjk, l, hl, hs⟩
  · have hwhole : ∀ l ∈ worked.lines, Sound 0 l := by
      intro l hl
      obtain ⟨_, _, _, _, hl, _⟩ := line_in_workedText hsound hl
      exact hl
    exact hclear k (stray_workedText hsound (stray_workLines hnul hu hwork hwhole hlines))
  · exact hlit j k hjk l hl hs

/-- The bookkeeping rejects a document exactly if a name stands astray in it. A document in which
none does is never rejected for its tokens, and each kind finds as many tokens as it has literals.
Without fences the converse holds too: a document with a name astray that gets as far as to have its
tokens counted is always rejected. -/
theorem rejected_iff_astray :
    (¬ Astray style raw →
      (∀ name n n', format settings raw ≠ .error (.tokenMismatch name n n')) ∧
      (Countable style raw → ∃ worked f,
        (workLines style (Lifting.result raw).shelves (Lifting.result raw).lines).outcome =
          .ok worked ∧
        (∀ k, (backCut (Lifting.result raw).shelves (workedText raw worked) k).rest.length =
          ((Lifting.result raw).shelves.get k).length) ∧
        format settings raw = .ok f)) ∧
    (fenceScripts raw = raw →
      ((∃ name n n', format settings raw = .error (.tokenMismatch name n n')) ↔
        Countable style raw ∧ Astray style raw)) := by
  have hnever : ¬ Astray style raw → ∀ name n n',
      format settings raw ≠ .error (.tokenMismatch name n n') := by
    intro hclear name n n' herr
    have hcount := countable_of_mismatch hstyle herr ⟨name, n, n', rfl⟩
    obtain ⟨_, f, _, _, hok⟩ := matched_of_clear hnul hstyle hclear hcount
    rw [hok] at herr
    cases herr
  refine ⟨fun hclear => ⟨hnever hclear, matched_of_clear hnul hstyle hclear⟩, fun hfence => ?_⟩
  constructor
  · rintro ⟨name, n, n', herr⟩
    refine ⟨countable_of_mismatch hstyle herr ⟨name, n, n', rfl⟩, ?_⟩
    exact Classical.not_not.mp fun hclear => hnever hclear name n n' herr
  · rintro ⟨hcount, hastray⟩
    rcases hcount.cases hstyle with ⟨f, hok⟩ | ⟨e, herr, name, n, n', rfl⟩
    · exact absurd hok (not_ok_of_astray hnul hstyle hfence hastray f)
    · exact ⟨name, n, n', herr⟩

end

/-- Two strings with the name of another kind between them. -/
def namedBetweenStrings : Text :=
  "x = \"a\"comment\"b\"".toList

/-- The name between the strings is taken for the token of a comment, and there is no comment to put
back. -/
theorem rejects_namedBetweenStrings :
    format {} namedBetweenStrings = .error (.tokenMismatch Kind.remark.name 0 1) := by
  decide +kernel

theorem format_namedBetweenStrings :
    '\x00' ∉ namedBetweenStrings ∧ (Settings.style {}).isOk = true ∧
      format {} namedBetweenStrings = .error (.tokenMismatch Kind.remark.name 0 1) :=
  ⟨by decide, by decide, rejects_namedBetweenStrings⟩

theorem namedBetweenStrings_astray :
    ∃ style, Settings.style {} = .ok style ∧ Countable style namedBetweenStrings ∧
      Astray style namedBetweenStrings :=
  ⟨_, rfl, ((rejected_iff_astray (by decide) rfl).2 (by decide)).mp
    ⟨_, _, _, rejects_namedBetweenStrings⟩⟩

end VbTidy
