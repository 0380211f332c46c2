import VbTidy.Proofs.Refill
import VbTidy.Proofs.Passes

/-
A run that gives a result loses nothing. The passes keep what the text is apart from white space
and letter case, and with it every NUL. So when the numbers of tokens and literals match for every
kind, the text at the end has no NUL that the document had not (`count_back`). From there the
argument goes back, kind after kind: a text that is sound after a kind was filled was cut at real
tokens, and was sound before (`sound_back`). Then it goes forward: a text cut at real tokens is cut
where the literals were taken out (`gaps_back`), and filling it gives what was there before.
-/
namespace VbTidy

/-! ## What putting aside starts from -/

theorem source_code_host (t : Text) :
    (cutCode t).source = t ∧ (cutHost t).1 ++ (cutHost t).2.source = t := by
  induction hlen : t.length using Nat.strongRecOn generalizing t with
  | ind len ih =>
    cases t with
    | nil => exact ⟨rfl, rfl⟩
    | cons c t =>
      have step := ih t.length (by simp at hlen; omega) t rfl
      refine ⟨?_, ?_⟩
      · by_cases hp : ∃ u, c :: t = '%' :: '>' :: u
        · obtain ⟨u, hu⟩ := hp
          obtain ⟨rfl, rfl⟩ := List.cons.inj hu
          have hu := ih u.length (by simp at hlen; omega) u rfl
          rw [cutCode, Weave.source_pushHit]
          simpa using hu.2
        · have : cutCode (c :: t) = (cutCode t).push c := by
            rw [cutCode]
            rintro u rfl rfl
            exact hp ⟨u, rfl⟩
          rw [this, Weave.source_push, step.1]
      · by_cases hp : ∃ u, c :: t = '<' :: '%' :: u
        · obtain ⟨u, hu⟩ := hp
          obtain ⟨rfl, rfl⟩ := List.cons.inj hu
          have hu := ih u.length (by simp at hlen; omega) u rfl
          rw [cutHost]
          simpa using hu.1
        · have : cutHost (c :: t) = (c :: (cutHost t).1, (cutHost t).2) := by
            rw [cutHost]
            rintro u rfl rfl
            exact hp ⟨u, rfl⟩
          rw [this]
          exact congrArg (c :: ·) step.2

@[simp] theorem source_cutMarkup (t : Text) : (cutMarkup t).source = t := by
  obtain ⟨hcode, hhost⟩ := source_code_host t
  rw [cutMarkup]
  split
  · rw [Weave.source_pushHit, hhost]
  · exact hcode

theorem Weave.source_append (w v : Weave) : (w.append v).source = w.source ++ v.source := by
  simp only [← Weave.replace_id, replace_append]

@[simp] theorem source_cutStrings (line : Text) : (cutStrings line).source = line := by
  rw [cutStrings_eq, Weave.source_append, Pattern.source_weave]
  simpa [Weave.source] using splitRemark_append line

@[simp] theorem source_cutRemark (line : Text) : (cutRemark line).source = line := by
  have := splitRemark_append line
  rcases cutRemark_eq line with ⟨he, hr⟩ | ⟨he, _⟩
  · rw [hr, List.append_nil] at this
    rw [he]
    simpa [Weave.source] using this
  · rw [he]
    simpa [Weave.source] using this

@[simp] theorem source_cutResume (line : Text) : (cutResume line).source = line :=
  Pattern.source_weave _ _

theorem squeezed_source_unlines (ws : List Weave) :
    squeezed (Weave.unlines ws).source = ws.flatMap fun w => squeezed w.source := by
  induction ws with
  | nil => rfl
  | cons w ws ih =>
    rw [Weave.unlines, Weave.source_append, squeezed_append, Weave.source_push,
      squeezed_space (by decide), ih, List.flatMap_cons]

theorem squeezed_mask_unlines (k : Kind) (ws : List Weave) :
    squeezed (Lifting.mask k (Weave.unlines ws)) = (maskLines k ws).flatMap squeezed := by
  induction ws with
  | nil => rfl
  | cons w ws ih =>
    rw [Weave.unlines, Lifting.mask, Weave.replace_append, squeezed_append, Weave.replace_push,
      squeezed_space (by decide), maskLines, List.map_cons, List.flatMap_cons]
    exact congrArg (squeezed _ ++ ·) ih

/-- The text that a kind is taken out of. -/
def takenFrom (raw : Text) : Kind → Text
  | .markup => fenceScripts raw
  | .delimiter => Lifting.mask .markup ((liftCut raw).get .markup)
  | .string => Lifting.mask .delimiter ((liftCut raw).get .delimiter)
  | .remark => Lifting.mask .string ((liftCut raw).get .string)
  | .resume => Lifting.mask .remark ((liftCut raw).get .remark)

/-- Each kind is taken out of what the kind before has left. -/
theorem squeezed_source_lift (raw : Text) (k : Kind) :
    squeezed ((liftCut raw).get k).source = squeezed (takenFrom raw k) := by
  have hlines : ∀ (cut : Text → Weave) (ls : List Text), (∀ l, (cut l).source = l) →
      squeezed (Weave.unlines (ls.map cut)).source = ls.flatMap squeezed := by
    intro cut ls hcut
    rw [squeezed_source_unlines, List.flatMap_map]
    exact List.flatMap_congr fun l _ => by rw [hcut]
  cases k with
  | markup =>
    rw [liftCut, PerKind.get, Lifting.markup, source_cutMarkup]
    rfl
  | delimiter =>
    rw [takenFrom, liftCut, PerKind.get, PerKind.get, Lifting.delimiter, Pattern.source_weave]
  | string =>
    rw [takenFrom, liftCut, PerKind.get, PerKind.get, Lifting.strings,
      hlines _ _ source_cutStrings, squeezed_splitLines]
  | remark =>
    rw [takenFrom, liftCut_remark, liftCut_string, Lifting.remarks,
      hlines _ _ source_cutRemark, squeezed_mask_unlines]
  | resume =>
    rw [takenFrom, liftCut_resume, liftCut_remark, Lifting.resumes,
      hlines _ _ source_cutResume, squeezed_mask_unlines]

theorem squeezed_liftedLines (raw : Text) :
    (Lifting.result raw).lines.flatMap squeezed =
      squeezed (Lifting.mask .resume ((liftCut raw).get .resume)) := by
  rw [Lifting.lines_result, liftCut_resume, squeezed_mask_unlines]

/-! ## Numbers of NUL characters -/

/-- The number of NUL characters. -/
def nuls (t : Text) : Nat :=
  t.count '\x00'

theorem nuls_of_squeezed {s t : Text} (h : squeezed s = squeezed t) : nuls s = nuls t := by
  rw [nuls, ← count_squeezed, h, count_squeezed, nuls]

/-- What is put aside has as many literals, with as many NUL characters, as was taken out. -/
theorem shelves_length (raw : Text) (k : Kind) :
    ((Lifting.result raw).shelves.get k).length = ((liftCut raw).get k).rest.length := by
  rw [shelves_eq]
  split <;> simp [Weave.hits]

theorem shelves_squeezed (raw : Text) (k : Kind) :
    ((Lifting.result raw).shelves.get k).map squeezed =
      ((liftCut raw).get k).hits.map squeezed := by
  rw [shelves_eq]
  split
  · rename_i hk
    subst hk
    rw [List.map_map]
    apply List.map_congr_left
    intro l hl
    rw [liftCut_resume, Weave.hits_unlines] at hl
    obtain ⟨w, hw, hl⟩ := List.mem_flatMap.mp hl
    obtain ⟨line, _, rfl⟩ := List.mem_map.mp hw
    exact (hit_resume hl).1.symm
  · rfl

theorem nuls_fillWith {ls : List Text} {w : Weave} (h : ls.length = w.rest.length) :
    nuls (w.fillWith ls) = nuls w.gaps.flatten + nuls ls.flatten :=
  Weave.count_fillWith '\x00' h

/-- A text with as many NUL characters as was left, filled with what was taken out, has as many as
there were before. -/
theorem nuls_fill {k : Kind} {w : Weave} {t : Text} {ls : List Text}
    (hn : nuls t = nuls (Lifting.mask k w)) (ht : (cutTokens k t).rest.length = ls.length)
    (hw : ls.length = w.rest.length) (hl : ls.map nuls = w.hits.map nuls) :
    nuls ((cutTokens k t).fillWith ls) = nuls w.source := by
  have hliterals : nuls ls.flatten = nuls w.hits.flatten := by
    rw [nuls, nuls, List.count_flatten, List.count_flatten]
    exact congrArg List.sum hl
  have hsource : nuls w.source = nuls w.gaps.flatten + nuls w.hits.flatten := by
    rw [← Weave.fillWith_hits]
    exact nuls_fillWith (by simp [Weave.hits])
  have htext : nuls t = nuls (cutTokens k t).gaps.flatten +
      nuls (List.replicate (cutTokens k t).rest.length k.token).flatten := by
    rw [← nuls_fillWith (by simp), ← Lifting.mask_eq, mask_cutTokens]
  have hmask : nuls (Lifting.mask k w) =
      nuls w.gaps.flatten + nuls (List.replicate w.rest.length k.token).flatten := by
    rw [Lifting.mask_eq, nuls_fillWith (by simp)]
  rw [nuls_fillWith ht.symm, hsource, hliterals]
  rw [ht, hw] at htext
  omega

/-! ## Kind after kind -/

/-- What is put aside is sound, and no token reaches into it, host markup apart. -/
theorem clean_shelves {raw : Text} (hnul : '\x00' ∉ raw) {k : Kind} (hk : k ≠ .markup) :
    ∀ l ∈ (Lifting.result raw).shelves.get k,
      Sound (k.turn + 1) l ∧ ∀ z, Sound.Clean (k.turn + 1) (l ++ z) := by
  intro l hl
  rw [shelves_eq] at hl
  split at hl
  · obtain ⟨_, _, rfl⟩ := List.mem_map.mp hl
    exact ⟨.of_nul_free (by decide), fun z => Sound.clean_cons (by decide) (by decide)⟩
  · exact ⟨(soundCut_lift hnul k).hits l hl, clean_hits hk hl⟩

/-- If the texts between the runs of markup are sound at the end, then every kind was put back at
real tokens only. -/
theorem sound_back {raw t : Text} (hnul : '\x00' ∉ raw)
    (hm : Matched (Lifting.result raw).shelves t)
    (hbase : ∀ g ∈ (backCut (Lifting.result raw).shelves t .markup).gaps, Sound 5 g) (k : Kind) :
    ∀ g ∈ (backCut (Lifting.result raw).shelves t k).gaps, Sound (k.turn + 1) g := by
  have step : ∀ k, k ≠ .markup → Sound (k.turn + 1) (filled (Lifting.result raw).shelves t k) →
      ∀ g ∈ (backCut (Lifting.result raw).shelves t k).gaps, Sound (k.turn + 1) g := by
    intro k hk hsound
    exact sound_gaps_of_fill (hm k).symm (clean_shelves hnul hk) hsound
  have hdelimiter := step .delimiter (by decide) (sound_of_gaps (k := .markup) hbase)
  have hstring := step .string (by decide) (sound_of_gaps (k := .delimiter) hdelimiter)
  have hremark := step .remark (by decide) (sound_of_gaps (k := .string) hstring)
  have hresume := step .resume (by decide) (sound_of_gaps (k := .remark) hremark)
  cases k with
  | resume => exact hresume
  | remark => exact hremark
  | string => exact hstring
  | delimiter => exact hdelimiter
  | markup => exact hbase

theorem squeezed_mask (k : Kind) (w : Weave) :
    squeezed (Lifting.mask k w) = Lifting.mask k (w.mapGaps squeezed) := by
  have htok : squeezed k.token = k.token := squeezed_token (.kind k)
  rw [Lifting.mask_eq, Lifting.mask_eq, Weave.squeezed_fillWith, List.map_replicate, htok]
  simp [Weave.mapGaps]

/-- A text cut at real tokens is cut where the literals were taken out, if it is what was left apart
from white space and letter case. -/
theorem gaps_of_squeezed {k : Kind} {w : Weave} {t : Text} (hw : SoundCut (k.turn + 1) w)
    (ht : ∀ g ∈ (cutTokens k t).gaps, Sound (k.turn + 1) g)
    (h : squeezed t = squeezed (Lifting.mask k w)) :
    (cutTokens k t).gaps.map squeezed = w.gaps.map squeezed := by
  have hsound : ∀ gs : List Text, (∀ g ∈ gs, Sound (k.turn + 1) g) →
      ∀ g ∈ gs.map squeezed, Sound (k.turn + 1) g := by
    intro gs hgs g hg
    obtain ⟨g', hg', rfl⟩ := List.mem_map.mp hg
    exact (hgs g' hg').squeezed
  rw [← Weave.gaps_mapGaps, ← Weave.gaps_mapGaps]
  refine gaps_unique (k := k) ?_ ?_ ?_
  · rw [Weave.gaps_mapGaps]
    exact hsound _ ht
  · rw [Weave.gaps_mapGaps]
    exact hsound _ hw.gaps
  · rw [← squeezed_mask, ← squeezed_mask, mask_cutTokens, h]

/-- When the numbers match for all kinds, each filled text has as many NUL characters as the one
that the kind was taken out of. -/
theorem nuls_filled {raw t : Text} (hm : Matched (Lifting.result raw).shelves t)
    (hn : nuls t = nuls (Lifting.mask .resume ((liftCut raw).get .resume))) (k : Kind) :
    nuls (filled (Lifting.result raw).shelves t k) = nuls (takenFrom raw k) := by
  have step : ∀ k u, cutTokens k u = backCut (Lifting.result raw).shelves t k →
      nuls u = nuls (Lifting.mask k ((liftCut raw).get k)) →
      nuls (filled (Lifting.result raw).shelves t k) = nuls (takenFrom raw k) := by
    intro k u hcut hu
    rw [← nuls_of_squeezed (squeezed_source_lift raw k), filled, ← hcut]
    refine nuls_fill hu (by rw [hcut]; exact hm k) (shelves_length raw k) ?_
    have hnuls : ∀ x, nuls (squeezed x) = nuls x := count_squeezed
    have := congrArg (List.map nuls) (shelves_squeezed raw k)
    simpa only [List.map_map, Function.comp_def, hnuls] using this
  have hresume := step .resume t (backCut_resume _ t).symm hn
  have hremark := step .remark _ (backCut_remark _ t).symm hresume
  have hstring := step .string _ (backCut_string _ t).symm hremark
  have hdelimiter := step .delimiter _ (backCut_delimiter _ t).symm hstring
  have hmarkup := step .markup _ (backCut_markup _ t).symm hdelimiter
  cases k with
  | resume => exact hresume
  | remark => exact hremark
  | string => exact hstring
  | delimiter => exact hdelimiter
  | markup => exact hmarkup

section
variable {raw t : Text} (hm : Matched (Lifting.result raw).shelves t)
  (ht : squeezed t = squeezed (Lifting.mask .resume ((liftCut raw).get .resume)))
include hm ht

/-- Every kind is put back where it was taken out, and gives what was there before. -/
theorem gaps_back (hnul : '\x00' ∉ raw)
    (hbase : ∀ g ∈ (backCut (Lifting.result raw).shelves t .markup).gaps, Sound 5 g) (k : Kind) :
    (backCut (Lifting.result raw).shelves t k).gaps.map squeezed =
        ((liftCut raw).get k).gaps.map squeezed ∧
      squeezed (filled (Lifting.result raw).shelves t k) = squeezed (takenFrom raw k) := by
  have step : ∀ k u, cutTokens k u = backCut (Lifting.result raw).shelves t k →
      squeezed u = squeezed (Lifting.mask k ((liftCut raw).get k)) →
      (backCut (Lifting.result raw).shelves t k).gaps.map squeezed =
        ((liftCut raw).get k).gaps.map squeezed ∧
      squeezed (filled (Lifting.result raw).shelves t k) = squeezed (takenFrom raw k) := by
    intro k u hcut hu
    have hreal := sound_back hnul hm hbase k
    rw [← hcut] at hreal
    have hgaps := gaps_of_squeezed (soundCut_lift hnul k) hreal hu
    rw [hcut] at hgaps
    refine ⟨hgaps, ?_⟩
    rw [← Weave.gaps_mapGaps, ← Weave.gaps_mapGaps] at hgaps
    rw [← squeezed_source_lift raw k, ← Weave.fillWith_hits, filled, Weave.squeezed_fillWith,
      Weave.squeezed_fillWith, shelves_squeezed, Weave.fillWith_congr hgaps]
  have hresume := step .resume t (backCut_resume _ t).symm ht
  have hremark := step .remark _ (backCut_remark _ t).symm hresume.2
  have hstring := step .string _ (backCut_string _ t).symm hremark.2
  have hdelimiter := step .delimiter _ (backCut_delimiter _ t).symm hstring.2
  have hmarkup := step .markup _ (backCut_markup _ t).symm hdelimiter.2
  cases k with
  | resume => exact hresume
  | remark => exact hremark
  | string => exact hstring
  | delimiter => exact hdelimiter
  | markup => exact hmarkup

end

/-! ## The ends of a run -/

/-- The passes change white space and letter case only. -/
theorem squeezed_workLines {style : Style} {shelves : Shelves} {lines : List Text} {worked : Worked}
    (hu : ∀ c ∈ style.unit, isBlank c = true)
    (h : (workLines style shelves lines).outcome = .ok worked) :
    worked.lines.flatMap squeezed = (statements style lines).flatMap squeezed := by
  obtain ⟨recased, assigned, hr, ha, hm⟩ := workLines_ok h
  have hunit : squeezed style.unit = [] :=
    squeezed_of_spaces fun c hc => isSpace_of_isBlank (hu c hc)
  calc worked.lines.flatMap squeezed
      = assigned.flatMap squeezed := squeezed_align remarkMarker_spaces hm
    _ = (layOut style.unit (nest recased)).flatMap squeezed :=
        squeezed_align assignmentMarker_spaces ha
    _ = recased.flatMap squeezed := squeezed_layOut hunit recased
    _ = ((statements style lines).map spaceLine).flatMap squeezed := squeezed_recase hr
    _ = (statements style lines).flatMap squeezed := by
        rw [List.flatMap_map]
        exact List.flatMap_congr fun line _ => squeezed_spaceLine line

theorem squeezed_newlineOf (raw : Text) : squeezed (newlineOf raw) = [] := by
  rw [newlineOf]
  split <;> decide

theorem squeezed_workedText (raw : Text) (worked : Worked) :
    squeezed (workedText raw worked) = worked.lines.flatMap squeezed := by
  have hn := squeezed_newlineOf raw
  rw [workedText, closeLines, squeezed_append, squeezed_joinLines hn]
  split <;> simp [hn]

theorem squeezed_padBeforeClose (code : Text) : squeezed (padBeforeClose code) = squeezed code := by
  rw [padBeforeClose]
  split
  · rfl
  · rw [squeezed_append, squeezed_dropEnd (fun _ => isSpace_of_isBlank),
      squeezed_of_spaces (t := [' ']) (by decide), List.append_nil]

theorem squeezed_padAfterOpen (code : Text) : squeezed (padAfterOpen code) = squeezed code := by
  have hbare := squeezed_dropWhile (p := isBlank) (fun _ => isSpace_of_isBlank) code
  simp only [padAfterOpen]
  split
  · exact hbare
  · split
    · exact hbare
    · exact hbare
    · rw [squeezed_space (by decide), hbare]

/-- Padding adds and takes away blanks between the runs of markup only. -/
theorem joinPadded_weave (code : Text) (ps : List (Text × Text)) :
    ∃ w : Weave, w.source = joinPadded code ps ∧ w.hits = ps.map Prod.fst ∧
      w.gaps.map squeezed = (code :: ps.map Prod.snd).map squeezed := by
  induction ps generalizing code with
  | nil => exact ⟨⟨code, []⟩, by simp [Weave.source, joinPadded], rfl, rfl⟩
  | cons p ps ih =>
    have hcode : squeezed (if ['%', '>'].isPrefixOf p.1 then padBeforeClose code else code) =
        squeezed code := by
      split
      · exact squeezed_padBeforeClose code
      · rfl
    have hafter : squeezed (if endsWith ['<', '%'] p.1 then padAfterOpen p.2 else p.2) =
        squeezed p.2 := by
      split
      · exact squeezed_padAfterOpen p.2
      · rfl
    obtain ⟨w, hsource, hhits, hgaps⟩ :=
      ih (if endsWith ['<', '%'] p.1 then padAfterOpen p.2 else p.2)
    refine ⟨(w.pushHit p.1).prepend
      (if ['%', '>'].isPrefixOf p.1 then padBeforeClose code else code), ?_, ?_, ?_⟩
    · have : ∀ (v : Weave) (t : Text), (v.prepend t).source = t ++ v.source := by
        simp [Weave.source, Weave.prepend]
      rw [this, Weave.source_pushHit, hsource, joinPadded, List.append_assoc]
    · exact congrArg (p.1 :: ·) hhits
    · rw [List.map_cons, hafter] at hgaps
      have : ((w.pushHit p.1).prepend
          (if ['%', '>'].isPrefixOf p.1 then padBeforeClose code else code)).gaps =
          (if ['%', '>'].isPrefixOf p.1 then padBeforeClose code else code) :: w.gaps := by
        simp [Weave.gaps, Weave.prepend, Weave.pushHit]
      rw [this, List.map_cons, hgaps, hcode]
      rfl

/-- The text with all literals back is the runs of markup as they are, and between them what stood
there, padded. -/
theorem backText_weave {s : Shelves} {t : Text}
    (hlen : (backCut s t .markup).rest.length = (s.get .markup).length) :
    ∃ w : Weave, w.source = backText s t ∧ w.hits = s.get .markup ∧
      w.gaps.map squeezed = (backCut s t .markup).gaps.map squeezed := by
  obtain ⟨w, hsource, hhits, hgaps⟩ := joinPadded_weave (backCut s t .markup).head
    ((s.get .markup).zip ((backCut s t .markup).rest.map Prod.snd))
  refine ⟨w, hsource, ?_, ?_⟩
  · rw [hhits, List.map_fst_zip]
    simp [hlen]
  · rw [hgaps, List.map_snd_zip]
    · rfl
    · simp [hlen]

/-- A filled cut has the literals in the order in which they are, and between them what stood
there. -/
theorem Weave.fillWith_weave {w : Weave} {ls : List Text} (h : ls.length = w.rest.length) :
    ∃ v : Weave, v.source = w.fillWith ls ∧ v.hits = ls ∧ v.gaps = w.gaps := by
  refine ⟨⟨w.head, ls.zip (w.rest.map Prod.snd)⟩, rfl, ?_, ?_⟩
  · rw [Weave.hits, List.map_fst_zip]
    simp [h]
  · rw [Weave.gaps, List.map_snd_zip]
    · rfl
    · simp [h]

theorem squeezed_source_congr {w v : Weave} (hhits : w.hits = v.hits)
    (hgaps : w.gaps.map squeezed = v.gaps.map squeezed) :
    squeezed w.source = squeezed v.source := by
  rw [← Weave.gaps_mapGaps, ← Weave.gaps_mapGaps] at hgaps
  rw [← Weave.fillWith_hits, ← Weave.fillWith_hits, Weave.squeezed_fillWith,
    Weave.squeezed_fillWith, hhits, Weave.fillWith_congr hgaps]

theorem weave_of_none {p : Pattern} {t : Text} (h : ∀ b u, u <:+ t → p b u = none) :
    p.weave t = ⟨t, []⟩ := by
  have key : ∀ b, p.weaveFrom 0 b t = ⟨t, []⟩ := by
    induction t with
    | nil =>
      intro b
      rw [Pattern.weaveFrom, h b [] (List.suffix_refl _)]
    | cons c t ih =>
      intro b
      rw [Pattern.weaveFrom, h b _ (List.suffix_refl _)]
      simp only [ih (fun b u hu => h b u (hu.trans (List.suffix_cons c t)))]
      rfl
  exact key none

/-- Without NUL there is no fence to take away. -/
theorem unfenceScripts_of_nul_free {t : Text} (newline : Text) (h : '\x00' ∉ t) :
    unfenceScripts newline t = t := by
  have hprefix : ∀ part u : Text, '\x00' ∈ part → '\x00' ∉ u → part.isPrefixOf u = false := by
    intro part u hp hu
    rw [Bool.eq_false_iff]
    intro hpre
    exact hu ((List.isPrefixOf_iff_prefix.mp hpre).subset hp)
  have hopen : (Pattern.ofRest dropOpenFence?).replace (fun _ => newline) t = t := by
    rw [Pattern.replace, weave_of_none]
    · simp [Weave.replace]
    · intro b u hu
      have : openFence.isPrefixOf u = false :=
        hprefix _ u (by decide) fun hm => h (hu.subset hm)
      simp [Pattern.ofRest, dropOpenFence?, this]
  have hclose : (Pattern.ofRest dropCloseFence?).replace (fun _ => newline) t = t := by
    rw [Pattern.replace, weave_of_none]
    · simp [Weave.replace]
    · intro b u hu
      have hsub : ∀ c ∈ (dropNewline u).dropWhile isBlank, c ∈ t := by
        intro c hc
        have hmem := (List.dropWhile_suffix isBlank).subset hc
        apply hu.subset
        revert hmem
        fun_cases dropNewline u <;> simp +contextual
      have : closeFence.isPrefixOf ((dropNewline u).dropWhile isBlank) = false :=
        hprefix _ _ (by decide) fun hm => h (hsub _ hm)
      simp [Pattern.ofRest, dropCloseFence?, this]
  rw [unfenceScripts, hopen, hclose]

/-! ## A faithful run -/

/-- A kind comes back as it was taken out. The literals are the matches of the cut by which they
were taken out, error phrases in their one spelling; there is a token for each, and every token met
is one that was left for a literal of the kind. What stands before, between and after the tokens is
what stood before, between and after the literals, apart from white space and letter case, and the
text that the kind leaves has the literals in these places. -/
structure InPlace (raw t : Text) (k : Kind) : Prop where
  literals : (Lifting.result raw).shelves.get k =
    if k = .resume then ((liftCut raw).get k).hits.map fun _ => resumePhrase
    else ((liftCut raw).get k).hits
  tokens : (backCut (Lifting.result raw).shelves t k).rest.length =
    ((liftCut raw).get k).rest.length
  whole : ∀ g ∈ (backCut (Lifting.result raw).shelves t k).gaps, Sound (k.turn + 1) g
  places : (backCut (Lifting.result raw).shelves t k).gaps.map squeezed =
    ((liftCut raw).get k).gaps.map squeezed
  back : ∃ w : Weave, w.source = filled (Lifting.result raw).shelves t k ∧
    w.hits = (Lifting.result raw).shelves.get k ∧
    w.gaps = (backCut (Lifting.result raw).shelves t k).gaps

theorem nul_free_of_nuls {t : Text} (h : nuls t = 0) : '\x00' ∉ t :=
  List.count_eq_zero.mp h

/-- Texts between literals have no NUL if the whole has none. -/
theorem nul_free_gaps {w : Weave} {ls : List Text} (hlen : ls.length = w.rest.length)
    (h : nuls (w.fillWith ls) = 0) : ∀ g ∈ w.gaps, '\x00' ∉ g := by
  intro g hg
  rw [nuls_fillWith hlen] at h
  have hgaps : '\x00' ∉ w.gaps.flatten := nul_free_of_nuls (by omega)
  exact fun hc => hgaps (List.mem_flatten_of_mem hg hc)

section

variable {raw t : Text} (hnul : '\x00' ∉ raw) (hfence : fenceScripts raw = raw)
  (hm : Matched (Lifting.result raw).shelves t)
  (ht : squeezed t = squeezed (Lifting.mask .resume ((liftCut raw).get .resume)))

include hnul hfence hm ht

theorem sound_markup_gaps :
    ∀ g ∈ (backCut (Lifting.result raw).shelves t .markup).gaps, Sound 5 g := by
  have hnuls : nuls (filled (Lifting.result raw).shelves t .markup) = 0 := by
    rw [nuls_filled hm (nuls_of_squeezed ht), takenFrom, hfence]
    exact List.count_eq_zero.mpr hnul
  intro g hg
  exact .of_nul_free (nul_free_gaps (hm .markup).symm hnuls g hg)

theorem inPlace_of_matched (k : Kind) : InPlace raw t k := by
  have hbase := sound_markup_gaps hnul hfence hm ht
  exact {
    literals := shelves_eq raw k
    tokens := (hm k).trans (shelves_length raw k)
    whole := sound_back hnul hm hbase k
    places := (gaps_back hm ht hnul hbase k).1
    back := Weave.fillWith_weave (hm k).symm }

/-- The runs of markup stand in the text put back, which is the document apart from white space and
letter case. -/
theorem backText_faithful :
    (∃ w : Weave, w.source = backText (Lifting.result raw).shelves t ∧
      w.hits = ((liftCut raw).get .markup).hits ∧
      w.gaps.map squeezed = ((liftCut raw).get .markup).gaps.map squeezed) ∧
    squeezed (backText (Lifting.result raw).shelves t) = squeezed raw := by
  obtain ⟨w, hsource, hhits, hgaps⟩ := backText_weave (hm .markup)
  rw [(inPlace_of_matched hnul hfence hm ht .markup).places] at hgaps
  rw [shelves_eq, if_neg (by decide)] at hhits
  refine ⟨⟨w, hsource, hhits, hgaps⟩, ?_⟩
  rw [← hsource, squeezed_source_congr hhits hgaps, squeezed_source_lift, takenFrom, hfence]

end

theorem nul_free_of_squeezed {s t : Text} (h : squeezed s = squeezed t) (ht : '\x00' ∉ t) :
    '\x00' ∉ s := by
  apply nul_free_of_nuls
  rw [nuls_of_squeezed h]
  exact List.count_eq_zero.mpr ht

/-- Without fences and with declarations left together, the parts of a run that comes through. -/
theorem format_parts {settings : Settings} {raw : Text} {f : Formatted}
    (hnul : '\x00' ∉ raw) (hfence : fenceScripts raw = raw)
    (hsplit : settings.splitDeclarations = false) (h : format settings raw = .ok f) :
    ∃ style worked, settings.style = .ok style ∧
      (liftLiterals raw).outcome = .ok (Lifting.result raw) ∧
      (workLines style (Lifting.result raw).shelves (Lifting.result raw).lines).outcome =
        .ok worked ∧
      (putBackLiterals (Lifting.result raw).shelves (newlineOf raw)
        (workedText raw worked)).outcome = .ok f.text ∧
      Matched (Lifting.result raw).shelves (workedText raw worked) ∧
      squeezed (workedText raw worked) =
        squeezed (Lifting.mask .resume ((liftCut raw).get .resume)) ∧
      f.text = backText (Lifting.result raw).shelves (workedText raw worked) := by
  obtain ⟨style, worked, hstyle, hlift, hwork, hm, hback, htext⟩ := format_ok h
  obtain ⟨hunit, hkeep⟩ := Settings.style_ok hstyle
  have hlines : statements style (Lifting.result raw).lines = (Lifting.result raw).lines := by
    rw [statements, hkeep, hsplit]
    rfl
  have ht : squeezed (workedText raw worked) =
      squeezed (Lifting.mask .resume ((liftCut raw).get .resume)) := by
    rw [squeezed_workedText, squeezed_workLines hunit hwork, hlines, squeezed_liftedLines]
  have hclear := nul_free_of_squeezed (backText_faithful hnul hfence hm ht).2 hnul
  rw [unfenceScripts_of_nul_free _ hclear] at htext
  exact ⟨style, worked, hstyle, hlift, hwork, hback, hm, ht, htext⟩

theorem squeezed_format {settings : Settings} {raw : Text} {f : Formatted}
    (hnul : '\x00' ∉ raw) (hfence : fenceScripts raw = raw)
    (hsplit : settings.splitDeclarations = false) (h : format settings raw = .ok f) :
    squeezed f.text = squeezed raw := by
  obtain ⟨_, _, _, _, _, _, hm, ht, htext⟩ := format_parts hnul hfence hsplit h
  rw [htext]
  exact (backText_faithful hnul hfence hm ht).2

end VbTidy
