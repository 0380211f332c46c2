import VbTidy.Proofs.Reworked

/-
The words of a line. No pass takes a word apart or joins two: spacing, indenting and aligning move
white space next to white space, operators, tokens and the ends of a line, none of which a word
reaches over, and recasing writes each word by itself (`sameLine_workLines`).
-/
namespace VbTidy

/-- The words of a text in order, without regard to letter case. -/
def lineWords (t : Text) : List Text :=
  ((wordRuns t).filter (·.all isWord)).map squeezed

@[simp] theorem lineWords_nil : lineWords [] = [] := rfl

theorem lineWords_other {c : Char} (hc : isWord c = false) (a b : Text) :
    lineWords (a ++ c :: b) = lineWords a ++ lineWords b := by
  rw [lineWords, wordRuns_append hc, List.filter_append, List.filter_cons_of_neg (by simp [hc]),
    List.map_append]
  rfl

theorem lineWords_other_cons {c : Char} (hc : isWord c = false) (t : Text) :
    lineWords (c :: t) = lineWords t :=
  lineWords_other hc [] t

theorem lineWords_word {w : Text} (hne : w ≠ []) (hw : ∀ c ∈ w, isWord c = true) :
    lineWords w = [squeezed w] := by
  have hall : w.all isWord = true := List.all_eq_true.mpr hw
  rw [lineWords, wordRuns_word hne hw, List.filter_singleton, hall]
  rfl

/-- The words of two texts in a row, if none reaches across. -/
theorem lineWords_append {a b : Text} (h : wordAt a.getLast? = false ∨ wordAt b.head? = false) :
    lineWords (a ++ b) = lineWords a ++ lineWords b := by
  rcases h with h | h
  · rcases List.eq_nil_or_concat a with rfl | ⟨a, c, rfl⟩
    · rfl
    · rw [List.concat_eq_append] at h ⊢
      have hc : isWord c = false := by simpa [wordAt] using h
      rw [List.append_assoc, List.singleton_append, lineWords_other hc, lineWords_other hc,
        lineWords_nil, List.append_nil]
  · cases b with
    | nil => simp
    | cons c b => rw [lineWords_other h, lineWords_other_cons h]

/-- A text without word characters has no words. -/
theorem lineWords_of_others {t : Text} (h : ∀ c ∈ t, isWord c = false) : lineWords t = [] := by
  induction t with
  | nil => rfl
  | cons c t ih =>
    rw [lineWords_other_cons (h c List.mem_cons_self), ih fun d hd => h d (List.mem_cons_of_mem c hd)]

/-- A word between two texts is one of the words. -/
theorem WordIn.lineWords {a w b : Text} (h : WordIn a w b) :
    VbTidy.lineWords (a ++ (w ++ b)) = VbTidy.lineWords a ++ squeezed w :: VbTidy.lineWords b := by
  rw [lineWords_append (.inl h.front), lineWords_append (.inr h.back),
    lineWords_word h.nonempty h.letters]
  rfl

/-- No word reaches over a break, so the words are those of the beads. -/
theorem lineWords_beads (t : Text) : lineWords t = (beads t).flatMap lineWords := by
  induction t using bead_induction with
  | nil => rfl
  | skip c t hc ih =>
    rw [lineWords_other_cons (isWord_of_isBreak hc), beads_break_cons hc, ih, List.flatMap_append]
    split
    · rw [List.flatMap_singleton, lineWords_other_cons (isWord_of_isBreak hc)]
      rfl
    · rfl
  | run w t hne hw ht ih =>
    have hhead : wordAt t.head? = false := by
      cases t with
      | nil => rfl
      | cons c t => exact isWord_of_isBreak (by simpa using ht)
    rw [lineWords_append (.inr hhead), beads_append (loose_of_head ht), List.flatMap_append, ih,
      beads_run hne hw, List.flatMap_singleton]

theorem lineWords_of_beads {s t : Text} (h : beads s = beads t) : lineWords s = lineWords t := by
  rw [lineWords_beads, h, ← lineWords_beads]

@[simp] theorem lineWords_trim (t : Text) : lineWords (trim t) = lineWords t :=
  lineWords_of_beads (beads_trim t)

/-! ## Parts without breaks -/

/-- A part without breaks stands in a text if it stands in one of its beads. -/
theorem infix_iff_beads {p : Text} (hne : p ≠ []) (hp : ∀ c ∈ p, isBreak c = false) (t : Text) :
    p <:+: t ↔ ∃ b ∈ beads t, p <:+: b := by
  have hfree : ∀ {c}, isBreak c = true → c ∉ p := by
    intro c hc hmem
    rw [hp c hmem] at hc
    cases hc
  have hskip : ∀ {c}, isBreak c = true → ∀ t, p <:+: c :: t ↔ p <:+: t := by
    intro c hc t
    rw [← List.nil_append (c :: t), infix_break hne (hfree hc), List.infix_nil, or_iff_right hne]
  induction t using bead_induction with
  | nil => simp [hne]
  | skip c t hc ih =>
    have hsingle : ¬ p <:+: [c] := by
      rw [hskip hc, List.infix_nil]
      exact hne
    rw [hskip hc, beads_break_cons hc]
    refine ih.trans ?_
    split <;> simp [hsingle]
  | run w t hwne hw ht ih =>
    have hcut : p <:+: w ++ t ↔ p <:+: w ∨ p <:+: t := by
      cases t with
      | nil => simp [hne]
      | cons c t =>
        have hc : isBreak c = true := by simpa using ht
        rw [infix_break hne (hfree hc), hskip hc]
    rw [hcut, beads_append (loose_of_head ht), beads_run hwne hw]
    refine (or_congr_right ih).trans ?_
    simp

/-- Where white space stands does not matter for parts without breaks. -/
theorem infix_of_beads {p s t : Text} (hne : p ≠ []) (hp : ∀ c ∈ p, isBreak c = false)
    (h : beads s = beads t) : p <:+: s ↔ p <:+: t := by
  rw [infix_iff_beads hne hp, h, ← infix_iff_beads hne hp]

/-! ## Passes -/

/-- What a pass that moves white space may do to a line: leave its beads, or set its comment apart
from the code. -/
inductive Reset : Text → Text → Prop
  | beads {l l' : Text} (hb : beads l' = beads l) (hq : squeezed l' = squeezed l) : Reset l l'
  | comment {code code' : Text} (hb : VbTidy.beads code' = VbTidy.beads code)
    (hq : squeezed code' = squeezed code) :
    Reset (code ++ Kind.remark.token) (code' ++ ' ' :: Kind.remark.token)

theorem reset_trim (l : Text) : Reset l (trim l) :=
  .beads (beads_trim l) (squeezed_trim l)

theorem reset_spaceLine (l : Text) : Reset (trim l) (spaceLine l) := by
  rcases line_cases l with h | ⟨x, h, hx⟩ | ⟨hne, h⟩
  · rw [spaceLine_bare h]
    exact .beads rfl rfl
  · rw [spaceLine_remark h hx, h]
    refine .comment ?_ ?_
    · rw [beads_respaced, beads_trim]
    · rw [respaced, squeezed_spaceContinuation, squeezed_spaceOperators, squeezed_trim]
  · rw [spaceLine_code hne h]
    refine .beads (beads_respaced _) ?_
    rw [respaced, squeezed_spaceContinuation, squeezed_spaceOperators]

/-- White space at the ends belongs to no bead. -/
theorem beads_indent {l s : Text} (hs : ∀ c ∈ s, isSpace c = true) :
    beads (s ++ trim l) = beads l := by
  rw [← beads_trim (s ++ trim l), ← trim_dropSpaces, List.dropWhile_append_of_pos hs,
    trim_dropSpaces, trim_twice, beads_trim]

theorem reset_indent {l s : Text} (hs : ∀ c ∈ s, isSpace c = true) : Reset l (s ++ trim l) := by
  refine .beads (beads_indent hs) ?_
  rw [squeezed_append, squeezed_of_spaces hs, squeezed_trim]
  rfl

/-- Aligning moves white space only. -/
theorem reset_moves {m : Marker} (hm : m = assignmentMarker ∨ m = remarkMarker) {l l' : Text}
    (h : Clear l) (hl : m.Moves l l') : Reset l l' := by
  rcases hl with rfl | ⟨cut, n, hcut, rfl⟩
  · exact .beads rfl rfl
  · rcases hm with rfl | rfl
    · obtain ⟨a, b, rfl, _, hshift⟩ := assignment_shift (n := n) hcut
      have hspaces := spaces_replicate n
      have hhead : (((List.replicate n ' ' : Text) ++ '=' :: b).head?).all isBreak = true := by
        cases n <;> rfl
      rw [hshift]
      refine .beads ?_ ?_
      · have hdrop := beads_dropWhile (fun _ h => h) ((List.replicate n ' ' : Text) ++ '=' :: b)
        rw [List.dropWhile_append_of_pos hspaces,
          beads_dropWhile (fun _ h => h)] at hdrop
        rw [beads_append (loose_of_head hhead), ← hdrop, ← beads_append (loose_of_head rfl)]
      · rw [squeezed_append, squeezed_append, squeezed_of_spaces hspaces, squeezed_append]
        rfl
    · obtain ⟨x, y, rfl, hfirst, _, hshift⟩ := remark_shift (n := n) hcut
      obtain ⟨_, rfl⟩ := comment_of_first h.settled.toOrderly (h.clear .remark) hfirst
      have hmoved : dropEnd isSpace x ++ ((List.replicate (n + 1) ' ' : Text) ++
          (Kind.remark.token ++ [])) =
          (dropEnd isSpace x ++ List.replicate n ' ') ++ ' ' :: Kind.remark.token := by
        rw [List.append_nil, List.replicate_succ']
        simp
      rw [hshift, hmoved, List.append_nil]
      refine .comment ?_ ?_
      · rw [← beads_dropEnd (p := isSpace) (fun _ h => h), dropEnd_append_all (spaces_replicate n),
          beads_dropEnd (fun _ h => h), beads_dropEnd (fun _ h => h)]
      · rw [squeezed_append, squeezed_of_spaces (spaces_replicate n), List.append_nil,
          squeezed_dropEnd fun _ h => h]

/-- Two tokens for error phrases next to each other. -/
def twinPhrases : Text :=
  Kind.resume.token ++ Kind.resume.token

/-- A line that has come of another: with the same words and the same characters apart from white
space and letter case, and no two error phrases brought together. -/
structure SameLine (l l' : Text) : Prop where
  words : lineWords l' = lineWords l
  squeezed : squeezed l' = squeezed l
  apart : twinPhrases <:+: l' → twinPhrases <:+: l

theorem words_recaseWord {case : LetterCase} {w v : Text} (h : recaseWord case w = .ok v) :
    v.all isWord = w.all isWord ∧ squeezed v = squeezed w := by
  refine ⟨?_, squeezed_recaseWord h⟩
  have halike := alike_recaseWord h
  clear h
  induction halike with
  | nil => rfl
  | cons hc _ ih =>
    rw [List.all_cons, List.all_cons, ih]
    rcases hc with rfl | ⟨hc, hd⟩
    · rfl
    · rw [hc, hd]

theorem words_rewrites {case : LetterCase} {runs outs : List Text} (h : Rewrites case runs outs) :
    (outs.filter (·.all isWord)).map squeezed =
      (runs.filter (·.all isWord)).map squeezed := by
  induction h with
  | nil => rfl
  | cons hw _ ih =>
    obtain ⟨hall, hq⟩ := words_recaseWord hw
    rw [List.filter_cons, List.filter_cons, hall]
    split
    · rw [List.map_cons, List.map_cons, hq, ih]
    · exact ih

/-- Two error phrases that stand together in a line of whole tokens are tokens. -/
theorem occurs_twins {l : Text} (hl : Sound 0 l) (h : twinPhrases <:+: l) :
    ∃ x y, Occurs (.kind .resume) x ((Mark.kind .resume).token ++ y) l := by
  obtain ⟨x, y, rfl⟩ := h
  have htoken : x ++ twinPhrases ++ y = x ++ (Kind.resume.token ++ (Kind.resume.token ++ y)) := by
    simp [twinPhrases]
  rw [htoken] at hl ⊢
  rcases real_or_between hl rfl with hx | ⟨x₀, m, m', y₀, rfl, _, _, hbetween⟩
  · exact ⟨x, y, rfl, hx⟩
  · -- the name between two tokens is followed by a NUL and a name, not by two NULs
    exfalso
    have hnul : ∀ m : Mark, ∀ u v : Text, '\x00' :: u ≠ m.name ++ v := by
      intro m u v h
      obtain ⟨c, w, hname⟩ := List.exists_cons_of_ne_nil m.name_ne_nil
      rw [hname] at h
      obtain ⟨rfl, _⟩ := List.cons.inj h
      exact nul_not_mem_name m (by rw [hname]; exact List.mem_cons_self)
    have hphrase : ∀ u : Text, Kind.resume.token ++ u =
        '\x00' :: (Kind.resume.name ++ '\x00' :: u) := (Mark.kind .resume).token_append
    rw [Mark.token_append, Mark.token_append, hphrase, hphrase, List.append_assoc] at hbetween
    obtain ⟨_, hbetween⟩ := List.cons.inj (List.append_cancel_left hbetween)
    obtain ⟨_, hbetween⟩ := List.cons.inj (List.append_cancel_left hbetween)
    obtain ⟨_, hbetween⟩ := List.cons.inj (List.append_cancel_left hbetween)
    exact hnul m' _ _ hbetween

namespace SameLine

theorem refl (l : Text) : SameLine l l := ⟨rfl, rfl, id⟩

theorem trans {l l' l'' : Text} (h : SameLine l l') (h' : SameLine l' l'') : SameLine l l'' where
  words := h'.words.trans h.words
  squeezed := h'.squeezed.trans h.squeezed
  apart := fun hin => h.apart (h'.apart hin)

theorem of_beads {l l' : Text} (hb : beads l' = beads l)
    (hq : VbTidy.squeezed l' = VbTidy.squeezed l) : SameLine l l' where
  words := lineWords_of_beads hb
  squeezed := hq
  apart := (infix_of_beads (by decide) (by decide) hb).mp

theorem of_reset {l l' : Text} (h : Reset l l') : SameLine l l' := by
  cases h with
  | beads hb hq => exact .of_beads hb hq
  | @comment code code' hb hq =>
    refine ⟨?_, ?_, fun h => ?_⟩
    · rw [lineWords_other (by decide), lineWords_append (.inr (by decide)), lineWords_of_beads hb]
    · rw [squeezed_append, squeezed_append, squeezed_space (by decide), hq]
    · rcases (infix_break (by decide) (by decide)).mp h with h | h
      · have hcode := (infix_of_beads (by decide) (by decide) hb).mp h
        exact hcode.trans (List.prefix_append _ _).isInfix
      · exact absurd h.length_le (by decide)

theorem spaceLine (l : Text) : SameLine l (spaceLine l) :=
  (of_reset (reset_trim l)).trans (of_reset (reset_spaceLine l))

/-- Recasing writes each word by itself. -/
theorem recaseLine {case : LetterCase} {l out : Text} (hl : Sound 0 l)
    (h : VbTidy.recaseLine case l = .ok out) : SameLine l out where
  words := by
    obtain ⟨outs, houts, rfl⟩ := recaseLine_ok h
    have halike : List.Forall₂ (List.Forall₂ Alike) (wordRuns l) outs :=
      houts.imp fun _ _ hw => alike_recaseWord hw
    rw [lineWords, lineWords, wordRuns_alike halike, words_rewrites houts]
  squeezed := squeezed_recaseLine h
  apart := by
    intro htwins
    have hrecased := recased_of_recaseLine hl h
    obtain ⟨x', y', hfirst⟩ := occurs_twins hrecased.sound htwins
    have hsecond : Occurs (.kind .resume) (x' ++ (Mark.kind .resume).token) y' out := by
      refine ⟨by rw [hfirst.eq]; simp, hfirst.sound.append ?_⟩
      simpa using Sound.token (m := .kind .resume) (Nat.zero_le _) .nil
    obtain ⟨x, y, hxy, hx, _⟩ := hrecased.occurs hfirst
    obtain ⟨u, v, huv, hu, _⟩ := hrecased.occurs hsecond
    have hlen : u.length = (x ++ (Mark.kind .resume).token).length := by
      rw [hu.length_eq, List.length_append, List.length_append, hx.length_eq]
    have hline := hxy.eq.symm.trans huv.eq
    rw [← List.append_assoc] at hline
    obtain ⟨rfl, rfl⟩ := List.append_inj hline hlen.symm
    rw [hxy.eq]
    exact ⟨x, v, by simp [twinPhrases]; rfl⟩

end SameLine

/-! ## All passes -/

theorem forall₂_sameLine_trans {as bs cs : List Text} (h : List.Forall₂ SameLine as bs)
    (h' : List.Forall₂ SameLine bs cs) : List.Forall₂ SameLine as cs := by
  induction h generalizing cs with
  | nil => exact h'
  | cons hab _ ih =>
    cases h' with
    | cons hbc hmore => exact .cons (hab.trans hbc) (ih hmore)

theorem squeezed_eq_nil {t : Text} : squeezed t = [] ↔ trim t = [] := by
  rw [trim_eq_nil_iff, squeezed, List.map_eq_nil_iff, List.filter_eq_nil_iff]
  simp

/-- The lines that are not blank. -/
def inky (lines : List Text) : List Text :=
  lines.filter (trim · ≠ [])

theorem SameLine.inky {lines out : List Text} (h : List.Forall₂ SameLine lines out) :
    List.Forall₂ SameLine (VbTidy.inky lines) (VbTidy.inky out) := by
  refine List.rel_filter (fun l l' hl => ?_) h
  simp only [decide_eq_true_eq, ne_eq, ← squeezed_eq_nil, hl.squeezed]

theorem sameLine_recase {case : LetterCase} {lines out : List Text} (hs : ∀ l ∈ lines, Sound 0 l)
    (h : recase case lines = .ok out) : List.Forall₂ SameLine lines out := by
  by_cases hcase : case = .unchanged
  · rw [hcase] at h
    rw [← Except.ok.inj h]
    exact List.forall₂_same.mpr fun l _ => .refl l
  · rw [recase_eq hcase] at h
    have hall := mapM_ok_forall₂ h
    clear h
    induction hall with
    | nil => exact .nil
    | cons hl _ ih =>
      refine .cons (.recaseLine (hs _ List.mem_cons_self) hl) (ih ?_)
      exact fun l hl => hs l (List.mem_cons_of_mem _ hl)

/-- The rows that are laid out are the lines that are not blank. -/
theorem sameLine_layOut {unit : Text} (hu : ∀ c ∈ unit, isBlank c = true) (lines : List Text) :
    List.Forall₂ SameLine (inky lines) (inky (layOut unit (nest lines))) := by
  have hspace : ∀ c ∈ unit, isSpace c = true := fun c hc => isSpace_of_isBlank (hu c hc)
  obtain ⟨_, hrows, _⟩ := indentLines_settled hspace lines
  have hmargin : ∀ r : Row, ∀ c ∈ margin unit r, isSpace c = true := by
    intro r c hc
    rw [margin] at hc
    split at hc
    · cases hc
    · obtain ⟨u, hu', hc⟩ := List.mem_flatten.mp hc
      rw [List.eq_of_mem_replicate hu'] at hc
      exact hspace c hc
  have htexts : List.Forall₂ (fun l (r : Row) => r.text = trim l) lines (nest lines) := by
    have h := text_nest lines
    rw [eq_comm, ← List.forall₂_eq_eq_eq, List.forall₂_map_left_iff, List.forall₂_map_right_iff] at h
    exact h.imp fun _ _ h => h.symm
  have hfilter : List.Forall₂ (fun l (r : Row) => r.text = trim l) (inky lines)
      ((nest lines).filter (·.text ≠ [])) :=
    List.rel_filter (fun l r h => by simp only [decide_eq_true_eq, h]) htexts
  have hlaid : inky (layOut unit (nest lines)) =
      ((nest lines).filter (·.text ≠ [])).map fun r => margin unit r ++ r.text := hrows
  rw [hlaid, List.forall₂_map_right_iff]
  exact hfilter.imp fun l r h => by rw [h]; exact .of_reset (reset_indent (hmargin r))

theorem sameLine_align {m : Marker} (hm : m = assignmentMarker ∨ m = remarkMarker) {s : Shelves}
    {lines out : List Text} (hclear : ∀ l ∈ lines, Clear l) (h : m.align s lines = .ok out) :
    List.Forall₂ SameLine lines out := by
  have hmoves := align_moves h
  clear h
  induction hmoves with
  | nil => exact .nil
  | cons hl _ ih =>
    refine .cons (.of_reset (reset_moves hm (hclear _ List.mem_cons_self) hl)) (ih ?_)
    exact fun l hl => hclear l (List.mem_cons_of_mem _ hl)

/-- The lines that all passes leave are the lines that they were given, blank ones apart. -/
theorem sameLine_workLines {style : Style} {raw : Text} {worked : Worked} (hnul : '\x00' ∉ raw)
    (hu : ∀ c ∈ style.unit, isBlank c = true) (hclear : ¬ Astray style raw)
    (hwork : (workLines style (Lifting.result raw).shelves (Lifting.result raw).lines).outcome =
      .ok worked) :
    List.Forall₂ SameLine (inky (statements style (Lifting.result raw).lines))
      (inky worked.lines) := by
  obtain ⟨recased, assigned, hr, ha, hm⟩ := workLines_ok hwork
  obtain ⟨hlaid, hassigned, _⟩ := clear_lines hnul hu hclear hr ha hm
  have hspaced : List.Forall₂ SameLine (statements style (Lifting.result raw).lines)
      (spacedLines style raw) := by
    rw [spacedLines, List.forall₂_map_right_iff, List.forall₂_same]
    exact fun l _ => .spaceLine l
  have hrecased := sameLine_recase (fun l hl => ((settled_spacedLines hnul style).1 l hl).sound) hr
  have hrows := forall₂_sameLine_trans (SameLine.inky (forall₂_sameLine_trans hspaced hrecased))
    (sameLine_layOut hu recased)
  exact forall₂_sameLine_trans hrows (SameLine.inky (forall₂_sameLine_trans
    (sameLine_align (.inl rfl) hlaid ha) (sameLine_align (.inr rfl) hassigned hm)))

end VbTidy
