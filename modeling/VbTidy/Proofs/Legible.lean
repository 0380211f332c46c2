import VbTidy.Proofs.Again
import VbTidy.Proofs.Recovered
import VbTidy.Proofs.Reread

/-
Scripts that read the same before and after they are formatted. A script is legible if it is plain,
also without regard to white space and letter case, leaves no string open and has neither a Rem nor an
error phrase among the words of its code that was not put aside. The lines that the passes leave of
it are ready (`ready_workLines`) and bring the comments of the lines they come of
(`brings_workLines`).
-/
namespace VbTidy

/-! ## Signs -/

/-- A colon or a quote is told from other characters without regard to letter case. -/
theorem eq_of_caseless {c d : Char} (hd : d ∈ [':', '"', '\'']) (h : caseless c = d) : c = d := by
  by_cases hc : c.toNat < 0x80
  · have key : ∀ c : Char, c.toNat < 0x80 → ∀ d ∈ [':', '"', '\''], c.toLower = d → c = d :=
      of_ascii (by decide)
    rw [caseless_of_ascii hc] at h
    exact key c hc d hd h
  · have hsmall : ∀ d ∈ [':', '"', '\''], d.toNat < 0x80 ∧ d ≠ 's' ∧ d ≠ 'i' ∧ d ≠ 'k' := by decide
    obtain ⟨hlt, hs, hi, hk⟩ := hsmall d hd
    rw [caseless] at h
    split at h
    · exact absurd h.symm hs
    · rcases lowerChar_of_not_ascii (c := c) (by omega) with ⟨hge, _⟩ | ⟨_, h'⟩ | ⟨_, h'⟩
      · rw [h] at hge
        omega
      · exact absurd (h.symm.trans h') hi
      · exact absurd (h.symm.trans h') hk

theorem caseless_sign {d : Char} (hd : d ∈ [':', '"', '\'']) :
    isSpace d = false ∧ caseless d = d := by
  have key : ∀ d ∈ [':', '"', '\''], isSpace d = false ∧ caseless d = d := by decide
  exact key d hd

/-- A sign stands in a text if it stands in one with the same letters. -/
theorem sign_of_squeezed {s t : Text} {d : Char} (hd : d ∈ [':', '"', '\''])
    (h : squeezed s = squeezed t) (hs : d ∈ s) : d ∈ t := by
  obtain ⟨hspace, hcase⟩ := caseless_sign hd
  have hmem : d ∈ squeezed s :=
    List.mem_map.mpr ⟨d, List.mem_filter.mpr ⟨hs, by rw [hspace]; rfl⟩, hcase⟩
  rw [h] at hmem
  obtain ⟨c, hc, hcd⟩ := List.mem_map.mp hmem
  exact eq_of_caseless hd hcd ▸ (List.mem_filter.mp hc).1

/-! ## Where statements start -/

theorem dropEnd_cases (t : Text) :
    dropEnd isSpace t = [] ∨ ∃ d c, dropEnd isSpace t = d ++ [c] ∧ isSpace c = false ∧
      squeezed t = squeezed d ++ [caseless c] := by
  rcases List.eq_nil_or_concat (dropEnd isSpace t) with h | ⟨d, c, h⟩
  · exact .inl h
  · rw [List.concat_eq_append] at h
    have hc : isSpace c = false := by
      have hhead : t.reverse.dropWhile isSpace = c :: d.reverse := by
        rw [← List.reverse_reverse (t.reverse.dropWhile isSpace)]
        simpa [dropEnd] using congrArg List.reverse h
      have hnot := List.head?_dropWhile_not isSpace t.reverse
      rw [hhead] at hnot
      simpa using hnot
    refine .inr ⟨d, c, h, hc, ?_⟩
    rw [← squeezed_dropEnd (p := isSpace) (fun _ h => h) t, h, squeezed_append, squeezed_cons, hc]
    rfl

/-- A text of whole tokens does not look as if it ended with one that is not among them. -/
theorem not_suffix_of_not_mem_marks {n : Nat} {k : Kind} {s : Text} (hs : Sound n s)
    (hmark : Mark.kind k ∉ marks s) : ¬ k.token <:+ dropEnd isSpace s := by
  rintro ⟨z, hz⟩
  obtain ⟨y, hy, hspaces⟩ := dropEnd_append isSpace s
  have hline : s = z ++ (k.token ++ y) := by
    rw [← List.append_assoc, hz]
    exact hy
  rcases real_or_between hs hline with hsound | ⟨x, m, m', y', rfl, _, _, hbetween⟩
  · exact hmark (Occurs.mem_marks ⟨hline, hsound.mono (Nat.zero_le _)⟩)
  · -- the white space behind the token would be the name in the next one
    have hsame := hline.symm.trans hbetween
    have hk : ∀ u : Text, k.token ++ u = '\x00' :: (k.name ++ '\x00' :: u) :=
      (Mark.kind k).token_append
    rw [Mark.token_append, Mark.token_append, hk, List.append_assoc] at hsame
    have h₁ := (List.cons.inj (List.append_cancel_left hsame)).2
    have h₂ := (List.cons.inj (List.append_cancel_left h₁)).2
    have h₃ := (List.cons.inj (List.append_cancel_left h₂)).2
    have := hspaces '\x00' (by rw [h₃]; simp)
    cases this

/-- Whether a statement starts behind a text that does not end with markup can be told without regard
to white space and letter case. -/
theorem endsStatement_of_squeezed {n : Nat} {s t : Text} (hs : Sound n s)
    (hmark : Mark.kind .markup ∉ marks s) (h : squeezed s = squeezed t) (hend : EndsStatement s) :
    EndsStatement t := by
  rcases hend with hnil | hcolon | hmarkup
  · refine .inl ?_
    rw [← squeezed_dropEnd (p := isSpace) (fun _ h => h) s, hnil] at h
    rcases dropEnd_cases t with ht | ⟨d, c, _, _, ht⟩
    · exact ht
    · rw [ht] at h
      simp at h
  · refine .inr (.inl ?_)
    obtain ⟨d, hd⟩ := hcolon
    rw [← squeezed_dropEnd (p := isSpace) (fun _ h => h) s, ← hd, squeezed_append] at h
    rcases dropEnd_cases t with ht | ⟨e, c, ht, _, hsq⟩
    · rw [← squeezed_dropEnd (p := isSpace) (fun _ h => h) t, ht] at h
      simp [squeezed_cons, show isSpace ':' = false by decide] at h
    · rw [hsq] at h
      have hlast := List.singleton_inj.mp (List.append_inj' h rfl).2
      obtain rfl := eq_of_caseless (by decide) hlast.symm
      exact ⟨e, ht.symm⟩
  · exact absurd hmarkup (not_suffix_of_not_mem_marks hs hmark)

theorem remarkHere_of_squeezed {n : Nat} {s t c : Text} (hs : Sound n s)
    (hmark : Mark.kind .markup ∉ marks s) (h : squeezed s = squeezed t)
    (hc : remarkHere s.reverse c = true) : remarkHere t.reverse c = true := by
  rw [remarkHere, Bool.or_eq_true, Bool.and_eq_true, startsStatement_iff,
    List.reverse_reverse] at hc ⊢
  rcases hc with hquote | ⟨hrem, hend⟩
  · exact .inl hquote
  · exact .inr ⟨hrem, endsStatement_of_squeezed hs hmark h hend⟩

/-! ## Lines of a script -/

/-- What is worked on of a line of a plain script. -/
def liftedLine (row : Text) : Text :=
  Lifting.mask .resume (cutResume (masked row))

/-- The comment of a line, if it has one. -/
def ownRemark (row : Text) : List Text :=
  if (splitRemark row).2 = [] then [] else [(splitRemark row).2]

theorem marks_mask_free {k : Kind} {w : Weave} (h : ∀ g ∈ w.gaps, '\x00' ∉ g) :
    ∀ m ∈ marks (Lifting.mask k w), m = .kind k := by
  obtain ⟨g, rest⟩ := w
  induction rest generalizing g with
  | nil =>
    rw [show Lifting.mask k ⟨g, []⟩ = g by simp [Lifting.mask, Weave.replace],
      marks_nul_free (h g List.mem_cons_self)]
    simp
  | cons p rest ih =>
    have hg := h g List.mem_cons_self
    rw [mask_cons, marks_append (.of_nul_free (n := 0) hg), marks_nul_free hg, marks_token,
      List.nil_append]
    intro m hm
    rcases List.mem_cons.mp hm with rfl | hm
    · rfl
    · exact ih p.2 (fun x hx => h x (List.mem_cons_of_mem g hx)) m hm

/-- Code with its strings masked has whole tokens, all of them for strings. -/
theorem sound_maskStrings {code : Text} (h : '\x00' ∉ code) :
    Sound 2 (maskStrings code) ∧ ∀ m ∈ marks (maskStrings code), m = .kind .string := by
  have hgaps : ∀ g ∈ ((Pattern.ofRest dropString?).weave code).gaps, '\x00' ∉ g :=
    nul_not_mem_gap (by rwa [Pattern.source_weave])
  exact ⟨sound_mask (k := .string) fun g hg => .of_nul_free (hgaps g hg), marks_mask_free hgaps⟩

section
variable {row : Text} (hrow : OnLine row)
include hrow

theorem nul_not_mem_code : '\x00' ∉ (splitRemark row).1 := fun hmem =>
  (hrow _ (by rw [← splitRemark_append row]; exact List.mem_append_left _ hmem)).1 rfl

theorem sound_masked : Sound 1 (masked row) := by
  rw [masked_eq hrow]
  refine ((sound_maskStrings (nul_not_mem_code hrow)).1.mono (by decide)).append ?_
  split
  · exact .nil
  · exact .mark (m := .kind .remark) (by decide)

/-- Masked the code of a line is found where it was. -/
theorem splitFrom_stringsMasked : splitFrom [] (stringsMasked [] row) =
    (maskStrings (splitRemark row).1, (splitRemark row).2) :=
  splitFrom_masked hrow.sound hrow.oneLine rfl

/-- A comment still starts behind the code once its strings are masked. -/
theorem remarkHere_masked (h : (splitRemark row).2 ≠ []) :
    remarkHere (maskStrings (splitRemark row).1).reverse (splitRemark row).2 = true := by
  have hsplit := splitFrom_stringsMasked hrow
  have hne : (splitFrom [] (stringsMasked [] row)).2 ≠ [] := by
    rw [hsplit]
    exact h
  have hhere := remarkHere_splitFrom hne
  rw [hsplit, List.append_nil] at hhere
  exact hhere

/-- If no string is left open, no quote and no apostrophe is left on the line. -/
theorem signs_liftedLine (hclosed : Even ((splitRemark row).1.count '"')) :
    ∀ c ∈ liftedLine row, c ≠ '"' ∧ c ≠ '\'' := by
  have hcode : ∀ c ∈ maskStrings (splitRemark row).1, c ≠ '"' ∧ c ≠ '\'' := by
    have hline : OneLine (splitRemark row).1 := by
      have := hrow.oneLine
      rw [← splitRemark_append row] at this
      exact this.append.1
    have hquote := quote_not_mem_maskStrings hline hclosed
    have hsign : '"' ∉ (splitFrom [] (stringsMasked [] row)).1 →
        '\'' ∉ (splitFrom [] (stringsMasked [] row)).1 := sign_not_mem_code
    rw [splitFrom_stringsMasked hrow] at hsign
    exact fun c hc => ⟨fun e => hquote (e ▸ hc), fun e => hsign hquote (e ▸ hc)⟩
  have htoken : ∀ k : Kind, ∀ c ∈ k.token, c ≠ '"' ∧ c ≠ '\'' := by
    intro k
    cases k <;> decide
  intro c hc
  rw [liftedLine, Lifting.mask_eq] at hc
  rcases mem_fillWith hc with hg | ⟨l, hl, hc⟩
  · have hmem : c ∈ masked row := by
      rw [← source_cutResume (masked row)]
      exact mem_source.mpr (.inl hg)
    rw [masked_eq hrow] at hmem
    rcases List.mem_append.mp hmem with hmem | hmem
    · exact hcode c hmem
    · split at hmem
      · cases hmem
      · exact htoken .remark c hmem
  · rw [List.eq_of_mem_replicate hl] at hc
    exact htoken .resume c hc

/-- A line with a comment is not blank. -/
theorem ownRemark_blank (h : trim (liftedLine row) = []) : ownRemark row = [] := by
  rw [ownRemark]
  split
  · rfl
  · next hsome =>
    have hmem : '\x00' ∈ masked row := by
      rw [masked_eq hrow, if_neg hsome]
      exact List.mem_append_right _ (by decide)
    rw [← source_cutResume (masked row)] at hmem
    rcases mem_source.mp hmem with ⟨g, hg, hnul⟩ | ⟨hit, hhit, hnul⟩
    · have hlen : (List.replicate (cutResume (masked row)).rest.length Kind.resume.token).length =
          (cutResume (masked row)).rest.length := List.length_replicate
      have hcount := Weave.count_fillWith '\x00' hlen
      rw [← Lifting.mask_eq] at hcount
      have hgaps : 0 < (cutResume (masked row)).gaps.flatten.count '\x00' :=
        List.count_pos_iff.mpr (List.mem_flatten.mpr ⟨g, hg, hnul⟩)
      have hline : '\x00' ∈ liftedLine row := List.count_pos_iff.mp (by rw [liftedLine]; omega)
      cases trim_eq_nil_iff.mp h _ hline
    · exact absurd hnul (nul_not_mem_resume (hit_resume hhit).1)

variable {line : Text} (hline : Clear line) (hsame : SameLine (liftedLine row) line)
include hline hsame

/-- A line with its phrases back is the masked line, apart from white space and letter case. -/
theorem squeezed_phrased_liftedLine : squeezed (phrased line) = squeezed (masked row) :=
  squeezed_phrased (sound_masked hrow) hline.fit hsame.squeezed

/-- A line that has come of one of the script brings its comment. -/
theorem brings_liftedLine : Brings line (ownRemark row) := by
  have hsq := squeezed_phrased_liftedLine hrow hline hsame
  obtain ⟨hfit, hmarks⟩ := fit_phrased hline.fit
  have heq := marks_of_squeezed hfit.sound (sound_masked hrow) hsq
  obtain ⟨hcode, hstrings⟩ := sound_maskStrings (nul_not_mem_code hrow)
  have hplain : ∀ k, k ≠ Kind.string → Mark.kind k ∉ marks (maskStrings (splitRemark row).1) := by
    intro k hk hmem
    have := hstrings _ hmem
    cases this
    exact hk rfl
  have hmasked := masked_eq hrow
  rw [ownRemark]
  split
  · next hnone =>
    rw [if_pos hnone, List.append_nil] at hmasked
    refine .inl ⟨rfl, fun hmem => ?_⟩
    rcases hline.comment_cases with hno | ⟨code, rfl, hcodefit, hcodeplain, hbreak⟩
    · exact hno hmem
    · have hphrased := (cutTokens_remark_comment hcodefit hcodeplain hbreak).1
      refine hplain .remark (by decide) ?_
      rw [← hmasked, ← heq, hphrased, marks_append (fit_phrased hcodefit).1.sound]
      exact List.mem_append_right _ (by decide)
  · next hsome =>
    rw [if_neg hsome] at hmasked
    rcases hline.comment_cases with hno | ⟨code, rfl, hcodefit, hcodeplain, hbreak⟩
    · refine absurd (hmarks (.kind .remark) ?_) hno
      rw [heq, hmasked, marks_append hcode]
      exact List.mem_append_right _ (by decide)
    · have hphrased := (cutTokens_remark_comment hcodefit hcodeplain hbreak).1
      refine .inr ⟨_, code, rfl, ⟨by rw [List.append_nil]; rfl, hcodefit.sound⟩, ?_⟩
      rw [hphrased, hmasked, squeezed_append, squeezed_append] at hsq
      exact remarkHere_of_squeezed hcode (hplain .markup (by decide))
        (List.append_cancel_right hsq).symm (remarkHere_masked hrow hsome)

/-- A line that has come of a closed one is ready, if neither Rem nor a phrase was left on that. -/
theorem ready_liftedLine (hclosed : Even ((splitRemark row).1.count '"'))
    (hrem : "rem".toList ∉ lineWords (liftedLine row)) (hphrase : ¬ HasPhrase (liftedLine row)) : Ready line where
  clear := hline
  apart h := not_twins_cutResume (sound_masked hrow) (hsame.apart h)
  phrase h := hphrase (by rwa [HasPhrase, ← hsame.words])
  rem := by rwa [hsame.words]
  signs c hc := by
    have hsigns := signs_liftedLine hrow hclosed
    constructor
    · rintro rfl
      exact (hsigns _ (sign_of_squeezed (by decide) hsame.squeezed hc)).1 rfl
    · rintro rfl
      exact (hsigns _ (sign_of_squeezed (by decide) hsame.squeezed hc)).2 rfl

end

theorem ready_blank {line : Text} (hline : Clear line) (h : trim line = []) : Ready line := by
  have hspaces := trim_eq_nil_iff.mp h
  have hwords : lineWords line = [] := by rw [← lineWords_trim, h, lineWords_nil]
  refine ⟨hline, fun htwins => ?_, fun hphrase => ?_, by simp [hwords], fun c hc => ?_⟩
  · have hnul : '\x00' ∈ line := htwins.subset (by decide)
    cases hspaces _ hnul
  · rw [HasPhrase, hwords, List.infix_nil] at hphrase
    exact absurd hphrase (by decide)
  · constructor <;> rintro rfl <;> cases hspaces _ hc

end VbTidy
