import VbTidy.Proofs.Skeleton

/-
Formatting again. A second run need not leave the text as it is: columns are measured before the
space next to a delimiter is set, so a comment can move once more (`moves_delimitedThenPlain`). What
runs in a row cannot do is change anything but white space and letter case
(`chain_keeps_squeezed`): each run keeps the squeezed text, and the squeezed text tells that no
script tag opens.
-/
namespace VbTidy

theorem dropWord?_append (v w t : Text) :
    dropWord? (v ++ w) t = (dropWord? v t).bind (dropWord? w) := by
  induction v generalizing t with
  | nil => rfl
  | cons l v ih =>
    cases t with
    | nil => rfl
    | cons c t =>
      rw [List.cons_append, dropWord?, dropWord?]
      split
      · exact ih t
      · rfl

/-- A tag that opens a script block starts with the same letters apart from white space and letter
case. The i behind them is left out, which has a kin of its own. -/
theorem squeezed_openTag {t rest : Text} (h : dropOpenTag? t = some rest) :
    "<scr".toList <+: squeezed t := by
  unfold dropOpenTag? at h
  split at h
  · next u =>
    split at h
    · cases h
    · next after hword =>
      have hword : (dropWord? "scr".toList (u.dropWhile isSpace)).bind
          (dropWord? "ipt".toList) = some after := by
        rw [← dropWord?_append]
        exact hword
      obtain ⟨v, hv, _⟩ := Option.bind_eq_some_iff.mp hword
      have hlettered : Lettered "scr".toList := by
        unfold Lettered
        decide
      obtain ⟨s, hs, hmap⟩ := dropWord?_lettered hlettered hv
      refine ⟨squeezed v, ?_⟩
      rw [squeezed_cons, if_neg (by decide), ← squeezed_dropWhile (fun c hc => hc) u, hs,
        squeezed_append, squeezed_of_map hmap]
      rfl
  · cases h

/-- Without the start of a script tag, up to white space and letter case, there are no fences. -/
theorem fenceScripts_of_squeezed {t : Text} (h : hasPart "<scr".toList (squeezed t) = false) :
    fenceScripts t = t := by
  apply fenceScripts_of_no_tag
  rintro u ⟨s, rfl⟩
  by_contra hne
  obtain ⟨rest, hrest⟩ := Option.ne_none_iff_exists'.mp hne
  have hpart : hasPart "<scr".toList (squeezed (s ++ u)) = true := by
    rw [hasPart_iff, squeezed_append]
    exact (squeezed_openTag hrest).isInfix.trans (List.suffix_append _ _).isInfix
  rw [hpart] at h
  cases h

/-- However often a document is formatted, with declarations left together, white space and letter
case are all that changes. -/
theorem chain_keeps_squeezed {raw : Text} {ss : List Settings}
    {rs : List (Except Fault Formatted)} (hnul : '\x00' ∉ raw)
    (htag : hasPart "<scr".toList (squeezed raw) = false)
    (hsplit : ∀ s ∈ ss, s.splitDeclarations = false) (h : formatChain raw ss = .ok rs) :
    ∀ f, .ok f ∈ rs → squeezed f.text = squeezed raw := by
  induction ss generalizing raw rs with
  | nil =>
    intro f hf
    obtain rfl : rs = [] := (Except.ok.inj h).symm
    cases hf
  | cons s ss ih =>
    have hrest := fun s' hs' => hsplit s' (List.mem_cons_of_mem s hs')
    rw [formatChain] at h
    split at h
    · next f hf =>
      -- the run keeps the squeezed text, so what is known of the document holds of its result
      have hstep : squeezed f.text = squeezed raw :=
        squeezed_format hnul (fenceScripts_of_squeezed htag) (hsplit s List.mem_cons_self) hf
      obtain ⟨later, hlater, rfl⟩ := ok_of_map h
      intro g hg
      rcases List.mem_cons.mp hg with hg | hg
      · rw [Except.ok.inj hg]
        exact hstep
      · exact (ih (nul_free_of_squeezed hstep hnul) (by rw [hstep]; exact htag) hrest hlater g
          hg).trans hstep
    · next e he =>
      split at h
      · obtain ⟨later, hlater, rfl⟩ := ok_of_map h
        intro g hg
        rcases List.mem_cons.mp hg with hg | hg
        · cases hg
        · exact ih hnul htag hrest hlater g hg
      · cases h

/-- Code behind a delimiter and code on the next line, both with an empty comment. -/
def delimitedThenPlain : Text :=
  "<%x'\nx'".toList

/-- The first run measures the code behind the delimiter without the space that it sets there, and
the second with it: the comment below moves again. -/
theorem chain_delimitedThenPlain :
    ∃ f g, formatChain delimitedThenPlain (List.replicate 2 { splitDeclarations := false }) =
        .ok [.ok f, .ok g] ∧
      f.text = "<% x '\nx   '".toList ∧ g.text = "<% x '\nx    '".toList ∧ g.changed = true := by
  let stats : Stats := {
    totalLines := 2
    declarationsSplit := 0
    maxDepth := 0
    assignmentBlocks := 0
    remarkBlocks := 1
    literals := ⟨1, 0, 0, 2, 0⟩ }
  refine ⟨⟨"<% x '\nx   '".toList, true, stats⟩, ⟨"<% x '\nx    '".toList, true, stats⟩, ?_, rfl,
    rfl, rfl⟩
  decide +kernel

theorem squeezed_delimitedThenPlain :
    ∃ rs, formatChain delimitedThenPlain (List.replicate 2 { splitDeclarations := false }) = .ok rs ∧
      ∀ f, .ok f ∈ rs → squeezed f.text = squeezed delimitedThenPlain := by
  obtain ⟨f, g, h, _⟩ := chain_delimitedThenPlain
  exact ⟨[.ok f, .ok g], h, chain_keeps_squeezed (by decide) (by decide) (by decide) h⟩

theorem moves_delimitedThenPlain :
    '\x00' ∉ delimitedThenPlain ∧
      ∃ f g, formatChain delimitedThenPlain (List.replicate 2 { splitDeclarations := false }) =
        .ok [.ok f, .ok g] ∧ g.text ≠ f.text ∧ g.changed = true := by
  obtain ⟨f, g, h, hf, hg, hchanged⟩ := chain_delimitedThenPlain
  refine ⟨by decide, f, g, h, ?_, hchanged⟩
  rw [hf, hg]
  decide

end VbTidy
