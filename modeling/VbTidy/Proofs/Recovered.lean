import VbTidy.Proofs.Printed

/-
Putting aside and putting back. A cut of a text without NUL has no NUL between its matches, so what
is found in the masked text are the tokens left for the matches, even where the name of a kind stands
between two of them: each token is read whole before the next is looked for (`gaps_cutTokens_mask`).
Lines that are cut, masked and joined therefore come back when their literals are put back
(`putBack_maskLines`), whatever the cut is. For the four kinds that are taken out verbatim this is
`cut_then_putBack`, together with what the cuts are: markup reaches from one delimiter of code to the
next (`delimited_cutMarkup`), and the delimiters of client comments are counted from left to right.
-/
namespace VbTidy

/-! ## Any cut -/

/-- The shelf on which the matches of cuts are put. -/
def shelfOf (k : Kind) (ws : List Weave) : Shelf :=
  ⟨k.name, literalsOf ws⟩

/-- The tokens in a masked text are those that stand for its matches. -/
theorem gaps_cutTokens_mask {k : Kind} {w : Weave} (h : ∀ g ∈ w.gaps, '\x00' ∉ g) :
    (cutTokens k (Lifting.mask k w)).gaps = w.gaps := by
  obtain ⟨head, rest⟩ := w
  induction rest generalizing head with
  | nil =>
    have hmask : Lifting.mask k ⟨head, []⟩ = head ++ [] := by simp [Lifting.mask, Weave.replace]
    rw [hmask, cutTokens_nul_free k (h head List.mem_cons_self), cutTokens_nil]
    simp [Weave.prepend, Weave.gaps]
  | cons p rest ih =>
    have hmore := ih p.2 fun g hg => h g (List.mem_cons_of_mem _ hg)
    have htoken : (Mark.kind k).token = k.token := rfl
    rw [mask_cons, htoken, cutTokens_nul_free k (h head List.mem_cons_self), cutTokens_token]
    show (head ++ []) :: (cutTokens k (Lifting.mask k ⟨p.2, rest⟩)).gaps = _
    rw [hmore, List.append_nil]
    rfl

section
variable {k : Kind} {ws : List Weave} (h : ∀ w ∈ ws, ∀ g ∈ w.gaps, '\x00' ∉ g)
include h

theorem tokensIn_maskLines : tokensIn k (maskLines k ws) = (literalsOf ws).length := by
  induction ws with
  | nil => rfl
  | cons w ws ih =>
    have hmore := ih fun v hv => h v (List.mem_cons_of_mem _ hv)
    have hfirst := Weave.rest_length_of_gaps (gaps_cutTokens_mask (k := k) (h w List.mem_cons_self))
    calc tokensIn k (maskLines k (w :: ws))
        = (cutTokens k (Lifting.mask k w)).rest.length + tokensIn k (maskLines k ws) := rfl
      _ = w.hits.length + (literalsOf ws).length := by
        rw [hfirst, hmore, Weave.hits, List.length_map]
      _ = (literalsOf (w :: ws)).length := by simp [literalsOf]

theorem fillPieces_maskLines :
    fillPieces k (maskLines k ws) (literalsOf ws) = ws.map Weave.source := by
  induction ws with
  | nil => rfl
  | cons w ws ih =>
    have hmore := ih fun v hv => h v (List.mem_cons_of_mem _ hv)
    have hgaps := gaps_cutTokens_mask (k := k) (h w List.mem_cons_self)
    have hlen : (cutTokens k (Lifting.mask k w)).rest.length = w.hits.length := by
      rw [Weave.rest_length_of_gaps hgaps, Weave.hits, List.length_map]
    -- the line takes its own literals and leaves the others to the lines behind it
    have hfirst :
        (cutTokens k (Lifting.mask k w)).fillWith (w.hits ++ literalsOf ws) = w.source := by
      rw [← Weave.fillWith_take, hlen, List.take_left, Weave.fillWith_congr hgaps,
        Weave.fillWith_hits]
    have hliterals : literalsOf (w :: ws) = w.hits ++ literalsOf ws := by simp [literalsOf]
    show (cutTokens k (Lifting.mask k w)).fillWith (literalsOf (w :: ws)) ::
      fillPieces k (maskLines k ws)
        ((literalsOf (w :: ws)).drop (cutTokens k (Lifting.mask k w)).rest.length) = _
    rw [hliterals, hfirst, hlen, List.drop_left, hmore, List.map_cons]

/-- Lines that are cut, masked and joined come back. -/
theorem putBack_maskLines {newline : Text} (hne : newline ≠ [])
    (hn : ∀ c ∈ newline, isBreak c = true) :
    (shelfOf k ws).putBack (joinLines newline (maskLines k ws)) =
      .ok (joinLines newline (ws.map Weave.source)) := by
  have hjoin : ∀ lines, joinLines newline lines = closeLines newline false lines := by
    simp [closeLines]
  have htokens : (shelfOf k ws).tokens (joinLines newline (maskLines k ws)) =
      (shelfOf k ws).literals.length := by
    rw [hjoin]
    exact (tokens_closeLines hne hn k false _).trans (tokensIn_maskLines h)
  rw [Shelf.putBack_eq, if_pos htokens, hjoin, hjoin, ← fillPieces_maskLines (k := k) h]
  exact congrArg Except.ok (fill_closeLines hne hn (Nat.le_of_eq (tokensIn_maskLines h)))

end

theorem nul_not_mem_gap {w : Weave} (h : '\x00' ∉ w.source) : ∀ g ∈ w.gaps, '\x00' ∉ g :=
  fun g hg hmem => h (mem_source.mpr (.inl ⟨g, hg, hmem⟩))

/-- A text that is cut and masked comes back. -/
theorem putBack_mask {k : Kind} {w : Weave} (h : '\x00' ∉ w.source) :
    (shelfOf k [w]).putBack (Lifting.mask k w) = .ok w.source := by
  have hone : ∀ v ∈ [w], ∀ g ∈ v.gaps, '\x00' ∉ g := by
    intro v hv
    obtain rfl := List.mem_singleton.mp hv
    exact nul_not_mem_gap h
  have hne : ['\n'] ≠ [] := by decide
  have hback := putBack_maskLines (k := k) hone hne (by decide)
  simpa [maskLines, Lifting.mask] using hback

/-- Lines that are cut by a cut that loses nothing. -/
theorem putBack_cutLines {k : Kind} {cut : Text → Weave} (hcut : ∀ line, (cut line).source = line)
    {lines : List Text} (h : ∀ line ∈ lines, '\x00' ∉ line) :
    (shelfOf k (lines.map cut)).putBack (joinLines ['\n'] (maskLines k (lines.map cut))) =
      .ok (joinLines ['\n'] lines) := by
  have hfree : ∀ w ∈ lines.map cut, ∀ g ∈ w.gaps, '\x00' ∉ g := by
    intro w hw
    obtain ⟨line, hline, rfl⟩ := List.mem_map.mp hw
    apply nul_not_mem_gap
    rw [hcut]
    exact h line hline
  have hsource : (lines.map cut).map Weave.source = lines := by
    rw [List.map_map]
    exact (List.map_congr_left fun line _ => hcut line).trans (List.map_id lines)
  rw [putBack_maskLines hfree (by decide) (by decide), hsource]

/-! ## Markup -/

/-- A cut at runs of markup: each starts with a closing delimiter, all but the last end with an
opening one, and no code has a closing delimiter in it. -/
structure Delimited (w : Weave) : Prop where
  closing : ∀ host ∈ w.hits, ['%', '>'] <+: host
  opening : ∀ host ∈ w.hits.dropLast, ['<', '%'] <:+ host
  code : ∀ g ∈ w.gaps, ¬ ['%', '>'] <:+: g

theorem delimited_nil : Delimited ⟨[], []⟩ where
  closing := by simp [Weave.hits]
  opening := by simp [Weave.hits]
  code := by simp [Weave.gaps]

/-- A run of markup in front, which ends with an opening delimiter if anything follows. -/
theorem opening_pushHit {w : Weave} {host : Text} (h : Delimited w)
    (hend : w = ⟨[], []⟩ ∨ ['<', '%'] <:+ host) :
    ∀ l ∈ (w.pushHit host).hits.dropLast, ['<', '%'] <:+ l := by
  rw [Weave.hits_pushHit]
  intro l hl
  rcases hend with rfl | hend
  · simp [Weave.hits] at hl
  · cases hhits : w.hits with
    | nil => simp [hhits] at hl
    | cons a as =>
      rw [hhits, List.dropLast_cons_cons] at hl
      rcases List.mem_cons.mp hl with rfl | hl
      · exact hend
      · exact h.opening l (hhits ▸ hl)

theorem code_pushHit {w : Weave} (host : Text) (h : Delimited w) :
    ∀ g ∈ (w.pushHit host).gaps, ¬ ['%', '>'] <:+: g := by
  intro g hg
  rcases List.mem_cons.mp hg with rfl | hg
  · simp [Weave.pushHit]
  · exact h.code g hg

/-- From inside code a cut at markup follows, and from inside markup one after the rest of it. -/
theorem delimited_code_host : (∀ t, Delimited (cutCode t)) ∧ ∀ t, Delimited (cutHost t).2 ∧
    ((cutHost t).2 = ⟨[], []⟩ ∨ ['<', '%'] <:+ (cutHost t).1) := by
  refine cutCode.mutual_induct (fun t => Delimited (cutCode t)) (fun t => Delimited (cutHost t).2 ∧
    ((cutHost t).2 = ⟨[], []⟩ ∨ ['<', '%'] <:+ (cutHost t).1)) ?_ ?_ ?_ ?_ ?_ ?_
  · exact delimited_nil
  · rintro t ⟨hmore, hend⟩
    rw [cutCode]
    have hhost : (cutHost t).2 = ⟨[], []⟩ ∨ ['<', '%'] <:+ '%' :: '>' :: (cutHost t).1 :=
      hend.imp_right fun h => h.trans (List.suffix_append ['%', '>'] _)
    refine ⟨?_, opening_pushHit hmore hhost, code_pushHit _ hmore⟩
    intro l hl
    rcases List.mem_cons.mp hl with rfl | hl
    · exact List.prefix_append ['%', '>'] _
    · exact hmore.closing l hl
  · intro c t hc ih
    rw [cutCode]
    · refine ⟨ih.closing, ih.opening, fun g hg => ?_⟩
      rcases List.mem_cons.mp hg with rfl | hg
      · -- a closing delimiter at the start of the code would have been found
        intro hin
        rcases List.infix_cons_iff.mp hin with ⟨u, hu⟩ | hin
        · obtain ⟨rfl, hhead⟩ := List.cons.inj hu
          have hsource := (source_code_host t).1
          rw [Weave.source, ← hhead] at hsource
          exact hc _ rfl hsource.symm
        · exact ih.code _ (Weave.head_mem_gaps _) hin
      · exact ih.code g (List.mem_cons_of_mem _ hg)
    · exact hc
  · exact ⟨delimited_nil, .inl rfl⟩
  · intro t ih
    rw [cutHost]
    exact ⟨ih, .inr (List.suffix_refl _)⟩
  · rintro c t hc ⟨hmore, hend⟩
    rw [cutHost]
    · exact ⟨hmore, hend.imp_right fun h => h.trans (List.suffix_cons c _)⟩
    · exact hc

/-- In a whole document the first run of markup may start anywhere. -/
theorem delimited_cutMarkup (t : Text) :
    (∀ host ∈ (cutMarkup t).hits.tail, ['%', '>'] <+: host) ∧
    (∀ host ∈ (cutMarkup t).hits.dropLast, ['<', '%'] <:+ host) ∧
    ∀ g ∈ (cutMarkup t).gaps, ¬ ['%', '>'] <:+: g := by
  rw [cutMarkup]
  split
  · obtain ⟨hmore, hend⟩ := delimited_code_host.2 t
    exact ⟨hmore.closing, opening_pushHit hmore hend, code_pushHit _ hmore⟩
  · have hcode := delimited_code_host.1 t
    exact ⟨fun host hh => hcode.closing host (List.mem_of_mem_tail hh), hcode.opening, hcode.code⟩

/-! ## Delimiters of client comments -/

/-- The number of delimiters in a text, each looked for behind the one before. -/
def delimiterCount : Text → Nat
  | '<' :: '!' :: '-' :: '-' :: t => delimiterCount t + 1
  | '-' :: '-' :: '>' :: t => delimiterCount t + 1
  | _ :: t => delimiterCount t
  | [] => 0

theorem length_weave_delimiter (t : Text) :
    (delimiterPattern.weave t).rest.length = delimiterCount t := by
  have key : ∀ before, (delimiterPattern.weaveFrom 0 before t).rest.length = delimiterCount t := by
    fun_induction delimiterCount t with
    | case1 t ih =>
      intro before
      have hit : delimiterPattern before ('<' :: '!' :: '-' :: '-' :: t) = some 4 := rfl
      rw [Pattern.weaveFrom, hit]
      simp [Pattern.weaveFrom, Weave.pushHit, ih]
    | case2 t ih =>
      intro before
      have hit : delimiterPattern before ('-' :: '-' :: '>' :: t) = some 3 := rfl
      rw [Pattern.weaveFrom, hit]
      simp [Pattern.weaveFrom, Weave.pushHit, ih]
    | case3 c t hopen hclose ih =>
      intro before
      have miss : delimiterPattern before (c :: t) = none := by
        have ho : "<!--".toList.isPrefixOf (c :: t) = false := by
          rw [Bool.eq_false_iff]
          intro hp
          obtain ⟨u, hu⟩ := List.isPrefixOf_iff_prefix.mp hp
          obtain ⟨rfl, rfl⟩ := List.cons.inj hu
          exact hopen u rfl rfl
        have hc : "-->".toList.isPrefixOf (c :: t) = false := by
          rw [Bool.eq_false_iff]
          intro hp
          obtain ⟨u, hu⟩ := List.isPrefixOf_iff_prefix.mp hp
          obtain ⟨rfl, rfl⟩ := List.cons.inj hu
          exact hclose u rfl rfl
        simp only [delimiterPattern, Pattern.literal, ho, hc]
        rfl
      rw [Pattern.weaveFrom, miss]
      exact ih (some c)
    | case4 =>
      intro before
      rfl
  exact key none

/-- The delimiters are put aside exactly if their number is even. -/
theorem cutDelimiters_eq (t : Text) :
    cutDelimiters t = if delimiterCount t % 2 = 0 then .ok (delimiterPattern.weave t)
      else .error (.oddDelimiters (delimiterCount t)) := by
  rw [cutDelimiters, length_weave_delimiter]

/-! ## All kinds -/

/-- What is put aside from a text without NUL comes back where it was. Runs of markup reach from one
delimiter of code to the next, and the code left between them has no closing one. Delimiters of
client comments are refused exactly if their number is odd. Strings and comments come back line by
line. -/
theorem cut_then_putBack (t : Text) (lines : List Text) (ht : '\x00' ∉ t)
    (hl : ∀ line ∈ lines, '\x00' ∉ line) :
    ((shelfOf .markup [cutMarkup t]).putBack (Lifting.mask .markup (cutMarkup t)) = .ok t ∧
      (∀ host ∈ (cutMarkup t).hits.tail, ['%', '>'] <+: host) ∧
      (∀ host ∈ (cutMarkup t).hits.dropLast, ['<', '%'] <:+ host) ∧
      ∀ code ∈ (cutTokens .markup (Lifting.mask .markup (cutMarkup t))).gaps,
        ¬ ['%', '>'] <:+: code) ∧
    ((∃ n, cutDelimiters t = .error (.oddDelimiters n)) ↔ delimiterCount t % 2 = 1) ∧
    (delimiterCount t % 2 = 0 → ∃ w, cutDelimiters t = .ok w ∧
      (shelfOf .delimiter [w]).putBack (Lifting.mask .delimiter w) = .ok t) ∧
    (shelfOf .string (lines.map cutStrings)).putBack
      (joinLines ['\n'] (maskLines .string (lines.map cutStrings))) =
        .ok (joinLines ['\n'] lines) ∧
    (shelfOf .remark (lines.map cutRemark)).putBack
      (joinLines ['\n'] (maskLines .remark (lines.map cutRemark))) =
        .ok (joinLines ['\n'] lines) := by
  have hmarkup : (cutMarkup t).source = t := source_cutMarkup t
  have hweave : (delimiterPattern.weave t).source = t := Pattern.source_weave _ t
  obtain ⟨hclosing, hopening, hcode⟩ := delimited_cutMarkup t
  refine ⟨⟨?_, hclosing, hopening, ?_⟩, ?_, ?_, ?_, ?_⟩
  · have hback := putBack_mask (k := .markup) (w := cutMarkup t) (by rwa [hmarkup])
    rwa [hmarkup] at hback
  · rw [gaps_cutTokens_mask (nul_not_mem_gap (by rwa [hmarkup]))]
    exact hcode
  · rw [cutDelimiters_eq]
    by_cases heven : delimiterCount t % 2 = 0
    · rw [if_pos heven]
      simp [heven]
    · rw [if_neg heven]
      exact ⟨fun _ => by omega, fun _ => ⟨_, rfl⟩⟩
  · intro heven
    refine ⟨delimiterPattern.weave t, by rw [cutDelimiters_eq, if_pos heven], ?_⟩
    have hback := putBack_mask (k := .delimiter) (w := delimiterPattern.weave t) (by rwa [hweave])
    rwa [hweave] at hback
  · exact putBack_cutLines source_cutStrings hl
  · exact putBack_cutLines source_cutRemark hl

/-- Names of kinds between the places of literals. -/
theorem named_between_comes_back :
    (shelfOf .markup [cutMarkup "%><%html%><!--clientcomment-->".toList]).putBack
      (Lifting.mask .markup (cutMarkup "%><%html%><!--clientcomment-->".toList)) =
        .ok "%><%html%><!--clientcomment-->".toList ∧
    (∃ w, cutDelimiters "%><%html%><!--clientcomment-->".toList = .ok w ∧
      (shelfOf .delimiter [w]).putBack (Lifting.mask .delimiter w) =
        .ok "%><%html%><!--clientcomment-->".toList) ∧
    (shelfOf .string (["x=\"a\"quoted\"b\"'c".toList].map cutStrings)).putBack
      (joinLines ['\n'] (maskLines .string (["x=\"a\"quoted\"b\"'c".toList].map cutStrings))) =
        .ok "x=\"a\"quoted\"b\"'c".toList := by
  obtain ⟨⟨hmarkup, _⟩, _, hdelimiter, hstring, _⟩ := cut_then_putBack
    "%><%html%><!--clientcomment-->".toList ["x=\"a\"quoted\"b\"'c".toList] (by decide) (by decide)
  exact ⟨hmarkup, hdelimiter (by decide), hstring⟩

end VbTidy
