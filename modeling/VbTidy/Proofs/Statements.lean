import VbTidy.Proofs.Tame

/-
One statement per declared name. A line is cut at the word Dim, the list of names at its commas,
and the statement at a colon or a token. The last cut may go through a token, when the name of a
kind stands between two tokens; but what stands after it is put behind the last name again, so the
lines that come out have whole tokens, and all of them in order (`orderly_splitDeclaration`).
-/
namespace VbTidy

/-! ## The word -/

theorem sameLetter_nul {l : Char} (h : l ∈ "dim".toList) : sameLetter l '\x00' = false := by
  have key : ∀ l ∈ "dim".toList, sameLetter l '\x00' = false := by decide
  exact key l h

theorem dropWord?_nul_free {w t rest : Text} (hw : ∀ l ∈ w, sameLetter l '\x00' = false)
    (h : dropWord? w t = some rest) :
    ∃ s, t = s ++ rest ∧ s.length = w.length ∧ '\x00' ∉ s := by
  obtain ⟨s, rfl, hs⟩ := dropWord?_iff.mp h
  refine ⟨s, rfl, hs.length_eq.symm, ?_⟩
  clear h
  induction hs with
  | nil => simp
  | @cons l c w s hc _ ih =>
    rw [List.forall_mem_cons] at hw
    rw [List.mem_cons, not_or]
    refine ⟨?_, ih hw.2⟩
    rintro rfl
    rw [hw.1] at hc
    cases hc

/-- The first letter of Dim is that letter or its capital. -/
theorem lowerChar_of_sameLetter_d {c : Char} (h : sameLetter 'd' c = true) : lowerChar c = 'd' := by
  rw [sameLetter] at h
  split at h
  · rename_i hascii
    rw [Bool.and_eq_true, decide_eq_true_eq, decide_eq_true_eq] at hascii
    rw [lowerChar, if_pos hascii.2]
    exact (beq_iff_eq.mp h).symm
  · have hlow : (lowerChar 'd').toNat = 100 := by decide
    have hkin : (letterKin.lookup 100).getD [] = [] := by decide
    simp only [hlow, hkin] at h
    have hn : (lowerChar c).toNat = 100 := by simpa using h
    rw [← Char.ofNat_toNat (lowerChar c), hn]

/-- No token reaches into the word Dim. -/
theorem clean_dim {a b : Char} {t : Text} (ha : sameLetter 'd' a = true) (hb : b ≠ '\x00') :
    Sound.Clean 0 (a :: b :: t) := by
  have hlow := lowerChar_of_sameLetter_d ha
  apply Sound.clean_pair
  · rintro rfl
    revert hlow
    decide
  · intro m hm _ i hi heq
    have hmem : a ∈ m.token := by
      have : a ∈ (m.token.drop i).take 2 := by simp [heq]
      exact List.mem_of_mem_drop (List.mem_of_mem_take this)
    obtain rfl : a = 'd' := (lowerChar_token hmem).symm.trans hlow
    -- a d is the last letter of a name
    have key : ∀ m ∈ Mark.all, ∀ i < m.token.length, ((m.token.drop i).take 2).head? = some 'd' →
        ((m.token.drop i).take 2).tail = ['\x00'] := by decide
    have htail := key m hm i hi (by rw [heq]; rfl)
    rw [heq] at htail
    simp only [List.tail_cons, List.cons.injEq, and_true] at htail
    exact hb htail

theorem firstFrom_eq_some {p : Pattern} {b : Option Char} {t before hit after : Text}
    (h : p.firstFrom b t = some (before, hit, after)) :
    t = before ++ (hit ++ after) ∧ ∃ b' n, p b' (hit ++ after) = some n ∧
      hit = (hit ++ after).take n := by
  induction t generalizing b before with
  | nil =>
    rw [Pattern.firstFrom] at h
    obtain ⟨n, hn, heq⟩ := Option.map_eq_some_iff.mp h
    cases heq
    exact ⟨rfl, b, n, hn, by simp⟩
  | cons c t ih =>
    rw [Pattern.firstFrom] at h
    split at h
    · rename_i n hn
      cases h
      refine ⟨by simp, b, n, ?_, ?_⟩
      · rwa [List.take_append_drop]
      · rw [List.take_append_drop]
    · obtain ⟨⟨x, y⟩, hr, heq⟩ := Option.map_eq_some_iff.mp h
      simp only [Prod.mk.injEq] at heq
      obtain ⟨rfl, rfl⟩ := heq
      obtain ⟨rfl, hrest⟩ := ih hr
      exact ⟨rfl, hrest⟩

/-- A line at its first Dim. -/
theorem first_dim {line before dim after : Text}
    (h : dimPattern.first? line = some (before, dim, after)) :
    line = before ++ (dim ++ after) ∧ '\x00' ∉ dim ∧ dim ≠ [] ∧ Sound.Clean 0 (dim ++ after) := by
  obtain ⟨hline, b, n, hn, htake⟩ := firstFrom_eq_some h
  refine ⟨hline, ?_⟩
  unfold dimPattern at hn
  split at hn
  · cases hn
  split at hn
  case h_2 => cases hn
  rename_i rest hrest
  split at hn
  · cases hn
  obtain rfl : 3 = n := Option.some.inj hn
  obtain ⟨s, hs, hlen, hnul⟩ := dropWord?_nul_free (fun l hl => sameLetter_nul hl) hrest
  have hlen : s.length = 3 := hlen
  obtain rfl : dim = s := by
    rw [htake, hs, ← hlen, List.take_left]
  match dim, hlen with
  | [a, b, c], _ =>
    refine ⟨hnul, by simp, clean_dim (t := c :: after) ?_ ?_⟩
    · simp only [List.cons_append] at hrest
      cases ha : sameLetter 'd' a with
      | true => rfl
      | false =>
        have : "dim".toList = ['d', 'i', 'm'] := rfl
        rw [this, dropWord?, ha] at hrest
        cases hrest
    · rintro rfl
      simp at hnul

/-! ## The names -/

theorem cutNames_ne_nil (depth : Nat) (t : Text) : cutNames depth t ≠ [] := by
  cases t with
  | nil => simp [cutNames]
  | cons c t =>
    rw [cutNames]
    split
    · simp
    · simp only
      split <;> simp

theorem intercalate_cutNames (depth : Nat) (t : Text) :
    [','].intercalate (cutNames depth t) = t := by
  induction t generalizing depth with
  | nil => rfl
  | cons c t ih =>
    rw [cutNames]
    split
    · rename_i hc
      rw [Bool.and_eq_true, beq_iff_eq] at hc
      obtain ⟨part, parts, hp⟩ := List.exists_cons_of_ne_nil (cutNames_ne_nil 0 t)
      have := ih 0
      rw [hp] at this ⊢
      rw [List.intercalate_cons_cons, this, hc.1]
      rfl
    · have := ih (if c == '(' then depth + 1 else if c == ')' then depth - 1 else depth)
      simp only
      split
      · rename_i hp
        rw [hp] at this
        rw [← this]
        simp
      · rename_i part parts hp
        rw [hp] at this
        rw [← this]
        cases parts with
        | nil => simp
        | cons q parts => simp [List.intercalate_cons_cons]

/-- Names with a text behind the last of them: all but that one are code, and a line ends with the
last one and the text. -/
structure Named (names : List Text) (rest : Text) (ms : List Mark) : Prop where
  tame : ∀ n ∈ names.dropLast, Tame n
  last : Orderly ((names.getLast?).getD [] ++ rest)
  marks_eq : names.dropLast.flatMap marks ++ marks ((names.getLast?).getD [] ++ rest) = ms

/-- Parts between commas. -/
theorem named_parts {parts : List Text} (hne : parts ≠ []) {rest : Text}
    (h : Orderly ([','].intercalate parts ++ rest)) :
    Named parts rest (marks ([','].intercalate parts ++ rest)) := by
  induction parts with
  | nil => exact absurd rfl hne
  | cons p parts ih =>
    cases parts with
    | nil =>
      rw [List.intercalate_singleton] at h ⊢
      exact ⟨by simp, by simpa using h, by simp⟩
    | cons q parts =>
      have hjoin : [','].intercalate (p :: q :: parts) ++ rest =
          p ++ ',' :: ([','].intercalate (q :: parts) ++ rest) := by
        rw [List.intercalate_cons_cons]
        simp
      rw [hjoin] at h ⊢
      have hclean : Sound.Clean 0 (',' :: ([','].intercalate (q :: parts) ++ rest)) :=
        Sound.clean_cons (by decide) (by decide)
      obtain ⟨hp, hq⟩ := Sound.split hclean h.sound
      have hcomma : Sound 0 [','] := .of_nul_free (by decide)
      have hmore := ih (by simp) (Orderly.right hcomma (h.right hp))
      refine ⟨?_, by simpa using hmore.last, ?_⟩
      · intro n hn
        rw [List.dropLast_cons_cons] at hn
        rcases List.mem_cons.mp hn with rfl | hn
        · exact h.left hp (by simp)
        · exact hmore.tame n hn
      · rw [marks_append hp, marks_char (by decide), ← hmore.marks_eq, List.dropLast_cons_cons]
        simp

theorem trim_split (t : Text) : ∃ s₁ s₂, t = s₁ ++ (trim t ++ s₂) ∧ (∀ c ∈ s₁, isSpace c = true) ∧
    ∀ c ∈ s₂, isSpace c = true := by
  obtain ⟨s₂, hs₂, hsp₂⟩ := dropEnd_append isSpace (t.dropWhile isSpace)
  refine ⟨t.takeWhile isSpace, s₂, ?_, ?_, hsp₂⟩
  · rw [trim, trimBy, ← hs₂, List.takeWhile_append_dropWhile]
  · exact fun c hc => List.all_eq_true.mp List.all_takeWhile c hc

theorem nul_not_mem_spaces {s : Text} (h : ∀ c ∈ s, isSpace c = true) : '\x00' ∉ s := by
  intro hm
  have := h _ hm
  revert this
  decide

theorem head_spaces {s : Text} (h : ∀ c ∈ s, isSpace c = true) : (s.head?).all isBreak = true :=
  head_breaks fun c hc => isBreak_of_isSpace (h c hc)

/-- White space at the ends of the last name goes, whatever stands behind it. -/
theorem orderly_trim_append {p rest : Text} (h : Orderly (p ++ rest))
    (hr : Starts rest) :
    Orderly (trim p ++ rest) ∧ marks (trim p ++ rest) = marks (p ++ rest) := by
  obtain ⟨s₁, s₂, hp, hs₁, hs₂⟩ := trim_split p
  have hn₁ := nul_not_mem_spaces hs₁
  have hn₂ := nul_not_mem_spaces hs₂
  have hassoc : p ++ rest = s₁ ++ (trim p ++ (s₂ ++ rest)) := by
    conv_lhs => rw [hp]
    simp
  rw [hassoc] at h ⊢
  have hmid := h.right (.of_nul_free hn₁)
  rw [marks_append (n := 0) (.of_nul_free hn₁), marks_nul_free hn₁, List.nil_append]
  cases s₂ with
  | nil => exact ⟨hmid, rfl⟩
  | cons c s₂ =>
    have hclean : Sound.Clean 0 (c :: s₂ ++ rest) :=
      clean_of_head (isBreak_of_isSpace (hs₂ c List.mem_cons_self))
    have hsound := (Sound.split hclean hmid.sound).1
    have hrest : Orderly rest := Orderly.right (.of_nul_free hn₂) (hmid.right hsound)
    refine ⟨.append (hmid.left hsound (by simp)) hrest hr, ?_⟩
    rw [marks_append hsound, marks_append hsound, marks_append (n := 0) (.of_nul_free hn₂),
      marks_nul_free hn₂, List.nil_append]

theorem Tame.trim {t : Text} (h : Tame t) : Tame (trim t) ∧ marks (VbTidy.trim t) = marks t := by
  have h₀ : Orderly (t ++ []) := by simpa using h.orderly
  have ho := orderly_trim_append h₀ (starts_of_head rfl)
  rw [List.append_nil, List.append_nil] at ho
  refine ⟨⟨ho.1.sound, ho.1.calm, ?_⟩, ho.2⟩
  rw [ho.2]
  exact h.plain

theorem marks_filter (names : List Text) :
    (names.filter (!·.isEmpty)).flatMap marks = names.flatMap marks := by
  induction names with
  | nil => rfl
  | cons n names ih =>
    rw [List.filter_cons]
    split
    · rw [List.flatMap_cons, List.flatMap_cons, ih]
    · rename_i hn
      obtain rfl : n = [] := by simpa using hn
      rw [ih]
      rfl

/-- The declared names: parts without the white space at their ends, and none that is empty. -/
theorem Named.declared {parts : List Text} {rest : Text} {ms : List Mark} (hne : parts ≠ [])
    (h : Named parts rest ms) (hr : Starts rest)
    (hd : (parts.map trim).filter (!·.isEmpty) ≠ []) :
    Named ((parts.map trim).filter (!·.isEmpty)) rest ms := by
  obtain ⟨init, p, rfl⟩ := (List.eq_nil_or_concat parts).resolve_left hne
  rw [List.concat_eq_append] at h hd ⊢
  obtain ⟨htame, hlast, hmarks⟩ := h
  simp only [List.dropLast_concat, List.getLast?_append, List.getLast?_singleton, Option.some_or,
    Option.getD_some] at htame hlast hmarks
  obtain ⟨htrim, hmtrim⟩ := orderly_trim_append hlast hr
  rw [← hmtrim] at hmarks
  have hinit : ∀ n ∈ (init.map trim).filter (!·.isEmpty), Tame n := by
    intro n hn
    obtain ⟨q, hq, rfl⟩ := List.mem_map.mp (List.mem_of_mem_filter hn)
    exact (htame q hq).trim.1
  have hminit : ((init.map trim).filter (!·.isEmpty)).flatMap marks = init.flatMap marks := by
    rw [marks_filter, List.flatMap_map]
    exact List.flatMap_congr fun q hq => (htame q hq).trim.2
  rw [← hminit] at hmarks
  rw [List.map_append, List.filter_append] at hd ⊢
  generalize (init.map trim).filter (!·.isEmpty) = names at *
  by_cases hp : trim p = []
  · -- the last part is blank: what stands behind it goes to the name before
    have hnone : ([p].map trim).filter (!·.isEmpty) = [] := by simp [hp]
    rw [hnone, List.append_nil] at hd ⊢
    rw [hp, List.nil_append] at htrim hmarks
    obtain ⟨ns, n, rfl⟩ := (List.eq_nil_or_concat names).resolve_left hd
    rw [List.concat_eq_append] at *
    have hn : Tame n := hinit n (by simp)
    refine ⟨?_, ?_, ?_⟩
    · intro q hq
      rw [List.dropLast_concat] at hq
      exact hinit q (by simp [hq])
    · simpa using Orderly.append hn htrim hr
    · simp only [List.dropLast_concat, List.getLast?_append, List.getLast?_singleton,
        Option.some_or, Option.getD_some, marks_append hn.sound]
      simpa using hmarks
  · have hone : ([p].map trim).filter (!·.isEmpty) = [trim p] := by simp [hp]
    rw [hone]
    refine ⟨?_, ?_, ?_⟩
    · rwa [List.dropLast_concat]
    · simpa using htrim
    · simpa using hmarks

/-! ## The lines -/

theorem splitStatement_append (t : Text) : (splitStatement t).1 ++ (splitStatement t).2 = t := by
  induction t with
  | nil => rfl
  | cons c t ih =>
    rw [splitStatement]
    split
    · rfl
    · simp [ih]

/-- A statement ends where neither a word nor an error phrase starts. -/
theorem starts_splitStatement (t : Text) : Starts (splitStatement t).2 := by
  induction t with
  | nil => exact starts_of_head rfl
  | cons c t ih =>
    rw [splitStatement]
    split
    · rename_i hend
      simp only [endsStatement, Bool.or_eq_true, List.head?_cons, beq_iff_eq, Option.some.injEq,
        List.isPrefixOf_iff_prefix] at hend
      have htoken : ∀ k : Kind, k ≠ .resume → k.token <+: c :: t → Starts (c :: t) := by
        intro k hk hp
        refine ⟨?_, fun ⟨u, hu⟩ => ?_⟩
        · rw [Kind.token_eq_cons, List.cons_prefix_cons] at hp
          rw [← hp.1]
          rfl
        · obtain ⟨v, hv⟩ := hp
          have htok : (Mark.kind .resume).token ++ u = (Mark.kind k).token ++ v := hu.trans hv.symm
          cases (token_append_inj htok).1
          exact hk rfl
      rcases hend with (rfl | hk) | hk
      · refine ⟨rfl, fun ⟨u, hu⟩ => ?_⟩
        exact absurd hu.symm (cons_ne_token (by decide))
      · exact htoken _ (by decide) hk
      · exact htoken _ (by decide) hk
    · exact ih

theorem appendToLast_concat (rest : Text) (ls : List Text) (l : Text) :
    appendToLast rest (ls ++ [l]) = ls ++ [l ++ rest] := by
  induction ls with
  | nil => rfl
  | cons k ls ih =>
    cases ls with
    | nil => rfl
    | cons j ls =>
      rw [List.cons_append, List.cons_append, appendToLast, ← List.cons_append, ih]
      · rfl
      · simp

/-- A line goes on behind code and a space. -/
theorem Tame.behind {a b : Text} (ha : Tame a) (hb : Orderly b) :
    Orderly (a ++ ' ' :: b) ∧ marks (a ++ ' ' :: b) = marks a ++ marks b := by
  refine ⟨.append ha (hb.nul_free_append (a := [' ']) (by decide) rfl) (starts_of_head rfl), ?_⟩
  rw [marks_append ha.sound, marks_char (by decide)]

/-- Splitting a declaration leaves lines in order, and all tokens in theirs. -/
theorem orderly_splitDeclaration {line : Text} (h : Orderly line) :
    (∀ l ∈ splitDeclaration line, Orderly l) ∧
      (splitDeclaration line).flatMap marks = marks line := by
  have hsame : (∀ l ∈ [line], Orderly l) ∧ [line].flatMap marks = marks line := by
    simpa using h
  rw [splitDeclaration]
  split
  · exact hsame
  rename_i before dim after hfirst
  obtain ⟨hline, hdim, hdimne, hclean⟩ := first_dim hfirst
  have hstmt := splitStatement_append after
  have hword := starts_splitStatement after
  generalize splitStatement after = cut at *
  obtain ⟨list, rest⟩ := cut
  simp only at *
  subst hstmt
  rw [hline] at h
  have hbefore := (Sound.split hclean h.sound).1
  have hcode : Tame before := h.left hbefore (by simp [hdimne])
  have hafter : Orderly (list ++ rest) := Orderly.right (.of_nul_free hdim) (h.right hbefore)
  have hparts := cutNames_ne_nil 0 list
  have hjoin := intercalate_cutNames 0 list
  split
  case h_2 => exact hsame
  rename_i first second names hnames
  have hnamed : Named (cutNames 0 list) rest (marks (list ++ rest)) := by
    have hall : Orderly ([','].intercalate (cutNames 0 list) ++ rest) := by rwa [hjoin]
    have hall := named_parts hparts hall
    rwa [hjoin] at hall
  rw [declaredNames] at hnames
  obtain ⟨htame, hlast, hmarks⟩ := hnamed.declared hparts hword (by rw [hnames]; simp)
  rw [hnames] at htame hlast hmarks
  obtain ⟨mid, n, hmid⟩ := (List.eq_nil_or_concat (second :: names)).resolve_left (by simp)
  rw [List.concat_eq_append] at hmid
  rw [hmid] at htame hlast hmarks ⊢
  have hdrop : (first :: (mid ++ [n])).dropLast = first :: mid := by
    rw [← List.cons_append, List.dropLast_concat]
  have hget : (first :: (mid ++ [n])).getLast? = some n := by
    rw [← List.cons_append, List.getLast?_append]
    rfl
  rw [hdrop] at htame hmarks
  rw [hget, Option.getD_some] at hlast hmarks
  have hdimTame : Tame dim := .of_nul_free hdim
  have hfirst : Tame (before ++ dim) := by
    rw [← List.append_assoc] at h
    refine ⟨hbefore.append hdimTame.sound, h.calm.left, ?_⟩
    rw [marks_append hbefore, marks_nul_free hdim, List.append_nil]
    exact hcode.plain
  have hlines : appendToLast rest ((before ++ dim ++ ' ' :: first) ::
      (mid ++ [n]).map fun n => dim ++ ' ' :: n) =
        (before ++ dim ++ ' ' :: first) :: (mid.map fun n => dim ++ ' ' :: n) ++
          [dim ++ ' ' :: (n ++ rest)] := by
    rw [List.map_append, ← List.cons_append]
    simp only [List.map_cons, List.map_nil]
    rw [appendToLast_concat]
    simp
  rw [hlines]
  refine ⟨?_, ?_⟩
  · intro l hl
    simp only [List.mem_append, List.mem_cons, List.mem_map, List.not_mem_nil, or_false] at hl
    rcases hl with (rfl | ⟨m, hm, rfl⟩) | rfl
    · exact (hfirst.behind (htame first List.mem_cons_self).orderly).1
    · exact (hdimTame.behind (htame m (List.mem_cons_of_mem _ hm)).orderly).1
    · exact (hdimTame.behind hlast).1
  · have hmid : (mid.map fun n => dim ++ ' ' :: n).flatMap marks = mid.flatMap marks := by
      rw [List.flatMap_map]
      refine List.flatMap_congr fun m hm => ?_
      rw [(hdimTame.behind (htame m (List.mem_cons_of_mem _ hm)).orderly).2, marks_nul_free hdim,
        List.nil_append]
    rw [List.flatMap_append, List.flatMap_cons, List.flatMap_singleton, hmid,
      (hfirst.behind (htame first List.mem_cons_self).orderly).2, (hdimTame.behind hlast).2,
      hline, marks_append hbefore, marks_append hbefore, marks_append hdimTame.sound,
      marks_nul_free hdim, ← hmarks]
    simp

/-- So do all lines of a document. -/
theorem orderly_statements (style : Style) {lines : List Text} (h : ∀ l ∈ lines, Orderly l) :
    (∀ l ∈ statements style lines, Orderly l) ∧
      (statements style lines).flatMap marks = lines.flatMap marks := by
  rw [statements]
  split
  · refine ⟨?_, ?_⟩
    · intro l hl
      obtain ⟨line, hline, hl⟩ := List.mem_flatMap.mp hl
      exact (orderly_splitDeclaration (h line hline)).1 l hl
    · rw [splitDeclarations, List.flatMap_assoc]
      exact List.flatMap_congr fun line hline => (orderly_splitDeclaration (h line hline)).2
  · exact ⟨h, rfl⟩

end VbTidy
