import VbTidy.Proofs.Statements

/-
What spacing, indenting and aligning leave of a line. Spacing keeps lines orderly and sets the
comment apart from the code in front of it (`settled_spaceLine`); indenting and aligning keep that.
A comment that is moved is found by its token, and the token that is found is the one that was left
for the comment, unless a name stands astray in front of it (`occurs_find`).
-/
namespace VbTidy

/-- A line on which white space or nothing stands in front of the comment. -/
structure Settled (t : Text) : Prop extends Orderly t where
  apart : ∀ x y, Occurs (.kind .remark) x y t → (x.getLast?).all isSpace = true

theorem Tame.settled {t : Text} (h : Tame t) : Settled t where
  toOrderly := h.orderly
  apart _ _ hxy := absurd hxy.mem_marks h.plain

/-! ## Spacing -/

/-- What looks like a token of a kind in a text of whole tokens is one, or it is the name between
two tokens, with the end of the one and the start of the other. -/
theorem real_or_between {n : Nat} {k : Kind} {t x y : Text} (h : Sound n t)
    (ht : t = x ++ (k.token ++ y)) :
    Sound n x ∨ ∃ x₀ m m' y₀, x = x₀ ++ '\x00' :: Mark.name m ∧ Sound n x₀ ∧ Sound n y₀ ∧
      t = x₀ ++ (m.token ++ (k.name ++ (Mark.token m' ++ y₀))) := by
  induction h generalizing x with
  | nil => simp [Kind.token, tokenOf] at ht
  | @char c t hc _ ih =>
    cases x with
    | nil => exact absurd ht (cons_ne_token (m := .kind k) hc)
    | cons d x =>
      obtain ⟨rfl, htail⟩ := List.cons.inj ht
      rcases ih htail with hx | ⟨x₀, m, m', y₀, rfl, hx₀, hy₀, rfl⟩
      · exact .inl (.char hc hx)
      · exact .inr ⟨c :: x₀, m, m', y₀, rfl, .char hc hx₀, hy₀, rfl⟩
  | @token m₁ t hm hsound ih =>
    rcases List.append_eq_append_iff.mp ht.symm with ⟨a, ha, hka⟩ | ⟨z, rfl, hz⟩
    · cases x with
      | nil => exact .inl .nil
      | cons d x =>
        cases a with
        | nil =>
          rw [List.append_nil] at ha
          rw [← ha]
          exact .inl (.mark hm)
        | cons e a =>
          -- the match starts at the NUL that ends the token
          rw [Kind.token_eq_cons, List.cons_append, List.cons_append] at hka
          simp only [Mark.token, tokenOf, List.cons_append] at ha
          obtain ⟨rfl, hname⟩ := List.cons.inj ha
          obtain ⟨rfl, hrest⟩ := List.cons.inj hka
          have hend : m₁.name = x ∧ a = [] := by
            rcases List.append_eq_append_iff.mp hname with ⟨v, hv, hva⟩ | ⟨v, hv, hva⟩
            · cases v <;> simp_all
            · cases v with
              | nil => simp_all
              | cons f v =>
                obtain ⟨rfl, _⟩ := List.cons.inj hva
                exact absurd (by rw [hv]; simp) (nul_not_mem_name m₁)
          obtain ⟨rfl, rfl⟩ := hend
          rw [List.nil_append] at hrest
          obtain ⟨m', y₀, rfl, _, hy₀⟩ := hsound.nameNext (k := k) ⟨y, hrest⟩
          exact .inr ⟨[], m₁, m', y₀, rfl, .nil, hy₀, by simp⟩
    · rcases ih hz with hz | ⟨x₀, m, m', y₀, rfl, hx₀, hy₀, rfl⟩
      · exact .inl (.token hm hz)
      · exact .inr ⟨m₁.token ++ x₀, m, m', y₀, by simp, .token hm hx₀, hy₀, by simp⟩

/-- At the end of a text there is no room for the name between two tokens. -/
theorem sound_of_ends {n : Nat} {k : Kind} {x : Text} (h : Sound n (x ++ k.token)) : Sound n x := by
  rw [← List.append_nil k.token] at h
  rcases real_or_between h rfl with hx | ⟨x₀, m, m', y₀, rfl, _, _, heq⟩
  · exact hx
  · have hlen := congrArg List.length heq
    simp [Mark.token, Kind.token, tokenOf] at hlen

/-- Spaced code has the beads of the code. -/
theorem tame_spaced {code : Text} (h : Tame code) :
    Tame (spaceContinuation (spaceOperators (trim code))) :=
  .of_beads (by simp) (by simp) h

theorem Orderly.trim {t : Text} (h : Orderly t) : Orderly (trim t) := by
  have h₀ : Orderly (t ++ []) := by simpa using h
  simpa using (orderly_trim_append h₀ (starts_of_head rfl)).1

/-- A comment behind code and a space. -/
theorem settled_behind {code : Text} (h : Tame code) :
    Settled (code ++ ' ' :: (Mark.kind .remark).token) := by
  have hmark : Orderly (Mark.kind .remark).token := by
    refine ⟨.mark (Nat.zero_le _), fun x y hxy => ?_, fun x y hxy => ?_⟩
    · cases hxy.of_mark.1
    · exact hxy.of_mark.2.2
  refine ⟨(h.behind hmark).1, fun x y hxy => ?_⟩
  rcases hxy.of_append h.sound with ⟨y', h', _⟩ | ⟨x', h', rfl⟩
  · exact absurd h'.mem_marks h.plain
  · obtain ⟨x'', h'', rfl⟩ := Occurs.of_nul_free_append (a := [' ']) (by decide) h'
    obtain ⟨_, rfl, _⟩ := Occurs.of_mark h''
    simp
    decide

/-- Spacing keeps a line orderly and sets its comment apart. -/
theorem settled_spaceLine {line : Text} (h : Orderly line) : Settled (spaceLine line) := by
  have hbare := h.trim
  have htok : (Mark.kind .remark).token = Kind.remark.token := rfl
  simp only [spaceLine]
  generalize trim line = bare at hbare
  split
  · rename_i hmark
    rw [Bool.or_eq_true, beq_iff_eq, List.isEmpty_iff] at hmark
    rcases hmark with rfl | rfl
    · refine ⟨hbare, fun x y hxy => ?_⟩
      rw [← htok] at hxy
      rw [hxy.of_mark.2.1]
      rfl
    · exact (Tame.of_nul_free (by simp)).settled
  · cases hend : endsWith Kind.remark.token bare with
    | true =>
      obtain ⟨code, rfl⟩ := List.isSuffixOf_iff_suffix.mp hend
      have hcode : Tame code := by
        have hsound : Sound 0 code := sound_of_ends hbare.sound
        exact hbare.left hsound (by simp [Kind.token, tokenOf])
      have htake : (code ++ Kind.remark.token).take
          ((code ++ Kind.remark.token).length - Kind.remark.token.length) = code := by
        simp
      simp only [if_true, htake]
      exact settled_behind (tame_spaced hcode)
    | false =>
      have hcode : Tame bare := by
        rcases hbare.cases with hcode | ⟨code, _, rfl⟩
        · exact hcode
        · have : endsWith Kind.remark.token (code ++ (Mark.kind .remark).token) = true :=
            List.isSuffixOf_iff_suffix.mpr (List.suffix_append _ _)
          rw [this] at hend
          cases hend
      simp only [Bool.false_eq_true, if_false]
      exact (tame_spaced hcode).settled

/-! ## Indenting -/

/-- White space at the ends of a line goes, and white space comes in front. -/
theorem Settled.indent {t s : Text} (hs : ∀ c ∈ s, isSpace c = true) (h : Settled t) :
    Settled (s ++ trim t) := by
  have hnul := nul_not_mem_spaces hs
  have hlast : ∀ x : Text, ((x.getLast?).all isSpace = true) →
      ((s ++ x).getLast?).all isSpace = true := by
    intro x hx
    rw [List.getLast?_append]
    cases hc : x.getLast? with
    | some c => simpa [hc] using hx
    | none =>
      cases hd : s.getLast? with
      | none => rfl
      | some d => simpa using hs d (List.mem_of_getLast? hd)
  refine ⟨h.toOrderly.trim.nul_free_append hnul ?_, fun x y hxy => ?_⟩
  · cases hd : s.getLast? with
    | none => rfl
    | some d => exact isWord_of_isBreak (isBreak_of_isSpace (hs d (List.mem_of_getLast? hd)))
  · obtain ⟨x', h', rfl⟩ := hxy.of_nul_free_append hnul
    obtain ⟨s₁, s₂, ht, hs₁, _⟩ := trim_split t
    have hocc : Occurs (.kind .remark) (s₁ ++ x') (y ++ s₂) t := by
      have := (h'.append_right s₂).append_left (.of_nul_free (nul_not_mem_spaces hs₁))
      rwa [← ht] at this
    apply hlast
    have := h.apart _ _ hocc
    rw [List.getLast?_append] at this
    cases hc : x'.getLast? with
    | none => rfl
    | some c => simpa [hc] using this

theorem filter_addLine (above : List Text) (line : Text) :
    (addLine above line).filter (!·.isEmpty) = (line :: above).filter (!·.isEmpty) := by
  fun_cases addLine above line <;> simp [*, List.filter_cons]

theorem filter_foldl_addLine (lines above : List Text) :
    (lines.foldl addLine above).filter (!·.isEmpty) =
      (lines.reverse ++ above).filter (!·.isEmpty) := by
  induction lines generalizing above with
  | nil => rfl
  | cons line lines ih =>
    rw [List.foldl_cons, ih, List.filter_append, filter_addLine, ← List.filter_append]
    simp

theorem filter_dropWhile_blank (lines : List Text) :
    (lines.dropWhile (·.isEmpty)).filter (!·.isEmpty) = lines.filter (!·.isEmpty) := by
  induction lines with
  | nil => rfl
  | cons l ls ih =>
    rw [List.dropWhile_cons]
    split
    · rw [ih]
      simp_all
    · rfl

/-- Tidying takes and leaves blank lines only. -/
theorem filter_tidyBlankLines (lines : List Text) :
    (tidyBlankLines lines).filter (!·.isEmpty) = lines.filter (!·.isEmpty) := by
  rw [tidyBlankLines, List.filter_reverse, filter_dropWhile_blank, filter_foldl_addLine,
    List.append_nil, List.filter_reverse, List.reverse_reverse]

theorem text_nest (lines : List Text) : (nest lines).map Row.text = lines.map trim := by
  have key : ∀ depth, (nestFrom depth lines).1.map Row.text = lines.map trim := by
    induction lines with
    | nil => intro depth; rfl
    | cons line lines ih =>
      intro depth
      rw [nestFrom, List.map_cons, List.map_cons, ih, text_rowAt]
  exact key 0

/-- The blanks in front of a row. -/
theorem indented_eq {unit : Text} (hu : ∀ c ∈ unit, isSpace c = true) (r : Row) :
    ∃ s : Text, (∀ c ∈ s, isSpace c = true) ∧ indented unit r = s ++ r.text := by
  rw [indented]
  split
  · exact ⟨[], by simp, rfl⟩
  · refine ⟨_, fun c hc => ?_, rfl⟩
    obtain ⟨u, hrep, hcu⟩ := List.mem_flatten.mp hc
    obtain ⟨_, rfl⟩ := List.mem_replicate.mp hrep
    exact hu c hcu

/-- The lines that are not blank are the rows that are not, indented. -/
theorem mem_layOut {unit : Text} {rows : List Row} {l : Text} (hne : l ≠ []) :
    l ∈ layOut unit rows ↔ ∃ r ∈ rows, r.text ≠ [] ∧ l = indented unit r := by
  have hfilter : l ∈ layOut unit rows ↔ l ∈ rows.flatMap (spread unit) := by
    have := congrArg (l ∈ ·) (filter_tidyBlankLines (rows.flatMap (spread unit)))
    simpa [hne, layOut] using this
  rw [hfilter, List.mem_flatMap]
  constructor
  · rintro ⟨r, hr, hl⟩
    rw [spread] at hl
    split at hl
    · simp [hne] at hl
    · rename_i ht
      refine ⟨r, hr, by simpa using ht, ?_⟩
      rcases List.mem_append.mp hl with hl | hl
      · rcases List.mem_append.mp hl with hl | hl
        · split at hl <;> simp [hne] at hl
        · simpa using hl
      · split at hl <;> simp [hne] at hl
  · rintro ⟨r, hr, ht, hl⟩
    refine ⟨r, hr, ?_⟩
    rw [spread, if_neg (by simpa using ht), hl]
    simp

/-- Every line that is not blank comes from one of the lines indented. -/
theorem of_mem_layOut {unit : Text} (hu : ∀ c ∈ unit, isBlank c = true) {lines : List Text}
    {l : Text} (hl : l ∈ layOut unit (nest lines)) :
    l = [] ∨ ∃ r ∈ lines, ∃ s : Text, (∀ c ∈ s, isSpace c = true) ∧ l = s ++ trim r := by
  by_cases hne : l = []
  · exact .inl hne
  · obtain ⟨r, hr, _, rfl⟩ := (mem_layOut hne).mp hl
    obtain ⟨s, hs, heq⟩ := indented_eq (fun c hc => isSpace_of_isBlank (hu c hc)) r
    have hmem : r.text ∈ lines.map trim := by
      rw [← text_nest]
      exact List.mem_map_of_mem hr
    obtain ⟨line, hline, htext⟩ := List.mem_map.mp hmem
    exact .inr ⟨line, hline, s, hs, by rw [heq, htext]⟩

/-- No line that is not blank is lost. -/
theorem exists_mem_layOut {unit : Text} (hu : ∀ c ∈ unit, isBlank c = true) {lines : List Text}
    {r : Text} (hr : r ∈ lines) (hne : trim r ≠ []) :
    ∃ s : Text, (∀ c ∈ s, isSpace c = true) ∧ s ++ trim r ∈ layOut unit (nest lines) := by
  have hmem : trim r ∈ (nest lines).map Row.text := by
    rw [text_nest]
    exact List.mem_map_of_mem hr
  obtain ⟨row, hrow, htext⟩ := List.mem_map.mp hmem
  obtain ⟨s, hs, heq⟩ := indented_eq (fun c hc => isSpace_of_isBlank (hu c hc)) row
  refine ⟨s, hs, ?_⟩
  rw [htext] at heq
  rw [← heq]
  refine (mem_layOut ?_).mpr ⟨row, hrow, by rwa [htext], rfl⟩
  rw [heq]
  simp [hne]

theorem settled_layOut {unit : Text} (hu : ∀ c ∈ unit, isBlank c = true) {lines : List Text}
    (h : ∀ l ∈ lines, Settled l) : ∀ l ∈ layOut unit (nest lines), Settled l := by
  intro l hl
  rcases of_mem_layOut hu hl with rfl | ⟨r, hr, s, hs, rfl⟩
  · exact (Tame.of_nul_free (by simp)).settled
  · exact (h r hr).indent hs

end VbTidy
