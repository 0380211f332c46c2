import VbTidy.Proofs.Bookkeeping

/-
Lines stay lines. No pass puts a character that ends a line into a line, so the text of a formatted
document is cut into lines just where lines were joined. The text is filled line by line, too: the
literals a line receives depend on the lines before it only through their number.
-/
namespace VbTidy

/-- A text without a line end. -/
def Unbroken (t : Text) : Prop :=
  ∀ c ∈ t, isLineEnd c = false

theorem Unbroken.nil : Unbroken [] := by
  intro c hc
  cases hc

theorem Unbroken.append {s t : Text} (hs : Unbroken s) (ht : Unbroken t) : Unbroken (s ++ t) := by
  intro c hc
  rcases List.mem_append.mp hc with h | h
  · exact hs c h
  · exact ht c h

theorem Unbroken.left {s t : Text} (h : Unbroken (s ++ t)) : Unbroken s :=
  fun c hc => h c (List.mem_append_left _ hc)

theorem Unbroken.right {s t : Text} (h : Unbroken (s ++ t)) : Unbroken t :=
  fun c hc => h c (List.mem_append_right _ hc)

theorem Unbroken.of_subset {s t : Text} (h : ∀ c ∈ s, c ∈ t ∨ isBlank c = true)
    (ht : Unbroken t) : Unbroken s := by
  intro c hc
  rcases h c hc with hmem | hblank
  · exact ht c hmem
  · simp only [isBlank, Bool.or_eq_true, beq_iff_eq] at hblank
    rcases hblank with rfl | rfl <;> rfl

theorem Unbroken.blanks {s : Text} (h : ∀ c ∈ s, isBlank c = true) : Unbroken s :=
  .of_subset (fun c hc => .inr (h c hc)) .nil

theorem unbroken_token (m : Mark) : Unbroken m.token :=
  fun _ hc => isLineEnd_token hc

/-- A line of a text has characters of the text that end no line. -/
theorem mem_splitLines {t line : Text} (hl : line ∈ splitLines t) :
    ∀ c ∈ line, c ∈ t ∧ isLineEnd c = false := by
  induction t using splitLines.induct generalizing line with
  | case1 => cases hl
  | case2 t ih =>
    rw [splitLines] at hl
    rcases List.mem_cons.mp hl with rfl | hl
    · simp
    · intro c hc
      exact ⟨by simp [(ih hl c hc).1], (ih hl c hc).2⟩
  | case3 c t hcr hc ih =>
    rw [splitLines, if_pos hc] at hl
    · rcases List.mem_cons.mp hl with rfl | hl
      · simp
      · intro d hd
        exact ⟨by simp [(ih hl d hd).1], (ih hl d hd).2⟩
    · exact hcr
  | case4 c t hcr hc ht ih =>
    have hchar : isLineEnd c = false := by simpa using hc
    rw [splitLines_char hchar, ht] at hl
    obtain rfl : line = [c] := by simpa using hl
    intro d hd
    obtain rfl : d = c := by simpa using hd
    exact ⟨by simp, hchar⟩
  | case5 c t hcr hc first rest ht ih =>
    have hchar : isLineEnd c = false := by simpa using hc
    rw [splitLines_char hchar, ht] at hl
    rcases List.mem_cons.mp hl with rfl | hl
    · intro d hd
      rcases List.mem_cons.mp hd with rfl | hd
      · exact ⟨by simp, hchar⟩
      · have h := ih (ht ▸ List.mem_cons_self : first ∈ splitLines t) d hd
        exact ⟨by simp [h.1], h.2⟩
    · intro d hd
      have h := ih (ht ▸ List.mem_cons_of_mem _ hl) d hd
      exact ⟨by simp [h.1], h.2⟩

theorem unbroken_splitLines (t : Text) : ∀ line ∈ splitLines t, Unbroken line :=
  fun _ hl c hc => (mem_splitLines hl c hc).2

theorem mem_source {w : Weave} {c : Char} :
    c ∈ w.source ↔ (∃ g ∈ w.gaps, c ∈ g) ∨ ∃ h ∈ w.hits, c ∈ h := by
  simp only [Weave.source, Weave.gaps, Weave.hits, List.mem_append, List.mem_flatMap, List.mem_cons,
    List.mem_map]
  constructor
  · rintro (h | ⟨p, hp, h | h⟩)
    · exact .inl ⟨_, .inl rfl, h⟩
    · exact .inr ⟨_, ⟨p, hp, rfl⟩, h⟩
    · exact .inl ⟨_, .inr ⟨p, hp, rfl⟩, h⟩
  · rintro (⟨g, rfl | ⟨p, hp, rfl⟩, h⟩ | ⟨_, ⟨p, hp, rfl⟩, h⟩)
    · exact .inl h
    · exact .inr ⟨p, hp, .inr h⟩
    · exact .inr ⟨p, hp, .inl h⟩

theorem mem_fillWith {w : Weave} {ls : List Text} {c : Char} (h : c ∈ w.fillWith ls) :
    (∃ g ∈ w.gaps, c ∈ g) ∨ ∃ l ∈ ls, c ∈ l := by
  rcases List.mem_append.mp h with h | h
  · exact .inl ⟨_, w.head_mem_gaps, h⟩
  · obtain ⟨p, hp, h⟩ := List.mem_flatMap.mp h
    have hp' := List.of_mem_zip hp
    rcases List.mem_append.mp h with h | h
    · exact .inr ⟨p.1, hp'.1, h⟩
    · exact .inl ⟨p.2, List.mem_cons_of_mem _ hp'.2, h⟩

theorem unbroken_mask {k : Kind} {w : Weave} (h : Unbroken w.source) :
    Unbroken (Lifting.mask k w) := by
  intro c hc
  rw [Lifting.mask_eq] at hc
  rcases mem_fillWith hc with hg | ⟨l, hl, hc⟩
  · exact h c (mem_source.mpr (.inl hg))
  · obtain rfl := List.eq_of_mem_replicate hl
    exact unbroken_token (.kind k) c hc

theorem unbroken_maskLines {k : Kind} {cut : Text → Weave} (hcut : ∀ l, (cut l).source = l)
    {lines : List Text} (h : ∀ l ∈ lines, Unbroken l) :
    ∀ l ∈ maskLines k (lines.map cut), Unbroken l := by
  intro l hl
  simp only [maskLines, List.map_map, List.mem_map, Function.comp_apply] at hl
  obtain ⟨line, hline, rfl⟩ := hl
  exact unbroken_mask (by rw [hcut]; exact h line hline)

theorem unbroken_liftedLines (raw : Text) : ∀ l ∈ (Lifting.result raw).lines, Unbroken l := by
  rw [Lifting.lines_result]
  exact unbroken_maskLines source_cutResume (unbroken_maskLines source_cutRemark
    (unbroken_maskLines source_cutStrings (unbroken_splitLines _)))

theorem mem_trim {t : Text} {c : Char} (h : c ∈ trim t) : c ∈ t := by
  obtain ⟨s₁, s₂, heq, _, _⟩ := trim_split t
  rw [heq]
  simp [h]

theorem mem_appendToLast {rest l : Text} {ls : List Text} (h : l ∈ appendToLast rest ls) :
    l ∈ ls ∨ ∃ l' ∈ ls, l = l' ++ rest := by
  induction ls with
  | nil => cases h
  | cons l' ls ih =>
    cases ls with
    | nil => exact .inr ⟨l', List.mem_cons_self, List.mem_singleton.mp h⟩
    | cons l'' ls =>
      rw [appendToLast] at h
      · rcases List.mem_cons.mp h with rfl | h
        · exact .inl List.mem_cons_self
        · rcases ih h with h | ⟨m, hm, rfl⟩
          · exact .inl (List.mem_cons_of_mem _ h)
          · exact .inr ⟨m, List.mem_cons_of_mem _ hm, rfl⟩
      · exact fun e => by cases e

theorem infix_intercalate {sep part : Text} {parts : List Text} (h : part ∈ parts) :
    part <:+: sep.intercalate parts := by
  induction parts with
  | nil => cases h
  | cons p parts ih =>
    cases parts with
    | nil =>
      obtain rfl := List.mem_singleton.mp h
      simp
    | cons q parts =>
      rw [List.intercalate_cons_cons, List.append_assoc]
      rcases List.mem_cons.mp h with rfl | h
      · exact (List.prefix_append part _).isInfix
      · exact (ih h).trans ((List.suffix_append sep _).trans (List.suffix_append p _)).isInfix

theorem unbroken_declaredNames {list : Text} (h : Unbroken list) :
    ∀ n ∈ declaredNames list, Unbroken n := by
  intro n hn c hc
  obtain ⟨part, hpart, rfl⟩ := List.mem_map.mp (List.mem_filter.mp hn).1
  apply h
  rw [← intercalate_cutNames 0 list]
  exact (infix_intercalate hpart).subset (mem_trim hc)

theorem unbroken_splitDeclaration {line : Text} (h : Unbroken line) :
    ∀ l ∈ splitDeclaration line, Unbroken l := by
  have hspace : Unbroken [' '] := by
    intro c hc
    obtain rfl := List.mem_singleton.mp hc
    rfl
  unfold splitDeclaration
  split
  · intro l hl
    obtain rfl := List.mem_singleton.mp hl
    exact h
  · next before dim after hfirst =>
    obtain ⟨hline, _⟩ := first_dim hfirst
    rw [hline] at h
    have hbefore : Unbroken before := h.left
    have hdim : Unbroken dim := h.right.left
    have hafter : Unbroken ((splitStatement after).1 ++ (splitStatement after).2) := by
      rw [splitStatement_append]
      exact h.right.right
    dsimp only
    split
    · next first second names hnames =>
      have hname : ∀ n ∈ first :: second :: names, Unbroken n :=
        fun n hn => unbroken_declaredNames hafter.left n (hnames ▸ hn)
      have hlines : ∀ l ∈ (before ++ dim ++ ' ' :: first) ::
          (second :: names).map fun n => dim ++ ' ' :: n, Unbroken l := by
        intro l hl
        rcases List.mem_cons.mp hl with rfl | hl
        · exact (hbefore.append hdim).append (hspace.append (hname first (by simp)))
        · obtain ⟨n, hn, rfl⟩ := List.mem_map.mp hl
          exact hdim.append (hspace.append (hname n (List.mem_cons_of_mem _ hn)))
      intro l hl
      rcases mem_appendToLast hl with hl | ⟨l', hl', rfl⟩
      · exact hlines l hl
      · exact (hlines l' hl').append hafter.right
    · intro l hl
      obtain rfl := List.mem_singleton.mp hl
      rw [hline]
      exact h

theorem unbroken_statements (style : Style) {lines : List Text} (h : ∀ l ∈ lines, Unbroken l) :
    ∀ l ∈ statements style lines, Unbroken l := by
  unfold statements
  split
  · intro l hl
    obtain ⟨line, hline, hl⟩ := List.mem_flatMap.mp hl
    exact unbroken_splitDeclaration (h line hline) l hl
  · exact h

theorem mem_setOperator {back op : Text} {how : Setting} {c : Char}
    (h : c ∈ setOperator back op how) : c ∈ op ∨ c ∈ back ∨ isBlank c = true := by
  have hdrop : ∀ {d : Char}, d ∈ back.dropWhile isBlank → d ∈ back :=
    fun hd => (List.dropWhile_sublist _).subset hd
  cases how with
  | exponent =>
    rcases List.mem_append.mp h with h | h
    · exact .inl h
    · exact .inr (.inl h)
  | sign =>
    rw [setOperator] at h
    split at h
    · exact .inl h
    · next bare hbare =>
      rcases List.mem_append.mp h with h | h
      · exact .inl h
      · exact .inr (.inl (hdrop (hbare ▸ h)))
    · next bare hne hbare =>
      simp only [List.mem_append, List.mem_cons] at h
      rcases h with h | rfl | h
      · exact .inl h
      · exact .inr (.inr rfl)
      · exact .inr (.inl (hdrop h))
  | binary =>
    rw [setOperator] at h
    split at h
    · rcases List.mem_cons.mp h with rfl | h
      · exact .inr (.inr rfl)
      · exact .inl h
    · simp only [List.mem_append, List.mem_cons] at h
      rcases h with (rfl | h) | rfl | h
      · exact .inr (.inr rfl)
      · exact .inl h
      · exact .inr (.inr rfl)
      · exact .inr (.inl (hdrop h))

theorem mem_setOperators {rest : List (Text × Text)} {back : Text} {c : Char}
    (h : c ∈ setOperators back rest) :
    c ∈ back ∨ (∃ p ∈ rest, c ∈ p.1 ∨ c ∈ p.2) ∨ isBlank c = true := by
  induction rest generalizing back with
  | nil => exact .inl h
  | cons p rest ih =>
    rw [setOperators] at h
    rcases ih h with h | ⟨q, hq, h⟩ | h
    · rcases List.mem_append.mp h with h | h
      · have hmem := (List.dropWhile_sublist _).subset (List.mem_reverse.mp h)
        exact .inr (.inl ⟨p, List.mem_cons_self, .inr hmem⟩)
      · rcases mem_setOperator h with h | h | h
        · have hmem := (List.mem_filter.mp (List.mem_reverse.mp h)).1
          exact .inr (.inl ⟨p, List.mem_cons_self, .inl hmem⟩)
        · exact .inl h
        · exact .inr (.inr h)
    · exact .inr (.inl ⟨q, List.mem_cons_of_mem _ hq, h⟩)
    · exact .inr (.inr h)

theorem mem_spaceOperators {code : Text} {c : Char} (h : c ∈ spaceOperators code) :
    c ∈ code ∨ isBlank c = true := by
  have hmem := (List.dropWhile_sublist _).subset (List.mem_reverse.mp h)
  have hsource := Pattern.source_weave operatorPattern code
  rw [← hsource]
  rcases mem_setOperators hmem with h | ⟨p, hp, h⟩ | h
  · exact .inl (mem_source.mpr (.inl ⟨_, Weave.head_mem_gaps _, List.mem_reverse.mp h⟩))
  · refine .inl (mem_source.mpr ?_)
    rcases h with h | h
    · exact .inr ⟨p.1, List.mem_map_of_mem hp, h⟩
    · exact .inl ⟨p.2, List.mem_cons_of_mem _ (List.mem_map_of_mem hp), h⟩
  · exact .inr h

theorem mem_spaceContinuation {code : Text} {c : Char} (h : c ∈ spaceContinuation code) :
    c ∈ code ∨ isBlank c = true := by
  unfold spaceContinuation at h
  split at h
  · next d t hrev =>
    have hcode : ∀ e ∈ '_' :: d :: t, e ∈ code := fun e he => List.mem_reverse.mp (hrev ▸ he)
    split at h
    · rcases List.mem_append.mp h with h | h
      · have hmem := (List.dropWhile_sublist _).subset (List.mem_reverse.mp h)
        exact .inl (hcode c (List.mem_cons_of_mem _ hmem))
      · simp only [List.mem_cons, List.not_mem_nil, or_false] at h
        rcases h with rfl | rfl
        · exact .inr rfl
        · exact .inl (hcode '_' List.mem_cons_self)
    · exact .inl h
  · exact .inl h

theorem mem_spaceLine {line : Text} {c : Char} (h : c ∈ spaceLine line) :
    c ∈ line ∨ isBlank c = true := by
  have hcode : ∀ code : Text, (∀ d ∈ code, d ∈ trim line) →
      c ∈ spaceContinuation (spaceOperators (trim code)) → c ∈ line ∨ isBlank c = true := by
    intro code hsub hc
    rcases mem_spaceContinuation hc with hc | hc
    · rcases mem_spaceOperators hc with hc | hc
      · exact .inl (mem_trim (hsub c (mem_trim hc)))
      · exact .inr hc
    · exact .inr hc
  unfold spaceLine at h
  dsimp only at h
  split at h
  · exact .inl (mem_trim h)
  · by_cases hend : endsWith Kind.remark.token (trim line) = true
    · rw [if_pos hend, if_pos hend] at h
      have hmark : ∀ d ∈ Kind.remark.token, d ∈ trim line := by
        obtain ⟨s, hs⟩ := List.isSuffixOf_iff_suffix.mp hend
        intro d hd
        rw [← hs]
        exact List.mem_append_right _ hd
      rcases List.mem_append.mp h with h | h
      · exact hcode _ (fun d hd => List.mem_of_mem_take hd) h
      · rcases List.mem_cons.mp h with rfl | h
        · exact .inr rfl
        · exact .inl (mem_trim (hmark c h))
    · rw [if_neg hend, if_neg hend] at h
      exact hcode _ (fun d hd => hd) h

theorem unbroken_spaceLine {line : Text} (h : Unbroken line) : Unbroken (spaceLine line) :=
  .of_subset (fun _ hc => mem_spaceLine hc) h

theorem unbroken_alike {s t : Text} (h : List.Forall₂ Alike s t) (hs : Unbroken s) :
    Unbroken t := by
  induction h with
  | nil => exact hs
  | @cons c d s t hcd _ ih =>
    intro e he
    rcases List.mem_cons.mp he with rfl | he
    · rcases hcd with rfl | ⟨_, hword⟩
      · exact hs _ List.mem_cons_self
      · cases hend : isLineEnd e with
        | false => rfl
        | true =>
          have hnot := isWord_of_isBreak (isBreak_of_isSpace (isSpace_of_isLineEnd hend))
          rw [hnot] at hword
          cases hword
    · exact ih (fun e he => hs e (List.mem_cons_of_mem _ he)) e he

theorem unbroken_recase {case : LetterCase} {lines out : List Text}
    (h : ∀ l ∈ lines, Unbroken l) (hr : recase case lines = .ok out) :
    ∀ l ∈ out, Unbroken l := by
  have hmap : ∀ out, lines.mapM (recaseLine case) = .ok out → ∀ l ∈ out, Unbroken l := by
    intro out hout
    refine forall_of_forall₂ ?_ (mapM_ok_forall₂ hout) h
    intro line l hline hl
    obtain ⟨outs, hrewrites, rfl⟩ := recaseLine_ok hl
    have halike := hrewrites.alike
    rw [flatten_wordRuns] at halike
    exact unbroken_alike halike hline
  cases case with
  | unchanged =>
    obtain rfl := Except.ok.inj hr
    exact h
  | proper => exact hmap out hr
  | upper => exact hmap out hr
  | lower => exact hmap out hr

theorem unbroken_layOut {unit : Text} (hu : ∀ c ∈ unit, isBlank c = true) {lines : List Text}
    (h : ∀ l ∈ lines, Unbroken l) : ∀ l ∈ layOut unit (nest lines), Unbroken l := by
  intro l hl
  by_cases hne : l = []
  · subst hne
    exact .nil
  · obtain ⟨r, hr, _, rfl⟩ := (mem_layOut hne).mp hl
    have htext : r.text ∈ lines.map trim := text_nest lines ▸ List.mem_map_of_mem hr
    obtain ⟨line, hline, heq⟩ := List.mem_map.mp htext
    have hr' : Unbroken r.text := by
      rw [← heq]
      exact .of_subset (fun c hc => .inl (mem_trim hc)) (h line hline)
    unfold indented
    split
    · exact hr'
    · refine .append (.blanks fun c hc => ?_) hr'
      obtain ⟨u, hmem, hcu⟩ := List.mem_flatten.mp hc
      exact hu c (List.eq_of_mem_replicate hmem ▸ hcu)

theorem unbroken_shift {m : Marker} (hm : m = assignmentMarker ∨ m = remarkMarker) {cut n : Nat}
    {line : Text} (h : Unbroken line) : Unbroken (m.shift cut n line) := by
  have hblanks : ∀ n, Unbroken (List.replicate n ' ') :=
    fun n => .blanks fun c hc => by rw [List.eq_of_mem_replicate hc]; rfl
  have htake : Unbroken (line.take cut) := fun c hc => h c (List.mem_of_mem_take hc)
  have hdrop : Unbroken (line.drop cut) := fun c hc => h c (List.mem_of_mem_drop hc)
  rcases hm with rfl | rfl
  · exact (htake.append (hblanks n)).append hdrop
  · refine (htake.append (hblanks (n + 1))).append fun c hc => hdrop c ?_
    exact (List.dropWhile_sublist _).subset hc

theorem unbroken_align {m : Marker} (hm : m = assignmentMarker ∨ m = remarkMarker) {s : Shelves}
    {lines out : List Text} (h : ∀ l ∈ lines, Unbroken l) (ha : m.align s lines = .ok out) :
    ∀ l ∈ out, Unbroken l := by
  refine forall_of_forall₂ ?_ (align_moves ha) h
  intro line l hline hl
  rcases hl with rfl | ⟨cut, n, _, rfl⟩
  · exact hline
  · exact unbroken_shift hm hline

/-- No pass breaks a line. -/
theorem unbroken_workLines {raw : Text} {style : Style} {worked : Worked}
    (hu : ∀ c ∈ style.unit, isBlank c = true)
    (h : (workLines style (Lifting.result raw).shelves (Lifting.result raw).lines).outcome =
      .ok worked) : ∀ l ∈ worked.lines, Unbroken l := by
  obtain ⟨recased, assigned, hrecase, hassign, hremark⟩ := workLines_ok h
  have hstatements := unbroken_statements style (unbroken_liftedLines raw)
  have hspaced : ∀ l ∈ spacedLines style raw, Unbroken l := by
    intro l hl
    obtain ⟨line, hline, rfl⟩ := List.mem_map.mp hl
    exact unbroken_spaceLine (hstatements line hline)
  have hrecased := unbroken_recase hspaced hrecase
  have hindented := unbroken_layOut hu hrecased
  exact unbroken_align (.inr rfl) (unbroken_align (.inl rfl) hindented hassign) hremark

end VbTidy
