import VbTidy.Proofs.Bookkeeping

/-
What can go wrong with a document. Under settings that are good there are three faults: an odd number
of delimiters, a strange word in the code, and tokens that do not match their literals. The first
comes out before the lines are worked on, the second exactly if keywords are written in a letter case
and a word is a keyword by an unusual letter only (`recase_error_iff`), the third only from a document
that gets as far as to have its tokens counted (`countable_of_mismatch`). The first and the last are
faults of the document, the second is none (`format_escapes_iff`).
-/
namespace VbTidy

/-! ## Tokens -/

/-- The fault that stops a kind is one of its tokens. -/
def IsMismatch (e : Fault) : Prop :=
  ∃ name n n', e = .tokenMismatch name n n'

theorem Shelf.fillRest_error {s : Shelf} {position : Nat} {rest : List (Text × Text)} {e : Fault}
    (h : (s.fillRest position rest).1 = .error e) : IsMismatch e := by
  induction rest generalizing position e with
  | nil => cases h
  | cons p rest ih =>
    rw [Shelf.fillRest, Shelf.next] at h
    cases hl : s.literals[position]? with
    | none =>
      rw [hl] at h
      exact ⟨_, _, _, (Except.error.inj h).symm⟩
    | some l =>
      rw [hl] at h
      dsimp only at h
      split at h
      · rename_i hmore
        have hfail : (s.fillRest (position + 1) rest).1 = .error e := by rw [hmore]; exact h
        exact ih hfail
      · cases h

theorem Shelf.fill_error {s : Shelf} {position : Nat} {t : Text} {e : Fault}
    (h : (s.fill position t).1 = .error e) : IsMismatch e := by
  rw [Shelf.fill] at h
  split at h
  · rename_i hrest
    exact Shelf.fillRest_error (by rw [hrest]; exact h)
  · cases h

theorem Shelves.fillFrom_error {s : Shelves} {ks : List Kind} {at_ : PerKind Nat} {t : Text}
    {e : Fault} (h : (s.fillFrom ks at_ t).1 = .error e) : IsMismatch e := by
  induction ks generalizing at_ t with
  | nil => cases h
  | cons k ks ih =>
    rw [Shelves.fillFrom] at h
    split at h
    · rename_i hfill
      exact Shelf.fill_error (by rw [hfill]; exact h)
    · exact ih h

theorem columnsFrom_error {s : Shelves} {lines : List (Text × Option Nat)} {at_ : PerKind Nat}
    {e : Fault} (h : columnsFrom s at_ lines = .error e) : IsMismatch e := by
  have hmap : ∀ {x : Except Fault (List (Option Nat))} {c : Option Nat},
      x.map (c :: ·) = .error e → x = .error e := by
    intro x c hx
    cases x with
    | error f => exact hx
    | ok cols => cases hx
  have hfill : ∀ {at_ at' : PerKind Nat} {t : Text} {f : Fault},
      s.fill at_ t = (.error f, at') → IsMismatch f := by
    intro at_ at' t f hf
    rw [Shelves.fill] at hf
    exact Shelves.fillFrom_error (congrArg Prod.fst hf)
  induction lines generalizing at_ with
  | nil => cases h
  | cons p lines ih =>
    obtain ⟨line, cut⟩ := p
    cases cut with
    | none =>
      rw [columnsFrom] at h
      split at h
      · rename_i hf
        exact Except.error.inj h ▸ hfill hf
      · exact ih (hmap h)
    | some cut =>
      rw [columnsFrom] at h
      split at h
      · rename_i hf
        exact Except.error.inj h ▸ hfill hf
      · split at h
        · rename_i hf
          exact Except.error.inj h ▸ hfill hf
        · exact ih (hmap h)

theorem Marker.align_error {m : Marker} {s : Shelves} {lines : List Text} {e : Fault}
    (h : m.align s lines = .error e) : IsMismatch e := by
  simp only [Marker.align] at h
  split at h
  · cases h
  · cases hc : columns s (lines.map fun line => (line, m.cut line)) with
    | error f =>
      rw [hc] at h
      exact Except.error.inj h ▸ columnsFrom_error hc
    | ok cols =>
      rw [hc] at h
      cases h

/-! ## Words -/

theorem mapM_error {α β : Type} {f : α → Except Fault β} {as : List α} {e : Fault}
    (h : as.mapM f = .error e) : ∃ a ∈ as, f a = .error e := by
  induction as with
  | nil => cases h
  | cons a as ih =>
    rw [List.mapM_cons] at h
    cases ha : f a with
    | error e' =>
      rw [ha] at h
      obtain rfl : e' = e := Except.error.inj h
      exact ⟨a, List.mem_cons_self, ha⟩
    | ok b =>
      rw [ha, ok_bind] at h
      cases hm : as.mapM f with
      | error e' =>
        rw [hm] at h
        obtain rfl : e' = e := Except.error.inj h
        obtain ⟨a', ha', hf⟩ := ih hm
        exact ⟨a', List.mem_cons_of_mem _ ha', hf⟩
      | ok bs =>
        rw [hm] at h
        cases h

/-- A word that is a keyword by an unusual letter only: its lower case is not in the vocabulary. -/
def IsStrange (word : Text) : Prop :=
  isKeyword word = true ∧ properSpelling? (lower word) = none

theorem recaseWord_error_iff {case : LetterCase} {word : Text} {e : Fault} :
    recaseWord case word = .error e ↔ IsStrange word ∧ e = .strangeKeyword (lower word) := by
  rw [recaseWord, IsStrange]
  by_cases hk : isKeyword word = true
  · cases hp : properSpelling? (lower word) with
    | some k => simp [hk]
    | none => simp [hk, eq_comm]
  · simp [hk]

/-- Lines that hold a strange word. -/
def HoldsStrangeWord (lines : List Text) : Prop :=
  ∃ l ∈ lines, ∃ word ∈ wordRuns l, IsStrange word

theorem recase_error {case : LetterCase} {lines : List Text} {e : Fault}
    (h : recase case lines = .error e) :
    case ≠ .unchanged ∧ HoldsStrangeWord lines ∧ ∃ word, e = .strangeKeyword word := by
  have key : lines.mapM (recaseLine case) = .error e →
      HoldsStrangeWord lines ∧ ∃ word, e = .strangeKeyword word := by
    intro h
    obtain ⟨line, hline, h⟩ := mapM_error h
    rw [recaseLine] at h
    cases hm : (wordRuns line).mapM (recaseWord case) with
    | ok runs =>
      rw [hm] at h
      cases h
    | error e' =>
      rw [hm] at h
      obtain rfl : e' = e := Except.error.inj h
      obtain ⟨word, hword, herr⟩ := mapM_error hm
      obtain ⟨hstrange, rfl⟩ := recaseWord_error_iff.mp herr
      exact ⟨⟨line, hline, word, hword, hstrange⟩, _, rfl⟩
  cases case with
  | unchanged => cases h
  | proper => exact ⟨by decide, key h⟩
  | upper => exact ⟨by decide, key h⟩
  | lower => exact ⟨by decide, key h⟩

theorem forall₂_mem {α β : Type} {R : α → β → Prop} {as : List α} {bs : List β} {a : α}
    (h : List.Forall₂ R as bs) (ha : a ∈ as) : ∃ b ∈ bs, R a b := by
  induction h with
  | nil => cases ha
  | @cons a' b as bs hab _ ih =>
    rcases List.mem_cons.mp ha with rfl | ha
    · exact ⟨b, List.mem_cons_self, hab⟩
    · obtain ⟨c, hc, hac⟩ := ih ha
      exact ⟨c, List.mem_cons_of_mem _ hc, hac⟩

/-- Recasing fails exactly at strange words, if it is asked for at all. -/
theorem recase_error_iff {case : LetterCase} {lines : List Text} :
    (∃ e, recase case lines = .error e) ↔ case ≠ .unchanged ∧ HoldsStrangeWord lines := by
  constructor
  · rintro ⟨e, h⟩
    obtain ⟨hcase, hstrange, _⟩ := recase_error h
    exact ⟨hcase, hstrange⟩
  · rintro ⟨hcase, line, hline, word, hword, hstrange⟩
    cases hr : recase case lines with
    | error e => exact ⟨e, rfl⟩
    | ok out =>
      have hlines : lines.mapM (recaseLine case) = .ok out := by
        cases case with
        | unchanged => exact absurd rfl hcase
        | proper => exact hr
        | upper => exact hr
        | lower => exact hr
      obtain ⟨out', _, hout⟩ := forall₂_mem (mapM_ok_forall₂ hlines) hline
      obtain ⟨outs, hrewrites, _⟩ := recaseLine_ok hout
      obtain ⟨out'', _, hok⟩ := forall₂_mem hrewrites hword
      have herr : recaseWord case _ = .error _ := recaseWord_error_iff.mpr ⟨hstrange, rfl⟩
      rw [hok] at herr
      cases herr

/-- A document that gets as far as to have its tokens counted: its delimiters are even in number,
and its keywords are ones that can be written. -/
structure Countable (style : Style) (raw : Text) : Prop where
  even : (Lifting.delimiter raw).rest.length % 2 = 0
  recasable : ∃ recased, recase style.letterCase (spacedLines style raw) = .ok recased

section
variable {settings : Settings} {style : Style} {raw : Text}
  (hstyle : settings.style = .ok style)
include hstyle

theorem format_outcome : format settings raw =
    if (Lifting.delimiter raw).rest.length % 2 = 0 then do
      let worked ← (workLines style (Lifting.result raw).shelves (Lifting.result raw).lines).outcome
      let text ← (putBackLiterals (Lifting.result raw).shelves (newlineOf raw)
        (workedText raw worked)).outcome
      return {
        text
        changed := text != raw
        stats := {
          totalLines := (splitLines raw).length
          declarationsSplit := worked.declarationsSplit
          maxDepth := worked.maxDepth
          assignmentBlocks := worked.assignmentBlocks
          remarkBlocks := worked.remarkBlocks
          literals := (Lifting.result raw).shelves.map List.length } }
    else .error (.oddDelimiters (Lifting.delimiter raw).rest.length) := by
  simp only [format, formatTraced, Traced.outcome_bind, Traced.outcome_monadLift,
    Traced.outcome_pure]
  rw [hstyle, ok_bind, liftLiterals_outcome]
  split
  · rfl
  · rfl

/-- Only a document that gets as far is rejected for its tokens. -/
theorem countable_of_mismatch {e : Fault} (h : format settings raw = .error e)
    (he : IsMismatch e) : Countable style raw := by
  rw [format_outcome hstyle] at h
  split at h
  · rename_i heven
    refine ⟨heven, ?_⟩
    cases hr : recase style.letterCase (spacedLines style raw) with
    | ok recased => exact ⟨recased, rfl⟩
    | error e' =>
      have hr' := hr
      rw [spacedLines] at hr
      rw [workLines_outcome, hr] at h
      obtain rfl : e' = e := Except.error.inj h
      obtain ⟨_, _, word, rfl⟩ := recase_error hr'
      obtain ⟨name, n, n', he⟩ := he
      cases he
  · obtain ⟨name, n, n', rfl⟩ := he
    cases h

/-- A document that gets as far comes out, or is rejected for its tokens. -/
theorem Countable.cases (h : Countable style raw) :
    (∃ f, format settings raw = .ok f) ∨ ∃ e, format settings raw = .error e ∧ IsMismatch e := by
  obtain ⟨heven, recased, hr⟩ := h
  rw [spacedLines] at hr
  rw [format_outcome hstyle, if_pos heven, workLines_outcome, hr, ok_bind]
  dsimp only
  cases ha : assignmentMarker.align (Lifting.result raw).shelves
      (layOut style.unit (nest recased)) with
  | error e => exact .inr ⟨e, rfl, Marker.align_error ha⟩
  | ok assigned =>
    rw [ok_bind]
    cases hb : remarkMarker.align (Lifting.result raw).shelves assigned with
    | error e => exact .inr ⟨e, rfl, Marker.align_error hb⟩
    | ok aligned =>
      rw [ok_bind, pure_bind]
      rcases putBackLiterals_cases (Lifting.result raw).shelves (newlineOf raw) _ with
        ⟨_, hb⟩ | ⟨_, name, n, n', hb⟩
      · rw [hb]
        exact .inl ⟨_, rfl⟩
      · rw [hb]
        exact .inr ⟨_, rfl, name, n, n', rfl⟩

/-- The code of a document holds a strange word, and it is to be written in a letter case. -/
def Strange (style : Style) (raw : Text) : Prop :=
  style.letterCase ≠ .unchanged ∧ HoldsStrangeWord (spacedLines style raw)

theorem format_strange (heven : (Lifting.delimiter raw).rest.length % 2 = 0)
    (h : Strange style raw) : ∃ word, format settings raw = .error (.strangeKeyword word) := by
  obtain ⟨e, hr⟩ := recase_error_iff.mpr h
  obtain ⟨_, _, word, rfl⟩ := recase_error hr
  rw [spacedLines] at hr
  rw [format_outcome hstyle, if_pos heven, workLines_outcome, hr]
  exact ⟨word, rfl⟩

/-- The faults of a document are those of its delimiters, of its words and of its tokens. -/
theorem format_error_cases {e : Fault} (h : format settings raw = .error e) :
    e.isDocumentFault = true ∨
      (Lifting.delimiter raw).rest.length % 2 = 0 ∧ Strange style raw ∧
        ∃ word, e = .strangeKeyword word := by
  by_cases heven : (Lifting.delimiter raw).rest.length % 2 = 0
  · cases hr : recase style.letterCase (spacedLines style raw) with
    | error e' =>
      have hstrange : Strange style raw := recase_error_iff.mp ⟨e', hr⟩
      obtain ⟨word, hword⟩ := format_strange hstyle heven hstrange
      rw [hword] at h
      exact .inr ⟨heven, hstrange, word, (Except.error.inj h).symm⟩
    | ok recased =>
      rcases Countable.cases hstyle ⟨heven, recased, hr⟩ with ⟨f, hok⟩ | ⟨e', herr, name, n, n', rfl⟩
      · rw [hok] at h
        cases h
      · rw [herr] at h
        obtain rfl := Except.error.inj h
        exact .inl rfl
  · rw [format_outcome hstyle, if_neg heven] at h
    obtain rfl := Except.error.inj h
    exact .inl rfl

/-- A document fails by a fault that is not its own exactly if a strange word stands in its code. -/
theorem format_escapes_iff :
    (∃ e, format settings raw = .error e ∧ e.isDocumentFault = false) ↔
      (Lifting.delimiter raw).rest.length % 2 = 0 ∧ Strange style raw := by
  constructor
  · rintro ⟨e, herr, hfault⟩
    rcases format_error_cases hstyle herr with hdoc | ⟨heven, hstrange, _⟩
    · rw [hdoc] at hfault
      cases hfault
    · exact ⟨heven, hstrange⟩
  · rintro ⟨heven, hstrange⟩
    obtain ⟨word, herr⟩ := format_strange hstyle heven hstrange
    exact ⟨_, herr, rfl⟩

end

end VbTidy
