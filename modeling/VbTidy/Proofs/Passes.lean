import VbTidy.Proofs.Squeeze
import VbTidy.Format
import Mathlib.Data.List.Forall2

/-
What the passes over lines leave alone. Spacing, recasing, indenting and aligning change white
space and letter case only: the lines of a document, squeezed and put in a row, are the same before
and after each of them. Splitting of declarations is the one pass that writes more than that.
-/
namespace VbTidy

/-! ## Spacing -/

theorem squeezed_setOperator (back op : Text) (how : Setting) :
    squeezed (setOperator back op how) = squeezed op ++ squeezed back := by
  have hback : squeezed (back.dropWhile isBlank) = squeezed back :=
    squeezed_dropWhile (fun _ => isSpace_of_isBlank) back
  have hspace : ∀ t, squeezed (' ' :: t) = squeezed t := squeezed_space (by decide)
  cases how with
  | exponent => simp [setOperator]
  | sign =>
    rw [setOperator, ← hback]
    split
    · next hnone => rw [hnone, squeezed_nil, List.append_nil]
    · next hsome => rw [hsome, squeezed_append]
    · rw [squeezed_append, hspace]
  | binary =>
    rw [setOperator, ← hback]
    split
    · next hnone => rw [hspace, hnone, squeezed_nil, List.append_nil]
    · rw [List.cons_append, hspace, squeezed_append, hspace]

theorem squeezed_setOperators (back : Text) (rest : List (Text × Text)) :
    squeezed (setOperators back rest).reverse =
      squeezed back.reverse ++ rest.flatMap fun p => squeezed p.1 ++ squeezed p.2 := by
  induction rest generalizing back with
  | nil => simp [setOperators]
  | cons p rest ih =>
    obtain ⟨hit, after⟩ := p
    have hop : squeezed (hit.filter (!isBlank ·)) = squeezed hit := by
      rw [squeezed, List.filter_filter]
      congr 2
      funext c
      cases hb : isBlank c with
      | true => simp [isSpace_of_isBlank hb]
      | false => simp
    have hafter : squeezed (after.dropWhile isBlank) = squeezed after :=
      squeezed_dropWhile (fun _ => isSpace_of_isBlank) after
    rw [setOperators]
    simp only [ih, List.reverse_append, List.reverse_reverse, squeezed_append, hafter]
    rw [squeezed_reverse, squeezed_setOperator]
    simp [squeezed_reverse, hop]

@[simp] theorem squeezed_spaceOperators (code : Text) :
    squeezed (spaceOperators code) = squeezed code := by
  have hsource : squeezed (operatorPattern.weave code).source = squeezed code := by simp
  rw [spaceOperators, squeezed_reverse, squeezed_dropWhile (fun _ => isSpace_of_isBlank),
    ← squeezed_reverse, squeezed_setOperators, ← hsource]
  simp [Weave.source, squeezed, List.filter_flatMap, List.map_flatMap]

@[simp] theorem squeezed_spaceContinuation (code : Text) :
    squeezed (spaceContinuation code) = squeezed code := by
  rw [spaceContinuation]
  split
  · rename_i c t hrev
    split
    · rename_i hc
      have hcode : code = (c :: t).reverse ++ ['_'] := by
        rw [← List.reverse_reverse code, hrev]
        simp
      rw [hcode, squeezed_append, squeezed_append, ← squeezed_dropEnd (p := isBlank)
        (fun _ => isSpace_of_isBlank) (c :: t).reverse]
      simp only [dropEnd, List.reverse_reverse]
      rfl
    · rfl
  · rfl

theorem squeezed_endsWith {part t : Text} (h : endsWith part t = true) :
    squeezed t = squeezed (t.take (t.length - part.length)) ++ squeezed part := by
  obtain ⟨s, rfl⟩ := List.isSuffixOf_iff_suffix.mp h
  simp

@[simp] theorem squeezed_spaceLine (line : Text) : squeezed (spaceLine line) = squeezed line := by
  rw [← squeezed_trim line]
  simp only [spaceLine]
  split
  · rfl
  · split
    · rename_i hmark
      rw [squeezed_endsWith hmark, squeezed_append, squeezed_spaceContinuation,
        squeezed_spaceOperators, squeezed_trim, squeezed_space (by decide)]
    · simp

/-! ## Recasing -/

theorem flatten_wordRuns (t : Text) : (wordRuns t).flatten = t := by
  induction t with
  | nil => rfl
  | cons c t ih =>
    unfold wordRuns
    split
    · split
      · rename_i d t' run runs hruns
        rw [hruns] at ih
        split <;> simp_all
      · simp_all
    · simp_all

/-- A lower case in ASCII is that of each character by itself. -/
theorem lowerAfter_ascii {before t : Text} (h : ∀ c ∈ lowerAfter before t, c.toNat < 0x80) :
    lowerAfter before t = t.map lowerChar ∧ 'İ' ∉ t := by
  induction t generalizing before with
  | nil => simp [lowerAfter]
  | cons c t ih =>
    rw [lowerAfter] at h ⊢
    split at h
    · -- a final or medial sigma is not in ASCII
      have := h (if meetsCased before && !meetsCased t then 'ς' else 'σ') (by simp)
      split at this <;> exact absurd this (by decide)
    · rename_i hsigma
      split at h
      · have := h '\u0307' (by simp)
        exact absurd this (by decide)
      · rename_i hdot
        obtain ⟨ht, hmem⟩ := @ih (c :: before) fun d hd => h d (by simp [hd])
        have hne : c ≠ 'İ' := by simpa using hdot
        simp [hsigma, hdot, ht, hmem, Ne.symm hne]

/-- The keywords have ASCII letters only, at least one, and none of them is the name of a mark. -/
theorem keyword_letters {k : Text} (h : k ∈ keywords) :
    k ≠ [] ∧ (∀ c ∈ k, c.isAlpha = true) ∧ ∀ m : Mark, k.map Char.toLower ≠ m.name := by
  have key : keywords.all (fun k => !k.isEmpty && (k.all Char.isAlpha &&
      Mark.all.all fun m => k.map Char.toLower != m.name)) = true := by decide +kernel
  have := List.all_eq_true.mp key k h
  rw [Bool.and_eq_true, Bool.and_eq_true, List.all_eq_true, List.all_eq_true] at this
  obtain ⟨hne, halpha, hmarks⟩ := this
  exact ⟨by simpa using hne, halpha, fun m => by simpa using hmarks m (Mark.mem_all m)⟩

theorem isAlpha_of_keyword {k : Text} (h : k ∈ keywords) : ∀ c ∈ k, c.isAlpha = true :=
  (keyword_letters h).2.1

theorem ascii_of_alpha {c : Char} (h : c.isAlpha = true) : c.toNat < 0x80 := by
  have hcases : (decide (c.val ≥ 'A'.val ∧ c.val ≤ 'Z'.val) ||
      (decide (c.val ≥ 'a'.val) && decide (c.val ≤ 'z'.val))) = true := h
  rw [Bool.or_eq_true, Bool.and_eq_true, decide_eq_true_eq, decide_eq_true_eq,
    decide_eq_true_eq] at hcases
  rcases hcases with h | h
  · exact Nat.lt_of_le_of_lt (UInt32.le_iff_toNat_le.mp h.2) (by decide)
  · exact Nat.lt_of_le_of_lt (UInt32.le_iff_toNat_le.mp h.2) (by decide)

/-- What every letter of the vocabulary is like in either case. -/
theorem alpha_cases {c : Char} (h : c.isAlpha = true) :
    isNameChar c.toLower = true ∧ squeezed [c] = [c.toLower] ∧
      squeezed [c.toUpper] = [c.toLower] ∧ squeezed [c.toLower] = [c.toLower] := by
  have key : ∀ c : Char, c.toNat < 0x80 → c.isAlpha = true →
      isNameChar c.toLower = true ∧ squeezed [c] = [c.toLower] ∧
      squeezed [c.toUpper] = [c.toLower] ∧ squeezed [c.toLower] = [c.toLower] :=
    of_ascii (by decide)
  exact key c (ascii_of_alpha h) h

theorem keywords_lower {k : Text} (h : k ∈ keywords) :
    ∀ c ∈ k.map Char.toLower, isNameChar c = true := by
  intro c hc
  obtain ⟨d, hd, rfl⟩ := List.mem_map.mp hc
  exact (alpha_cases (isAlpha_of_keyword h d hd)).1

theorem squeezed_write {k : Text} (h : k ∈ keywords) (case : LetterCase) :
    squeezed (case.write k) = k.map Char.toLower := by
  have hk := isAlpha_of_keyword h
  have key : ∀ f : Char → Char, (∀ c, c.isAlpha = true → squeezed [f c] = [c.toLower]) →
      squeezed (k.map f) = k.map Char.toLower := by
    intro f hf
    rw [squeezed_eq_flatMap, List.flatMap_map, List.map_eq_flatMap]
    exact List.flatMap_congr fun c hc => hf c (hk c hc)
  have hid := key id fun c hc => (alpha_cases hc).2.1
  rw [List.map_id] at hid
  cases case with
  | proper => exact hid
  | upper => exact key _ fun c hc => (alpha_cases hc).2.2.1
  | lower => exact key _ fun c hc => (alpha_cases hc).2.2.2
  | unchanged => exact hid

theorem properSpelling_mem {word k : Text} (h : properSpelling? word = some k) :
    k ∈ keywords ∧ k.map Char.toLower = word :=
  ⟨List.mem_of_find?_eq_some h, by simpa using List.find?_some h⟩

/-- A word is left alone, or it is a keyword and its letters are exchanged one by one. -/
theorem recaseWord_ok {case : LetterCase} {word out : Text} (h : recaseWord case word = .ok out) :
    out = word ∨ ∃ k ∈ keywords, out = case.write k ∧ k.map Char.toLower = word.map lowerChar := by
  rw [recaseWord] at h
  split at h
  · split at h
    · rename_i k hk
      obtain ⟨hmem, hlow⟩ := properSpelling_mem hk
      have hname := keywords_lower hmem
      rw [hlow] at hname
      have hascii : ∀ c ∈ lower word, c.toNat < 0x80 := by
        intro c hc
        have := isNameChar_toNat (hname c hc)
        omega
      obtain ⟨hmap, _⟩ := lowerAfter_ascii hascii
      refine .inr ⟨k, hmem, (Except.ok.inj h).symm, hlow.trans ?_⟩
      change lowerAfter [] word = _
      exact hmap
    · cases h
  · exact .inl (Except.ok.inj h).symm

/-- Recasing a word changes its letter case only. -/
theorem squeezed_recaseWord {case : LetterCase} {word out : Text}
    (h : recaseWord case word = .ok out) : squeezed out = squeezed word := by
  rcases recaseWord_ok h with rfl | ⟨k, hmem, rfl, hlow⟩
  · rfl
  · have hall : ∀ c ∈ word, isSpace c = false ∧ caseless c = lowerChar c := by
      intro c hc
      apply lower_nameChar
      apply keywords_lower hmem
      rw [hlow]
      exact List.mem_map_of_mem hc
    rw [squeezed_write hmem, hlow, squeezed,
      List.filter_eq_self.mpr fun c hc => by simp [(hall c hc).1]]
    exact (List.map_congr_left fun c hc => (hall c hc).2).symm

theorem mapM_ok_forall₂ {α β : Type} {f : α → Except Fault β} {as : List α} {bs : List β}
    (h : as.mapM f = .ok bs) : List.Forall₂ (fun a b => f a = .ok b) as bs := by
  induction as generalizing bs with
  | nil =>
    simp [pure, Except.pure] at h
    subst h
    exact .nil
  | cons a as ih =>
    rw [List.mapM_cons] at h
    cases hb : f a with
    | error e => simp [hb, bind, Except.bind] at h
    | ok b =>
      cases hs : as.mapM f with
      | error e => simp [hb, hs, bind, Except.bind] at h
      | ok cs =>
        simp [hb, hs, bind, Except.bind, pure, Except.pure] at h
        subst h
        exact .cons hb (ih hs)

theorem squeezed_flatten (ts : List Text) : squeezed ts.flatten = ts.flatMap squeezed := by
  induction ts with
  | nil => rfl
  | cons t ts ih => simp [ih]

theorem flatMap_squeezed_of_forall₂ {as bs : List Text}
    (h : List.Forall₂ (fun a b => squeezed b = squeezed a) as bs) :
    bs.flatMap squeezed = as.flatMap squeezed := by
  induction h with
  | nil => rfl
  | cons h _ ih => rw [List.flatMap_cons, List.flatMap_cons, h, ih]

theorem squeezed_recaseLine {case : LetterCase} {line out : Text}
    (h : recaseLine case line = .ok out) : squeezed out = squeezed line := by
  rw [recaseLine] at h
  cases hr : (wordRuns line).mapM (recaseWord case) with
  | error e => simp [hr, bind, Except.bind] at h
  | ok runs =>
    simp [hr, bind, Except.bind, pure, Except.pure] at h
    subst h
    have hline : squeezed line = (wordRuns line).flatMap squeezed := by
      rw [← squeezed_flatten, flatten_wordRuns]
    rw [squeezed_flatten, hline]
    exact flatMap_squeezed_of_forall₂ ((mapM_ok_forall₂ hr).imp fun _ _ => squeezed_recaseWord)

theorem squeezed_recase {case : LetterCase} {lines out : List Text}
    (h : recase case lines = .ok out) : out.flatMap squeezed = lines.flatMap squeezed := by
  have key : lines.mapM (recaseLine case) = .ok out →
      out.flatMap squeezed = lines.flatMap squeezed := fun h =>
    flatMap_squeezed_of_forall₂ ((mapM_ok_forall₂ h).imp fun _ _ => squeezed_recaseLine)
  cases case with
  | unchanged => rw [← Except.ok.inj h]
  | proper => exact key h
  | upper => exact key h
  | lower => exact key h

/-! ## Indenting -/

theorem squeezed_addLine (above : List Text) (line : Text) :
    (addLine above line).reverse.flatMap squeezed =
      above.reverse.flatMap squeezed ++ squeezed line := by
  unfold addLine
  split
  · rfl
  · simp
  · simp
  · split <;> simp
  · simp

theorem squeezed_tidyBlankLines (lines : List Text) :
    (tidyBlankLines lines).flatMap squeezed = lines.flatMap squeezed := by
  have hfold : ∀ above : List Text, (lines.foldl addLine above).reverse.flatMap squeezed =
      above.reverse.flatMap squeezed ++ lines.flatMap squeezed := by
    induction lines with
    | nil => simp
    | cons line lines ih =>
      intro above
      rw [List.foldl_cons, ih, squeezed_addLine, List.flatMap_cons, List.append_assoc]
  have hdrop : ∀ ls : List Text,
      (ls.dropWhile (·.isEmpty)).reverse.flatMap squeezed = ls.reverse.flatMap squeezed := by
    intro ls
    induction ls with
    | nil => rfl
    | cons l ls ih =>
      rw [List.dropWhile_cons]
      split
      · rw [ih]
        simp_all
      · rfl
  rw [tidyBlankLines, hdrop, hfold]
  rfl

theorem squeezed_replicate_unit {unit : Text} (hu : squeezed unit = []) (n : Nat) :
    squeezed (List.replicate n unit).flatten = [] := by
  rw [squeezed_flatten]
  induction n with
  | zero => rfl
  | succ n ih => simp [List.replicate_succ, hu, ih]

theorem squeezed_spread {unit : Text} (hu : squeezed unit = []) (r : Row) :
    (spread unit r).flatMap squeezed = squeezed r.text := by
  have hrow : squeezed (indented unit r) = squeezed r.text := by
    rw [indented]
    split
    · rfl
    · rw [squeezed_append, squeezed_replicate_unit hu, List.nil_append]
  rw [spread]
  split
  · simp_all
  · split <;> split <;> simp [hrow]

theorem text_rowAt (depth : Nat) (line : Text) : (rowAt depth line).1.text = trim line := by
  rw [rowAt]
  split <;> rfl

theorem squeezed_nestFrom (depth : Nat) (lines : List Text) :
    (nestFrom depth lines).1.flatMap (squeezed ·.text) = lines.flatMap squeezed := by
  induction lines generalizing depth with
  | nil => rfl
  | cons line lines ih =>
    rw [nestFrom, List.flatMap_cons, List.flatMap_cons, ih, text_rowAt, squeezed_trim]

theorem squeezed_layOut {unit : Text} (hu : squeezed unit = []) (lines : List Text) :
    (layOut unit (nest lines)).flatMap squeezed = lines.flatMap squeezed := by
  rw [layOut, squeezed_tidyBlankLines, List.flatMap_assoc, ← squeezed_nestFrom 0 lines]
  exact List.flatMap_congr fun r _ => squeezed_spread hu r

/-! ## Aligning -/

/-- A marker that moves its place by white space only. -/
def Marker.Spaces (m : Marker) : Prop :=
  ∀ cut n line, squeezed (m.shift cut n line) = squeezed line

theorem squeezed_blanks (n : Nat) : squeezed (List.replicate n ' ') = [] :=
  squeezed_of_spaces fun c hc => by rw [List.eq_of_mem_replicate hc]; decide

theorem assignmentMarker_spaces : assignmentMarker.Spaces := by
  intro cut n line
  simp only [assignmentMarker, squeezed_append, squeezed_blanks, List.append_nil]
  rw [← squeezed_append, List.take_append_drop]

theorem remarkMarker_spaces : remarkMarker.Spaces := by
  intro cut n line
  simp only [remarkMarker, squeezed_append, squeezed_blanks, List.append_nil,
    squeezed_dropWhile (fun _ h => h)]
  rw [← squeezed_append, List.take_append_drop]

theorem squeezed_alignLine {m : Marker} (hm : m.Spaces) (targets : List (List Nat × Nat))
    (cols : Array (Option Nat)) (i : Nat) (line : Text) :
    squeezed (m.alignLine targets cols i line) = squeezed line := by
  rw [Marker.alignLine]
  split
  · exact hm _ _ _
  · rfl

theorem align_ok {m : Marker} {s : Shelves} {lines out : List Text}
    (h : m.align s lines = .ok out) :
    out = lines ∨ ∃ targets cols, out = lines.mapIdx (m.alignLine targets cols) := by
  simp only [Marker.align] at h
  split at h
  · exact .inl (Except.ok.inj h).symm
  · cases hc : columns s (lines.map fun line => (line, m.cut line)) with
    | error e =>
      rw [hc] at h
      cases h
    | ok cols =>
      rw [hc] at h
      exact .inr ⟨_, _, (Except.ok.inj h).symm⟩

theorem squeezed_align {m : Marker} (hm : m.Spaces) {s : Shelves} {lines out : List Text}
    (h : m.align s lines = .ok out) : out.flatMap squeezed = lines.flatMap squeezed := by
  rcases align_ok h with rfl | ⟨targets, cols, rfl⟩
  · rfl
  · rw [List.flatMap_def, List.flatMap_def]
    congr 1
    refine List.ext_getElem (by simp) fun i _ _ => ?_
    simp [squeezed_alignLine hm]

end VbTidy
