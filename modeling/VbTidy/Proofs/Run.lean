import VbTidy.Proofs.Sound
import VbTidy.Format

/-
The parts of a run without its trace. Putting aside is a chain of cuts, one for each kind, each of
the text that the one before has left (`liftCut`). Putting back meets a text for each kind, which
the kinds before have filled (`backTexts`); it succeeds exactly when each of these texts has as many
tokens of the kind as literals were put aside (`putBackLiterals_eq_ok_iff`), and the only way it
fails is a mismatch. A run of the formatter is the three of them in a row.
-/
namespace VbTidy

theorem ok_bind {α β : Type} (a : α) (f : α → Except Fault β) : (Except.ok a >>= f) = f a := rfl

theorem error_bind {α β : Type} (e : Fault) (f : α → Except Fault β) :
    (Except.error e >>= f) = .error e := rfl

theorem ok_of_map {α β : Type} {x : Except Fault α} {g : α → β} {b : β} (h : x.map g = .ok b) :
    ∃ a, x = .ok a ∧ g a = b := by
  cases x with
  | error e => cases h
  | ok a => exact ⟨a, rfl, Except.ok.inj h⟩

/-! ## Putting aside -/

/-- The cut of lines one after the other, with a line feed after each. -/
def Weave.unlines : List Weave → Weave
  | [] => ⟨[], []⟩
  | w :: ws => w.append ((unlines ws).push '\n')

namespace Lifting

/-- The text with tokens of a kind for the matches of a cut. -/
def mask (k : Kind) (w : Weave) : Text :=
  w.replace fun _ => k.token

/-- A document cut into code and markup. -/
def markup (raw : Text) : Weave :=
  cutMarkup (fenceScripts raw)

/-- What is left of it cut at the delimiters of client comments. -/
def delimiter (raw : Text) : Weave :=
  delimiterPattern.weave (mask .markup (markup raw))

/-- What is left of that, by lines, cut at strings. -/
def strings (raw : Text) : List Weave :=
  (splitLines (mask .delimiter (delimiter raw))).map cutStrings

/-- What is left of that cut at comments. -/
def remarks (raw : Text) : List Weave :=
  (maskLines .string (strings raw)).map cutRemark

/-- What is left of that cut at error phrases. -/
def resumes (raw : Text) : List Weave :=
  (maskLines .remark (remarks raw)).map cutResume

/-- What is put aside and what is left. -/
def result (raw : Text) : Lifted where
  shelves := {
    markup := (markup raw).hits
    delimiter := (delimiter raw).hits
    string := literalsOf (strings raw)
    remark := literalsOf (remarks raw)
    resume := resumeLiterals (resumes raw) }
  lines := maskLines .resume (resumes raw)
  finalNewline := endsWith ['\n'] (mask .delimiter (delimiter raw))

theorem lines_result (raw : Text) : (result raw).lines = maskLines .resume (resumes raw) := by
  rw [result]

end Lifting

/-- The cut by which the literals of a kind are put aside. -/
def liftCut (raw : Text) : PerKind Weave where
  markup := Lifting.markup raw
  delimiter := Lifting.delimiter raw
  string := Weave.unlines (Lifting.strings raw)
  remark := Weave.unlines (Lifting.remarks raw)
  resume := Weave.unlines (Lifting.resumes raw)

theorem liftCut_string (raw : Text) :
    (liftCut raw).get .string = Weave.unlines (Lifting.strings raw) := by
  simp only [liftCut, PerKind.get]

theorem liftCut_remark (raw : Text) :
    (liftCut raw).get .remark = Weave.unlines (Lifting.remarks raw) := by
  simp only [liftCut, PerKind.get]

theorem liftCut_resume (raw : Text) :
    (liftCut raw).get .resume = Weave.unlines (Lifting.resumes raw) := by
  simp only [liftCut, PerKind.get]

/-- Putting aside fails for an odd number of delimiters only. -/
theorem liftLiterals_outcome (raw : Text) :
    (liftLiterals raw).outcome =
      if (Lifting.delimiter raw).rest.length % 2 = 0 then .ok (Lifting.result raw)
      else .error (.oddDelimiters (Lifting.delimiter raw).rest.length) := by
  simp only [liftLiterals, Traced.note, Traced.finished, Traced.finishedLines,
    Traced.outcome_bind, Traced.outcome_tell, Traced.outcome_monadLift, Traced.outcome_pure,
    cutDelimiters]
  by_cases h : (Lifting.delimiter raw).rest.length % 2 = 0
  · rw [if_pos h]
    simp only [Lifting.delimiter, Lifting.mask, Lifting.markup] at h
    simp only [h, if_true, ok_bind]
    rfl
  · rw [if_neg h]
    simp only [Lifting.delimiter, Lifting.mask, Lifting.markup] at h
    simp only [h, if_false, ok_bind, error_bind]
    rfl

/-! ## Putting back -/

/-- The text that each kind meets when its turn comes. -/
def backTexts (s : Shelves) (t : Text) : PerKind Text :=
  let remark := (cutTokens .resume t).fillWith s.resume
  let string := (cutTokens .remark remark).fillWith s.remark
  let delimiter := (cutTokens .string string).fillWith s.string
  let markup := (cutTokens .delimiter delimiter).fillWith s.delimiter
  ⟨markup, delimiter, string, remark, t⟩

/-- The cut of the text that a kind meets at the tokens of the kind. -/
def backCut (s : Shelves) (t : Text) (k : Kind) : Weave :=
  cutTokens k ((backTexts s t).get k)

/-- The text with all literals back. -/
def backText (s : Shelves) (t : Text) : Text :=
  joinPadded (backCut s t .markup).head
    ((s.get .markup).zip ((backCut s t .markup).rest.map Prod.snd))

theorem Shelves.putBack_eq (s : Shelves) (k : Kind) (t : Text) :
    (s.shelf k).putBack t =
      if (cutTokens k t).rest.length = (s.get k).length then
        .ok ((cutTokens k t).fillWith (s.get k))
      else .error (.tokenMismatch k.name (s.get k).length (cutTokens k t).rest.length) :=
  Shelf.putBack_eq (s.shelf k) t

theorem Shelves.putBackPadded_eq (s : Shelves) (t : Text) :
    (s.shelf .markup).putBackPadded t =
      if (cutTokens .markup t).rest.length = (s.get .markup).length then
        .ok (joinPadded (cutTokens .markup t).head
          ((s.get .markup).zip ((cutTokens .markup t).rest.map Prod.snd)))
      else .error (.tokenMismatch Kind.markup.name (s.get .markup).length
        (cutTokens .markup t).rest.length) := by
  have htokens : (s.shelf .markup).tokens t = (cutTokens .markup t).rest.length := rfl
  have hliterals : (s.shelf .markup).literals = s.get .markup := rfl
  simp only [Shelf.putBackPadded, Shelf.check, htokens, hliterals]
  by_cases h : (cutTokens .markup t).rest.length = (s.get .markup).length
  · rw [if_pos h, if_pos h]
    rfl
  · rw [if_neg h, if_neg h]
    rfl

/-- Every kind meets as many tokens as it has literals. -/
def Matched (s : Shelves) (t : Text) : Prop :=
  ∀ k, (backCut s t k).rest.length = (s.get k).length

/-- The text after a kind is back. -/
def filled (s : Shelves) (t : Text) (k : Kind) : Text :=
  (backCut s t k).fillWith (s.get k)

theorem backCut_resume (s : Shelves) (t : Text) :
    backCut s t .resume = cutTokens .resume t := rfl

theorem backCut_remark (s : Shelves) (t : Text) :
    backCut s t .remark = cutTokens .remark (filled s t .resume) := rfl

theorem backCut_string (s : Shelves) (t : Text) :
    backCut s t .string = cutTokens .string (filled s t .remark) := rfl

theorem backCut_delimiter (s : Shelves) (t : Text) :
    backCut s t .delimiter = cutTokens .delimiter (filled s t .string) := rfl

theorem backCut_markup (s : Shelves) (t : Text) :
    backCut s t .markup = cutTokens .markup (filled s t .delimiter) := rfl

/-- Putting back succeeds if all kinds match, and otherwise fails with a mismatch. -/
theorem putBackLiterals_cases (s : Shelves) (newline t : Text) :
    (Matched s t ∧
      (putBackLiterals s newline t).outcome = .ok (unfenceScripts newline (backText s t))) ∨
    (¬ Matched s t ∧ ∃ name n n',
      (putBackLiterals s newline t).outcome = .error (.tokenMismatch name n n')) := by
  simp only [putBackLiterals, Traced.note, Traced.finished, Traced.outcome_bind,
    Traced.outcome_tell, Traced.outcome_monadLift, Traced.outcome_pure, ok_bind,
    Shelves.putBack_eq, Shelves.putBackPadded_eq]
  rw [← backCut_resume s]
  by_cases h1 : (backCut s t .resume).rest.length = (s.get .resume).length
  case neg =>
    exact .inr ⟨fun h => h1 (h .resume), _, _, _, by rw [if_neg h1, error_bind]⟩
  rw [if_pos h1, ok_bind, ← filled, ← backCut_remark]
  by_cases h2 : (backCut s t .remark).rest.length = (s.get .remark).length
  case neg =>
    exact .inr ⟨fun h => h2 (h .remark), _, _, _, by rw [if_neg h2, error_bind]⟩
  rw [if_pos h2, ok_bind, ← filled, ← backCut_string]
  by_cases h3 : (backCut s t .string).rest.length = (s.get .string).length
  case neg =>
    exact .inr ⟨fun h => h3 (h .string), _, _, _, by rw [if_neg h3, error_bind]⟩
  rw [if_pos h3, ok_bind, ← filled, ← backCut_delimiter]
  by_cases h4 : (backCut s t .delimiter).rest.length = (s.get .delimiter).length
  case neg =>
    exact .inr ⟨fun h => h4 (h .delimiter), _, _, _, by rw [if_neg h4, error_bind]⟩
  rw [if_pos h4, ok_bind, ← filled, ← backCut_markup]
  by_cases h5 : (backCut s t .markup).rest.length = (s.get .markup).length
  case neg =>
    exact .inr ⟨fun h => h5 (h .markup), _, _, _, by rw [if_neg h5, error_bind]⟩
  rw [if_pos h5, ok_bind]
  refine .inl ⟨?_, rfl⟩
  intro k
  cases k with
  | markup => exact h5
  | delimiter => exact h4
  | string => exact h3
  | remark => exact h2
  | resume => exact h1

/-! ## The whole run -/

theorem Traced.outcome_ite {α : Type} (c : Prop) [Decidable c] (x y : Traced α) :
    (if c then x else y).outcome = if c then x.outcome else y.outcome := by
  split <;> rfl

/-- The lines that the passes for layout work on: one statement per declared name if asked for. -/
def statements (style : Style) (lines : List Text) : List Text :=
  if style.splitDeclarations then splitDeclarations lines else lines

/-- The lines between putting aside and putting back, pass after pass. -/
theorem workLines_outcome (style : Style) (shelves : Shelves) (lines : List Text) :
    (workLines style shelves lines).outcome = (do
      let recased ← recase style.letterCase ((statements style lines).map spaceLine)
      let indented := layOut style.unit (nest recased)
      let assigned ← assignmentMarker.align shelves indented
      let aligned ← remarkMarker.align shelves assigned
      return {
        lines := aligned
        declarationsSplit := if style.splitDeclarations then countSplit lines else 0
        maxDepth := maxDepth (nest recased)
        assignmentBlocks := (assignmentMarker.runs indented).length
        remarkBlocks := (remarkMarker.runs assigned).length }) := by
  -- the notes on the way stand in conditionals whose two branches have one outcome
  simp only [workLines, Traced.note, Traced.finishedLines, Traced.outcome_ite,
    Traced.outcome_bind, Traced.outcome_tell, Traced.outcome_monadLift, Traced.outcome_pure,
    ok_bind, ite_self, statements]
  rfl

/-- The lines that all passes leave, those between them left open. -/
theorem workLines_ok {style : Style} {shelves : Shelves} {lines : List Text} {worked : Worked}
    (h : (workLines style shelves lines).outcome = .ok worked) :
    ∃ recased assigned,
      recase style.letterCase ((statements style lines).map spaceLine) = .ok recased ∧
      assignmentMarker.align shelves (layOut style.unit (nest recased)) = .ok assigned ∧
      remarkMarker.align shelves assigned = .ok worked.lines := by
  rw [workLines_outcome] at h
  cases hr : recase style.letterCase ((statements style lines).map spaceLine) with
  | error e => rw [hr] at h; cases h
  | ok recased =>
    rw [hr, ok_bind] at h
    cases ha : assignmentMarker.align shelves (layOut style.unit (nest recased)) with
    | error e => simp only [ha, error_bind] at h; cases h
    | ok assigned =>
      simp only [ha, ok_bind] at h
      cases hm : remarkMarker.align shelves assigned with
      | error e => rw [hm] at h; cases h
      | ok aligned =>
        rw [hm] at h
        cases h
        exact ⟨recased, assigned, rfl, ha, hm⟩

/-- The text that is handed to putting back. -/
def workedText (raw : Text) (worked : Worked) : Text :=
  closeLines (newlineOf raw) (Lifting.result raw).finalNewline worked.lines

/-- A run that gives a result: good settings, an even number of delimiters, passes that succeed,
and a match of tokens and literals for every kind. -/
theorem format_ok {settings : Settings} {raw : Text} {f : Formatted}
    (h : format settings raw = .ok f) :
    ∃ style worked, settings.style = .ok style ∧
      (liftLiterals raw).outcome = .ok (Lifting.result raw) ∧
      (workLines style (Lifting.result raw).shelves (Lifting.result raw).lines).outcome =
        .ok worked ∧
      Matched (Lifting.result raw).shelves (workedText raw worked) ∧
      (putBackLiterals (Lifting.result raw).shelves (newlineOf raw)
        (workedText raw worked)).outcome = .ok f.text ∧
      f.text = unfenceScripts (newlineOf raw)
        (backText (Lifting.result raw).shelves (workedText raw worked)) := by
  simp only [format, formatTraced, Traced.outcome_bind, Traced.outcome_monadLift,
    Traced.outcome_pure] at h
  cases hs : settings.style with
  | error e => rw [hs] at h; cases h
  | ok style =>
    rw [hs, ok_bind, liftLiterals_outcome] at h
    by_cases heven : (Lifting.delimiter raw).rest.length % 2 = 0
    case neg => rw [if_neg heven] at h; cases h
    have hlift : (liftLiterals raw).outcome = .ok (Lifting.result raw) := by
      rw [liftLiterals_outcome, if_pos heven]
    rw [if_pos heven, ok_bind] at h
    cases hw : (workLines style (Lifting.result raw).shelves
        (Lifting.result raw).lines).outcome with
    | error e => rw [hw] at h; cases h
    | ok worked =>
      rw [hw, ok_bind] at h
      have hwhole : closeLines (newlineOf raw) (Lifting.result raw).finalNewline worked.lines =
          workedText raw worked := rfl
      rw [hwhole] at h
      rcases putBackLiterals_cases (Lifting.result raw).shelves (newlineOf raw)
        (workedText raw worked) with ⟨hm, hb⟩ | ⟨_, name, n, n', hb⟩
      · rw [hb] at h
        cases h
        exact ⟨style, worked, rfl, hlift, hw, hm, hb, rfl⟩
      · rw [hb] at h
        cases h

/-- An indent is made of blanks. -/
theorem indentUnit_blank {settings : Settings} {unit : Text}
    (h : settings.indentUnit = .ok unit) : ∀ c ∈ unit, isBlank c = true := by
  unfold Settings.indentUnit at h
  intro c hc
  split at h
  · cases h
    obtain rfl : c = '\t' := by simpa using hc
    rfl
  · split at h <;> first | cases h | skip
    split at h <;> first | cases h | skip
    split at h <;> first | cases h | skip
    split at h <;> cases h
    obtain ⟨_, rfl⟩ := List.mem_replicate.mp hc
    rfl

theorem Settings.style_ok {settings : Settings} {style : Style}
    (h : settings.style = .ok style) :
    (∀ c ∈ style.unit, isBlank c = true) ∧
      style.splitDeclarations = settings.splitDeclarations := by
  unfold Settings.style at h
  cases hu : settings.indentUnit with
  | error e => rw [hu] at h; cases h
  | ok unit =>
    rw [hu, ok_bind] at h
    cases hc : LetterCase.ofName settings.letterCase with
    | error e => rw [hc] at h; cases h
    | ok case =>
      rw [hc] at h
      cases h
      exact ⟨indentUnit_blank hu, rfl⟩

end VbTidy
