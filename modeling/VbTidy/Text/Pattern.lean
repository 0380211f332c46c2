import VbTidy.Text.Word
import VbTidy.Text.Case

/-
Patterns in a text. A pattern looks at the character before a place and the text after it and
gives the length of its match there, if any. `weave` cuts a text at the matches of a pattern, taken
from left to right without overlap: the text before the first, then each match with the text after
it. All searching and replacing is said in terms of this cut, and nothing of the text is lost by it.
-/
namespace VbTidy

/-- A text cut at matches: the text before the first, then each match with the text after it. -/
structure Weave where
  head : Text
  rest : List (Text × Text)
deriving Repr, DecidableEq

namespace Weave

/-- The text that was cut. -/
def source (w : Weave) : Text :=
  w.head ++ w.rest.flatMap fun p => p.1 ++ p.2

/-- The matches in order. -/
def hits (w : Weave) : List Text :=
  w.rest.map Prod.fst

/-- The text with each match replaced. -/
def replace (f : Text → Text) (w : Weave) : Text :=
  w.head ++ w.rest.flatMap fun p => f p.1 ++ p.2

/-- Puts a character in front. -/
def push (c : Char) (w : Weave) : Weave :=
  ⟨c :: w.head, w.rest⟩

/-- Puts a match in front. -/
def pushHit (hit : Text) (w : Weave) : Weave :=
  ⟨[], (hit, w.head) :: w.rest⟩

@[simp] theorem source_push (c : Char) (w : Weave) : (w.push c).source = c :: w.source := by
  simp [source, push]

@[simp] theorem source_pushHit (t : Text) (w : Weave) : (w.pushHit t).source = t ++ w.source := by
  simp [source, pushHit]

@[simp] theorem hits_push (c : Char) (w : Weave) : (w.push c).hits = w.hits := rfl

@[simp] theorem hits_pushHit (t : Text) (w : Weave) : (w.pushHit t).hits = t :: w.hits := rfl

@[simp] theorem replace_push (f : Text → Text) (c : Char) (w : Weave) :
    (w.push c).replace f = c :: w.replace f := by
  simp [replace, push]

@[simp] theorem replace_pushHit (f : Text → Text) (t : Text) (w : Weave) :
    (w.pushHit t).replace f = f t ++ w.replace f := by
  simp [replace, pushHit]

theorem replace_id (w : Weave) : w.replace id = w.source := rfl

end Weave

/-- A pattern gives, from the character before and the text after a place, the length of its
match there. -/
abbrev Pattern := Option Char → Text → Option Nat

namespace Pattern

/-- The cut of a text of which the first `skip` characters belong to a match already taken and
`before` is the character in front. An empty match takes no character with it. -/
def weaveFrom (p : Pattern) : Nat → Option Char → Text → Weave
  | 0, before, [] =>
    match p before [] with
    | none => ⟨[], []⟩
    | some _ => ⟨[], [([], [])]⟩
  | _ + 1, _, [] => ⟨[], []⟩
  | skip + 1, _, c :: t => weaveFrom p skip (some c) t
  | 0, before, c :: t =>
    match p before (c :: t) with
    | none => (weaveFrom p 0 (some c) t).push c
    | some 0 => ((weaveFrom p 0 (some c) t).push c).pushHit []
    | some (n + 1) => (weaveFrom p n (some c) t).pushHit (c :: t.take n)

/-- The cut of a text at the matches of a pattern. -/
def weave (p : Pattern) (t : Text) : Weave :=
  weaveFrom p 0 none t

/-- Nothing is lost by the cut. -/
theorem source_weaveFrom (p : Pattern) (skip : Nat) (before : Option Char) (t : Text) :
    (weaveFrom p skip before t).source = t.drop skip := by
  induction t generalizing skip before with
  | nil =>
    cases skip with
    | zero => rw [weaveFrom]; split <;> rfl
    | succ n => rfl
  | cons c t ih =>
    cases skip with
    | succ n => simp [weaveFrom, ih]
    | zero =>
      rw [weaveFrom]
      split
      · simp [ih]
      · simp [ih]
      · simp [ih]

@[simp] theorem source_weave (p : Pattern) (t : Text) : (p.weave t).source = t := by
  simp [weave, source_weaveFrom]

/-- The matches of a pattern, in order. -/
def hits (p : Pattern) (t : Text) : List Text :=
  (p.weave t).hits

/-- The number of matches. -/
def count (p : Pattern) (t : Text) : Nat :=
  (p.weave t).rest.length

/-- The text with each match replaced. -/
def replace (p : Pattern) (f : Text → Text) (t : Text) : Text :=
  (p.weave t).replace f

/-- The first match: the text before it, the match and the text after it. -/
def firstFrom (p : Pattern) : Option Char → Text → Option (Text × Text × Text)
  | before, [] => (p before []).map fun _ => ([], [], [])
  | before, c :: t =>
    match p before (c :: t) with
    | some n => some ([], (c :: t).take n, (c :: t).drop n)
    | none => (firstFrom p (some c) t).map fun r => (c :: r.1, r.2)

/-- The first match in a whole text. -/
def first? (p : Pattern) (t : Text) : Option (Text × Text × Text) :=
  firstFrom p none t

/-- The pattern of one fixed text. -/
def literal (part : Text) : Pattern := fun _ t =>
  if part.isPrefixOf t then some part.length else none

/-- The pattern of a matcher that gives what it leaves of the text. -/
def ofRest (f : Text → Option Text) : Pattern := fun _ t =>
  (f t).map fun rest => t.length - rest.length

/-- Takes those matches that start and end at the edge of a word. -/
def wholeWords (p : Pattern) : Pattern := fun before t =>
  if atBoundary before t then
    (p before t).filter fun n => atBoundary ((t.take n).getLast?.or before) (t.drop n)
  else none

end Pattern

/-- What is left after words in any letter case with white space between them. -/
def dropPhrase? : List Text → Text → Option Text
  | [], t => some t
  | [w], t => dropWord? w t
  | w :: ws, t =>
    match dropWord? w t with
    | some (c :: rest) => if isSpace c then dropPhrase? ws (rest.dropWhile isSpace) else none
    | _ => none

/-- The pattern of a phrase: its words in any letter case, white space between them. -/
def phrasePattern (phrase : List Text) : Pattern :=
  (Pattern.ofRest (dropPhrase? phrase)).wholeWords

end VbTidy
