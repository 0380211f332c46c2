/-
Texts as lists of characters: white space and blanks, trimming at either end, cutting at a
character, and the lines of a text.
-/
namespace VbTidy

/-- A text is the list of its characters. -/
abbrev Text := List Char

/-- Whether all members of a list have a property is decided by looking at the members, also where
all values of their type could be looked at instead. -/
instance (priority := high) decidableForallMem {α : Type} {p : α → Prop} [DecidablePred p]
    (l : List α) : Decidable (∀ a ∈ l, p a) :=
  List.decidableBAll p l

/-- White space of every script, with the separators U+001C to U+001F. -/
def isSpace (c : Char) : Bool :=
  let n := c.toNat
  (9 ≤ n && n ≤ 13) || (0x1C ≤ n && n ≤ 0x20) || n == 0x85 || n == 0xA0 || n == 0x1680 ||
  (0x2000 ≤ n && n ≤ 0x200A) || n == 0x2028 || n == 0x2029 || n == 0x202F || n == 0x205F ||
  n == 0x3000

/-- A blank is a space or a tab. -/
def isBlank (c : Char) : Bool :=
  c == ' ' || c == '\t'

theorem isSpace_of_isBlank {c : Char} (h : isBlank c = true) : isSpace c = true := by
  simp only [isBlank, Bool.or_eq_true, beq_iff_eq] at h
  rcases h with rfl | rfl <;> decide

/-- Drops the characters of a class from the end. -/
def dropEnd (p : Char → Bool) (t : Text) : Text :=
  (t.reverse.dropWhile p).reverse

/-- Drops the characters of a class from both ends. -/
def trimBy (p : Char → Bool) (t : Text) : Text :=
  dropEnd p (t.dropWhile p)

/-- A text without the white space at its ends. -/
def trim (t : Text) : Text :=
  trimBy isSpace t

/-- The parts of a text between the separators `sep`; there is always one part. -/
def cutAt (sep : Char) : Text → List Text
  | [] => [[]]
  | c :: t =>
    if c == sep then [] :: cutAt sep t
    else
      match cutAt sep t with
      | [] => [[c]]
      | part :: parts => (c :: part) :: parts

/-- The words of a text: its parts between white space that are not empty. -/
def words : Text → List Text
  | [] => []
  | [c] => if isSpace c then [] else [[c]]
  | c :: d :: t =>
    if isSpace c then words (d :: t)
    else if isSpace d then [c] :: words (d :: t)
    else
      match words (d :: t) with
      | [] => [[c]]
      | w :: ws => (c :: w) :: ws

/-- Whether `part` stands at the end of a text. -/
def endsWith (part t : Text) : Bool :=
  part.isSuffixOf t

/-- Whether `part` occurs in a text. -/
def hasPart (part : Text) : Text → Bool
  | [] => part.isEmpty
  | c :: t => part.isPrefixOf (c :: t) || hasPart part t

/-- The position of the first occurrence of `part` in a text. -/
def find? (part : Text) : Text → Option Nat
  | [] => if part.isEmpty then some 0 else none
  | c :: t => if part.isPrefixOf (c :: t) then some 0 else (find? part t).map (· + 1)

/-- Characters that end a line; a carriage return with a line feed counts as one end. -/
def isLineEnd (c : Char) : Bool :=
  let n := c.toNat
  (10 ≤ n && n ≤ 13) || (0x1C ≤ n && n ≤ 0x1E) || n == 0x85 || n == 0x2028 || n == 0x2029

/-- The lines of a text, without their ends; nothing after the last end is no line. -/
def splitLines : Text → List Text
  | [] => []
  | '\r' :: '\n' :: t => [] :: splitLines t
  | c :: t =>
    if isLineEnd c then [] :: splitLines t
    else
      match splitLines t with
      | [] => [[c]]
      | line :: lines => (c :: line) :: lines

/-- The lines with `newline` between them. -/
def joinLines (newline : Text) (lines : List Text) : Text :=
  newline.intercalate lines

/-- The text before the first line feed. -/
def firstLine (t : Text) : Text :=
  t.takeWhile (· != '\n')

/-- The text after the last line feed. -/
def lastLine (t : Text) : Text :=
  (t.reverse.takeWhile (· != '\n')).reverse

/-- A number in decimal digits. -/
def decimal (n : Nat) : Text :=
  (toString n).toList

@[simp] theorem joinLines_nil (newline : Text) : joinLines newline [] = [] :=
  List.intercalate_nil

@[simp] theorem joinLines_singleton (newline l : Text) : joinLines newline [l] = l :=
  List.intercalate_singleton

theorem joinLines_cons_cons (newline l l' : Text) (ls : List Text) :
    joinLines newline (l :: l' :: ls) = l ++ (newline ++ joinLines newline (l' :: ls)) := by
  rw [joinLines, List.intercalate_cons_cons, List.append_assoc, joinLines]

theorem cutAt_ne_nil (sep : Char) (t : Text) : cutAt sep t ≠ [] := by
  induction t with
  | nil => simp [cutAt]
  | cons c t ih =>
    rw [cutAt]
    split
    · simp
    · split <;> simp

end VbTidy
