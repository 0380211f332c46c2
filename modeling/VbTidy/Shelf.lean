import VbTidy.Fault
import VbTidy.Text.Pattern

/-
Literals kept aside while the text around them is worked on. Each literal of a kind is put on that
kind's shelf and leaves a token in the text, the name of the kind between two NUL characters.
Putting back goes from left to right: the tokens of a kind receive its literals in the order in
which they were put aside.
-/
namespace VbTidy

/-- The token of a name. -/
def tokenOf (name : Text) : Text :=
  '\x00' :: name ++ ['\x00']

/-- The kinds of literals. -/
inductive Kind where
  /-- Host markup around the script code, with the delimiters that border on the code. -/
  | markup
  /-- A delimiter of a client comment. -/
  | delimiter
  /-- A string in double quotes. -/
  | string
  /-- A comment up to the end of its line. -/
  | remark
  /-- The phrase that turns error handling off. -/
  | resume
deriving Repr, DecidableEq

namespace Kind

/-- The name that stands in the tokens of a kind. -/
def name : Kind → Text
  | markup => "html".toList
  | delimiter => "clientcomment".toList
  | string => "quoted".toList
  | remark => "comment".toList
  | resume => "resumenext".toList

/-- The token of a kind. -/
def token (k : Kind) : Text :=
  tokenOf k.name

/-- The order in which the kinds are put back, the reverse of that in which they are put aside. -/
def backOrder : List Kind :=
  [resume, remark, string, delimiter, markup]

end Kind

/-- The literals of one name in the order in which they were put aside. -/
structure Shelf where
  name : Text
  literals : List Text
deriving Repr, DecidableEq

namespace Shelf

/-- The token that stands for a literal of the shelf. -/
def token (s : Shelf) : Text :=
  tokenOf s.name

/-- Puts a literal aside. -/
def put (s : Shelf) (literal : Text) : Shelf :=
  { s with literals := s.literals ++ [literal] }

/-- A text cut at the tokens of the shelf. -/
def cut (s : Shelf) (t : Text) : Weave :=
  (Pattern.literal s.token).weave t

/-- The number of the shelf's tokens in a text. -/
def tokens (s : Shelf) (t : Text) : Nat :=
  (s.cut t).rest.length

/-- How many literals are left from a position on. -/
def remaining (s : Shelf) (position : Nat) : Nat :=
  s.literals.length - position

/-- The literal at a position, and the position after it. Past the last one the position stays. -/
def next (s : Shelf) (position : Nat) : Except Fault Text × Nat :=
  match s.literals[position]? with
  | some literal => (.ok literal, position + 1)
  | none => (.error (.tokenMismatch s.name s.literals.length (position + 1)), position)

/-- The literals from a position on with the texts that follow them. -/
def fillRest (s : Shelf) : Nat → List (Text × Text) → Except Fault Text × Nat
  | position, [] => (.ok [], position)
  | position, (_, after) :: more =>
    match s.next position with
    | (.error f, position) => (.error f, position)
    | (.ok literal, position) =>
      match s.fillRest position more with
      | (.error f, position) => (.error f, position)
      | (.ok t, position) => (.ok (literal ++ after ++ t), position)

/-- Replaces the tokens in a text by the literals from a position on, and gives the position after
them. A failure leaves the position behind the literals used up. -/
def fill (s : Shelf) (position : Nat) (t : Text) : Except Fault Text × Nat :=
  match s.fillRest position (s.cut t).rest with
  | (.error f, position) => (.error f, position)
  | (.ok rest, position) => (.ok ((s.cut t).head ++ rest), position)

/-- Fails unless a text has as many tokens as the shelf has literals. -/
def check (s : Shelf) (t : Text) : Except Fault Unit :=
  if s.tokens t = s.literals.length then .ok ()
  else .error (.tokenMismatch s.name s.literals.length (s.tokens t))

/-- Puts all literals back. -/
def putBack (s : Shelf) (t : Text) : Except Fault Text := do
  s.check t
  (s.fill 0 t).1

end Shelf

/-- One value for each kind. -/
structure PerKind (α : Type) where
  markup : α
  delimiter : α
  string : α
  remark : α
  resume : α
deriving Repr, DecidableEq

namespace PerKind

variable {α : Type}

/-- The same value for each kind. -/
def const (a : α) : PerKind α :=
  ⟨a, a, a, a, a⟩

/-- The value of a kind. -/
def get (f : PerKind α) : Kind → α
  | .markup => f.markup
  | .delimiter => f.delimiter
  | .string => f.string
  | .remark => f.remark
  | .resume => f.resume

/-- Changes the value of a kind. -/
def set (f : PerKind α) (k : Kind) (a : α) : PerKind α :=
  match k with
  | .markup => { f with markup := a }
  | .delimiter => { f with delimiter := a }
  | .string => { f with string := a }
  | .remark => { f with remark := a }
  | .resume => { f with resume := a }

/-- Applies a function to each value. -/
def map {β : Type} (g : α → β) (f : PerKind α) : PerKind β :=
  ⟨g f.markup, g f.delimiter, g f.string, g f.remark, g f.resume⟩

@[simp] theorem get_map {β : Type} (g : α → β) (f : PerKind α) (k : Kind) :
    (f.map g).get k = g (f.get k) := by
  cases k <;> rfl

@[simp] theorem get_const (a : α) (k : Kind) : (const a).get k = a := by
  cases k <;> rfl

theorem get_set (f : PerKind α) (k j : Kind) (a : α) :
    (f.set k a).get j = if j = k then a else f.get j := by
  cases k <;> cases j <;> rfl

@[simp] theorem get_set_self (f : PerKind α) (k : Kind) (a : α) : (f.set k a).get k = a := by
  simp [get_set]

end PerKind

/-- The literals put aside from one document. -/
abbrev Shelves := PerKind (List Text)

namespace Shelves

/-- Shelves without literals. -/
def empty : Shelves :=
  PerKind.const []

/-- The shelf of a kind. -/
def shelf (s : Shelves) (k : Kind) : Shelf :=
  ⟨k.name, s.get k⟩

/-- Fills the tokens of the kinds in a text, kind after kind, from the position of each on. -/
def fillFrom (s : Shelves) : List Kind → PerKind Nat → Text → Except Fault Text × PerKind Nat
  | [], at_, t => (.ok t, at_)
  | k :: ks, at_, t =>
    match (s.shelf k).fill (at_.get k) t with
    | (.error f, position) => (.error f, at_.set k position)
    | (.ok t, position) => s.fillFrom ks (at_.set k position) t

/-- Fills all tokens in the next part of a document, in the order in which they are put back. -/
def fill (s : Shelves) (at_ : PerKind Nat) (t : Text) : Except Fault Text × PerKind Nat :=
  s.fillFrom Kind.backOrder at_ t

end Shelves

end VbTidy
