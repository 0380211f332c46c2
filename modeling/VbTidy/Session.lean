import VbTidy.Markup

/-
A session of work on shelves: literals are put aside and read back step by step. Each shelf has one
reader, whose position can be set back to the start; literals put aside later are seen by it. The
line reader has a position of its own on each shelf and fills all kinds of tokens.
-/
namespace VbTidy

/-- Shelves in use. -/
structure Session where
  /-- The literals put aside so far. -/
  shelves : Shelves
  /-- The positions of the readers of single shelves. -/
  readers : PerKind Nat
  /-- The positions of the line reader. -/
  lineReader : PerKind Nat
deriving Repr, DecidableEq

/-- One step of work. -/
inductive Step where
  | put (k : Kind) (literal : Text)
  | token (k : Kind)
  | counts
  | putBack (k : Kind) (t : Text)
  | putBackPadded (k : Kind) (t : Text)
  | newReader (k : Kind)
  | next (k : Kind)
  | fill (k : Kind) (t : Text)
  | remaining (k : Kind)
  | position (k : Kind)
  | newLineReader
  | fillLine (t : Text)
deriving Repr, DecidableEq

/-- What a step gives. -/
inductive Reply where
  | nothing
  | text (t : Text)
  | number (n : Nat)
  | counts (f : PerKind Nat)
deriving Repr, DecidableEq

namespace Session

/-- A session before its first step. -/
def new : Session :=
  ⟨Shelves.empty, PerKind.const 0, PerKind.const 0⟩

/-- The numbers of literals on the shelves. -/
def counts (s : Session) : PerKind Nat :=
  s.shelves.map List.length

/-- The effect of a step and what it gives. -/
def step (s : Session) : Step → Except Fault Reply × Session
  | .put k literal =>
    (.ok (.text k.token),
      { s with shelves := s.shelves.set k ((s.shelves.shelf k).put literal).literals })
  | .token k => (.ok (.text k.token), s)
  | .counts => (.ok (.counts s.counts), s)
  | .putBack k t => (((s.shelves.shelf k).putBack t).map .text, s)
  | .putBackPadded k t => (((s.shelves.shelf k).putBackPadded t).map .text, s)
  | .newReader k => (.ok .nothing, { s with readers := s.readers.set k 0 })
  | .next k =>
    let (r, position) := (s.shelves.shelf k).next (s.readers.get k)
    (r.map .text, { s with readers := s.readers.set k position })
  | .fill k t =>
    let (r, position) := (s.shelves.shelf k).fill (s.readers.get k) t
    (r.map .text, { s with readers := s.readers.set k position })
  | .remaining k => (.ok (.number ((s.shelves.shelf k).remaining (s.readers.get k))), s)
  | .position k => (.ok (.number (s.readers.get k)), s)
  | .newLineReader => (.ok .nothing, { s with lineReader := PerKind.const 0 })
  | .fillLine t =>
    let (r, lineReader) := s.shelves.fill s.lineReader t
    (r.map .text, { s with lineReader })

/-- The replies to a list of steps. -/
def run : Session → List Step → List (Except Fault Reply)
  | _, [] => []
  | s, st :: sts =>
    let r := s.step st
    r.1 :: run r.2 sts

end Session

end VbTidy
