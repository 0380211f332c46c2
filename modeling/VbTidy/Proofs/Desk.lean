import VbTidy.Proofs.Cut
import VbTidy.Session

/-
Readers at a shelf. Any number of readers share one shelf, and literals may be put on it between
their readings. Each reader gives the literals in the order in which they were put aside, whatever
the others do (`Desk.InOrder`, kept by each turn and so by all work). From this follows what each
turn gives and when it fails (`first_come_first_served`). A session works with two of the readers of
a desk for each kind, its own and that of the line reader (`session_at_desk`).
-/
namespace VbTidy

/-! ## Readings in a row -/

namespace Shelf

variable {s : Shelf}

/-- The literals that readings in a row give, from a position on; the first that fails ends them. -/
def readings (s : Shelf) : Nat → Nat → List Text
  | 0, _ => []
  | n + 1, position =>
    match s.next position with
    | (.ok literal, position) => literal :: s.readings n position
    | (.error _, _) => []

theorem readings_eq (s : Shelf) (n position : Nat) :
    s.readings n position = (s.literals.drop position).take n := by
  induction n generalizing position with
  | zero => rfl
  | succ n ih =>
    rw [readings]
    by_cases hp : position < s.literals.length
    · simp only [next_lt hp, ih, List.drop_eq_getElem_cons hp, List.take_succ_cons]
    · have hend : s.literals.length ≤ position := Nat.le_of_not_lt hp
      simp only [next_end hend, List.drop_eq_nil_of_le hend, List.take_nil]

end Shelf

/-- A text with literals in place of its tokens, one after the other from left to right. What is put
in is not looked at again. -/
inductive FilledIn (token : Text) : List Text → Text → Text → Prop
  | nil : FilledIn token [] [] []
  | token {ls : List Text} {t out : Text} (l : Text) (h : FilledIn token ls t out) :
      FilledIn token (l :: ls) (token ++ t) (l ++ out)
  | char {ls : List Text} {c : Char} {t out : Text} (hc : ¬ token <+: c :: t)
      (h : FilledIn token ls t out) : FilledIn token ls (c :: t) (c :: out)

/-- Literals are put in one for each token, and in one way. -/
theorem filledIn_iff {s : Shelf} {ls : List Text} {t out : Text} :
    FilledIn s.token ls t out ↔ ls.length = s.tokens t ∧ out = (s.cut t).fillWith ls := by
  have hne : s.token ≠ [] := by simp [Shelf.token, tokenOf]
  rw [Shelf.tokens, Shelf.cut]
  constructor
  · intro h
    induction h with
    | nil =>
      rw [Pattern.weave_nil hne]
      exact ⟨rfl, rfl⟩
    | token l _ ih =>
      rw [Pattern.weave_hit hne, Weave.fillWith_pushHit, ← ih.2]
      exact ⟨congrArg Nat.succ ih.1, rfl⟩
    | char hc _ ih =>
      rw [Pattern.weave_miss hc, Weave.fillWith_push, ← ih.2]
      exact ⟨ih.1, rfl⟩
  · rintro ⟨h, rfl⟩
    induction t using Pattern.cut_induction hne generalizing ls with
    | nil =>
      rw [Pattern.weave_nil hne] at h ⊢
      obtain rfl : ls = [] := List.eq_nil_of_length_eq_zero h
      exact .nil
    | hit t ih =>
      rw [Pattern.weave_hit hne] at h ⊢
      obtain ⟨l, ls, rfl⟩ := List.exists_cons_of_length_eq_add_one h
      rw [Weave.fillWith_pushHit]
      exact .token l (ih (Nat.succ.inj h))
    | miss c t hc ih =>
      rw [Pattern.weave_miss hc] at h ⊢
      rw [Weave.fillWith_push]
      exact .char hc (ih h)

/-! ## The desk -/

/-- A reader, with all it has given so far. -/
structure Reader where
  position : Nat
  given : List Text
deriving Repr, DecidableEq

namespace Reader

/-- A reader before its first reading. -/
def new : Reader :=
  ⟨0, []⟩

/-- One reading. -/
def next (s : Shelf) (r : Reader) : Except Fault Text × Reader :=
  let (a, position) := s.next r.position
  (a, ⟨position, r.given ++ s.readings 1 r.position⟩)

/-- A reading for each token of a text. -/
def fill (s : Shelf) (t : Text) (r : Reader) : Except Fault Text × Reader :=
  let (a, position) := s.fill r.position t
  (a, ⟨position, r.given ++ s.readings (s.tokens t) r.position⟩)

end Reader

/-- A shelf and its readers, in the order in which they came. -/
structure Desk where
  shelf : Shelf
  readers : List Reader
deriving Repr, DecidableEq

/-- What may be done at a desk. Readers are named by their number. -/
inductive Turn where
  | put (literal : Text)
  | newReader
  | next (i : Nat)
  | fill (i : Nat) (t : Text)
  | putBack (t : Text)
  | putBackPadded (t : Text)
deriving Repr, DecidableEq

namespace Desk

/-- A desk before the first turn. -/
def new (name : Text) : Desk :=
  ⟨⟨name, []⟩, []⟩

/-- Lets a reader read. Without the reader nothing happens. -/
def read (d : Desk) (i : Nat) (f : Reader → Except Fault Text × Reader) :
    Except Fault Reply × Desk :=
  match d.readers[i]? with
  | none => (.ok .nothing, d)
  | some r =>
    let (a, r) := f r
    (a.map .text, { d with readers := d.readers.set i r })

/-- The effect of a turn and what it gives. -/
def step (d : Desk) : Turn → Except Fault Reply × Desk
  | .put literal => (.ok (.text d.shelf.token), { d with shelf := d.shelf.put literal })
  | .newReader => (.ok .nothing, { d with readers := d.readers ++ [.new] })
  | .next i => d.read i (Reader.next d.shelf)
  | .fill i t => d.read i (Reader.fill d.shelf t)
  | .putBack t => ((d.shelf.putBack t).map .text, d)
  | .putBackPadded t => ((d.shelf.putBackPadded t).map .text, d)

/-- The desk after turns. -/
def after (d : Desk) (turns : List Turn) : Desk :=
  turns.foldl (fun d turn => (d.step turn).2) d

end Desk

/-! ## In order -/

/-- A reader has given the literals in front of its position, in the order of the shelf. -/
structure Reader.InOrder (s : Shelf) (r : Reader) : Prop where
  position_le : r.position ≤ s.literals.length
  given_eq : r.given = s.literals.take r.position

namespace Reader

variable {s : Shelf} {r : Reader}

theorem new_inOrder (s : Shelf) : new.InOrder s :=
  ⟨Nat.zero_le _, rfl⟩

theorem InOrder.put (h : r.InOrder s) (literal : Text) : r.InOrder (s.put literal) := by
  refine ⟨?_, ?_⟩
  · rw [Shelf.put, List.length_append]
    exact Nat.le_add_right_of_le h.position_le
  · rw [Shelf.put, List.take_append_of_le_length h.position_le]
    exact h.given_eq

/-- Readings go on where the literals given end. -/
theorem InOrder.given_readings (h : r.InOrder s) (n : Nat) :
    r.given ++ s.readings n r.position = s.literals.take (r.position + n) := by
  rw [h.given_eq, Shelf.readings_eq, List.take_add]

theorem InOrder.next_ok (h : r.InOrder s) (hleft : 0 < s.remaining r.position) :
    ∃ literal, s.literals[r.position]? = some literal ∧
      r.next s = (.ok literal, ⟨r.position + 1, s.literals.take (r.position + 1)⟩) := by
  have hlt : r.position < s.literals.length := Nat.lt_of_sub_pos hleft
  refine ⟨s.literals[r.position], List.getElem?_eq_getElem hlt, ?_⟩
  rw [next, Shelf.next_lt hlt, h.given_readings]

theorem InOrder.next_short (h : r.InOrder s) (hleft : s.remaining r.position = 0) :
    r.next s = (.error (.tokenMismatch s.name s.literals.length (s.literals.length + 1)), r) := by
  have hend : r.position = s.literals.length :=
    Nat.le_antisymm h.position_le (Nat.le_of_sub_eq_zero hleft)
  have hgiven : r.given ++ s.readings 1 r.position = r.given := by
    rw [h.given_readings, h.given_eq, hend, List.take_length, List.take_of_length_le (by omega)]
  rw [next, Shelf.next_end (Nat.le_of_eq hend.symm), hgiven, ← hend]

theorem InOrder.fill_ok {t : Text} (h : r.InOrder s) (hleft : s.tokens t ≤ s.remaining r.position) :
    r.fill s t = (.ok ((s.cut t).fillWith (s.literals.drop r.position)),
      ⟨r.position + s.tokens t, s.literals.take (r.position + s.tokens t)⟩) := by
  have hle : r.position + s.tokens t ≤ s.literals.length := by
    have hposition := h.position_le
    rw [Shelf.remaining] at hleft
    omega
  rw [fill, Shelf.fill_ok hle, h.given_readings]

theorem InOrder.fill_short {t : Text} (h : r.InOrder s)
    (hleft : s.remaining r.position < s.tokens t) :
    r.fill s t = (.error (.tokenMismatch s.name s.literals.length (s.literals.length + 1)),
      ⟨s.literals.length, s.literals⟩) := by
  have hlt : s.literals.length < r.position + s.tokens t := by
    rw [Shelf.remaining] at hleft
    omega
  rw [fill, Shelf.fill_short h.position_le hlt, h.given_readings,
    List.take_of_length_le (Nat.le_of_lt hlt)]

/-- A reading keeps the order and does not go back. -/
theorem InOrder.next (h : r.InOrder s) :
    (r.next s).2.InOrder s ∧ r.position ≤ (r.next s).2.position := by
  by_cases hleft : s.remaining r.position = 0
  · rw [h.next_short hleft]
    exact ⟨h, Nat.le_refl _⟩
  · have hpos : 0 < s.remaining r.position := Nat.pos_of_ne_zero hleft
    obtain ⟨literal, _, hnext⟩ := h.next_ok hpos
    rw [hnext]
    exact ⟨⟨Nat.lt_of_sub_pos hpos, rfl⟩, Nat.le_succ _⟩

/-- So do readings for the tokens of a text, also if they fail. -/
theorem InOrder.fill (h : r.InOrder s) (t : Text) :
    (r.fill s t).2.InOrder s ∧ r.position ≤ (r.fill s t).2.position := by
  by_cases hleft : s.tokens t ≤ s.remaining r.position
  · rw [h.fill_ok hleft]
    refine ⟨⟨?_, rfl⟩, Nat.le_add_right _ _⟩
    have hposition := h.position_le
    rw [Shelf.remaining] at hleft
    dsimp only
    omega
  · rw [h.fill_short (Nat.lt_of_not_le hleft)]
    exact ⟨⟨Nat.le_refl _, List.take_length.symm⟩, h.position_le⟩

end Reader

namespace Desk

variable {d e : Desk}

/-- All readers are in order. -/
def InOrder (d : Desk) : Prop :=
  ∀ r ∈ d.readers, r.InOrder d.shelf

/-- A desk later on: the shelf has the literals it had, and maybe more behind them, and no reader
has left or gone back. -/
structure Onward (d e : Desk) : Prop where
  name_eq : e.shelf.name = d.shelf.name
  literals : d.shelf.literals <+: e.shelf.literals
  readers : ∀ (i : Nat) (r : Reader), d.readers[i]? = some r →
    ∃ r', e.readers[i]? = some r' ∧ r.position ≤ r'.position

theorem Onward.refl (d : Desk) : d.Onward d :=
  ⟨rfl, List.prefix_refl _, fun _ r h => ⟨r, h, Nat.le_refl _⟩⟩

theorem Onward.trans {f : Desk} (h : d.Onward e) (h' : e.Onward f) : d.Onward f := by
  refine ⟨h'.name_eq.trans h.name_eq, h.literals.trans h'.literals, fun i r hr => ?_⟩
  obtain ⟨r', hr', hle⟩ := h.readers i r hr
  obtain ⟨r'', hr'', hle'⟩ := h'.readers i r' hr'
  exact ⟨r'', hr'', Nat.le_trans hle hle'⟩

/-- What keeps the order of one reader and does not go back keeps that of the desk. -/
theorem InOrder.read (h : d.InOrder) (i : Nat) {f : Reader → Except Fault Text × Reader}
    (hf : ∀ r, r.InOrder d.shelf → (f r).2.InOrder d.shelf ∧ r.position ≤ (f r).2.position) :
    (d.read i f).2.InOrder ∧ d.Onward (d.read i f).2 := by
  cases hr : d.readers[i]? with
  | none =>
    rw [Desk.read, hr]
    exact ⟨h, .refl d⟩
  | some r =>
    obtain ⟨horder, hle⟩ := hf r (h r (List.mem_of_getElem? hr))
    rw [Desk.read, hr]
    refine ⟨fun q hq => ?_, rfl, List.prefix_refl _, fun j q hq => ?_⟩
    · rcases List.mem_or_eq_of_mem_set hq with hq | rfl
      · exact h q hq
      · exact horder
    · by_cases hij : i = j
      · subst hij
        obtain rfl : r = q := Option.some.inj (hr.symm.trans hq)
        have hi : i < d.readers.length := (List.getElem?_eq_some_iff.mp hr).1
        exact ⟨(f r).2, List.getElem?_set_self hi, hle⟩
      · exact ⟨q, (List.getElem?_set_ne hij).trans hq, Nat.le_refl _⟩

/-- Each turn keeps the order, and nobody goes back. -/
theorem InOrder.step (h : d.InOrder) (turn : Turn) :
    (d.step turn).2.InOrder ∧ d.Onward (d.step turn).2 := by
  cases turn with
  | put literal =>
    refine ⟨fun r hr => (h r hr).put literal, rfl, List.prefix_append _ _, fun i r hr => ?_⟩
    exact ⟨r, hr, Nat.le_refl _⟩
  | newReader =>
    refine ⟨fun r hr => ?_, rfl, List.prefix_refl _, fun i r hr => ?_⟩
    · rcases List.mem_append.mp hr with hr | hr
      · exact h r hr
      · rw [List.mem_singleton.mp hr]
        exact Reader.new_inOrder _
    · have hi : i < d.readers.length := (List.getElem?_eq_some_iff.mp hr).1
      exact ⟨r, (List.getElem?_append_left hi).trans hr, Nat.le_refl _⟩
  | next i => exact h.read i fun r hr => hr.next
  | fill i t => exact h.read i fun r hr => hr.fill t
  | putBack t => exact ⟨h, .refl d⟩
  | putBackPadded t => exact ⟨h, .refl d⟩

/-- So does all work. -/
theorem InOrder.after (h : d.InOrder) (turns : List Turn) :
    (d.after turns).InOrder ∧ d.Onward (d.after turns) := by
  induction turns generalizing d with
  | nil => exact ⟨h, .refl d⟩
  | cons turn turns ih =>
    obtain ⟨hstep, honward⟩ := h.step turn
    obtain ⟨horder, hmore⟩ := ih hstep
    exact ⟨horder, honward.trans hmore⟩

theorem new_inOrder (name : Text) : (new name).InOrder :=
  fun _ hr => absurd hr List.not_mem_nil

end Desk

/-! ## First come, first served -/

/-- What holds of a desk at any time. -/
structure FirstComeFirstServed (d : Desk) : Prop where
  /-- Each reader has given the literals in front of its position, in order. -/
  given : ∀ r ∈ d.readers,
    r.position ≤ d.shelf.literals.length ∧ r.given = d.shelf.literals.take r.position
  /-- Whatever is done next, the shelf keeps its literals and no reader goes back. -/
  forward : ∀ turns, d.Onward (d.after turns)
  /-- A reading fails, and changes nothing, exactly if nothing is left. Otherwise it gives the next
  literal. -/
  next : ∀ (i : Nat) (r : Reader), d.readers[i]? = some r →
    (d.shelf.remaining r.position = 0 →
      d.step (.next i) = (.error (.tokenMismatch d.shelf.name d.shelf.literals.length
        (d.shelf.literals.length + 1)), d)) ∧
    (0 < d.shelf.remaining r.position → ∃ literal,
      d.shelf.literals[r.position]? = some literal ∧
      d.step (.next i) = (.ok (.text literal),
        { d with readers := d.readers.set i ⟨r.position + 1, r.given ++ [literal]⟩ }))
  /-- Filling a text fails exactly if it has more tokens than literals are left, which are then used
  up. Otherwise the next literals take the places of the tokens. -/
  fill : ∀ (i : Nat) (r : Reader) (t : Text), d.readers[i]? = some r →
    (d.shelf.remaining r.position < d.shelf.tokens t →
      d.step (.fill i t) = (.error (.tokenMismatch d.shelf.name d.shelf.literals.length
          (d.shelf.literals.length + 1)),
        { d with readers := d.readers.set i ⟨d.shelf.literals.length, d.shelf.literals⟩ })) ∧
    (d.shelf.tokens t ≤ d.shelf.remaining r.position → ∃ out,
      FilledIn d.shelf.token ((d.shelf.literals.drop r.position).take (d.shelf.tokens t)) t out ∧
      d.step (.fill i t) = (.ok (.text out),
        { d with readers := d.readers.set i ⟨r.position + d.shelf.tokens t,
          r.given ++ (d.shelf.literals.drop r.position).take (d.shelf.tokens t)⟩ }))
  /-- Putting all back fails exactly if there are more or fewer tokens than literals. It changes
  nothing at the desk. -/
  putBack : ∀ t : Text,
    (d.shelf.tokens t ≠ d.shelf.literals.length →
      d.step (.putBack t) = (.error (.tokenMismatch d.shelf.name d.shelf.literals.length
        (d.shelf.tokens t)), d)) ∧
    (d.shelf.tokens t = d.shelf.literals.length → ∃ out,
      FilledIn d.shelf.token d.shelf.literals t out ∧
      d.step (.putBack t) = (.ok (.text out), d))
  /-- Nor does putting all back with padding, which fails in the same cases. -/
  putBackPadded : ∀ t : Text,
    (d.shelf.tokens t ≠ d.shelf.literals.length →
      d.step (.putBackPadded t) = (.error (.tokenMismatch d.shelf.name d.shelf.literals.length
        (d.shelf.tokens t)), d)) ∧
    (d.shelf.tokens t = d.shelf.literals.length → ∃ out,
      d.step (.putBackPadded t) = (.ok (.text out), d))

namespace Desk

variable {d : Desk} {i : Nat} {r : Reader}

theorem read_some (hr : d.readers[i]? = some r) (f : Reader → Except Fault Text × Reader) :
    d.read i f = ((f r).1.map .text, { d with readers := d.readers.set i (f r).2 }) := by
  rw [read, hr]

/-- A reader that stays as it is changes nothing. -/
theorem set_self (hr : d.readers[i]? = some r) : { d with readers := d.readers.set i r } = d := by
  obtain ⟨hi, rfl⟩ := List.getElem?_eq_some_iff.mp hr
  rw [List.set_getElem_self]

/-- A desk in order serves its readers first come, first served. -/
theorem InOrder.served (h : d.InOrder) : FirstComeFirstServed d where
  given r hr := ⟨(h r hr).position_le, (h r hr).given_eq⟩
  forward turns := (h.after turns).2
  next i r hr := by
    have horder := h r (List.mem_of_getElem? hr)
    rw [Desk.step, read_some hr]
    constructor
    · intro hleft
      rw [horder.next_short hleft, set_self hr]
      rfl
    · intro hleft
      obtain ⟨literal, hget, hnext⟩ := horder.next_ok hleft
      refine ⟨literal, hget, ?_⟩
      rw [hnext, List.take_add_one, hget, ← horder.given_eq]
      rfl
  fill i r t hr := by
    have horder := h r (List.mem_of_getElem? hr)
    rw [Desk.step, read_some hr]
    constructor
    · intro hleft
      rw [horder.fill_short hleft]
      rfl
    · intro hleft
      have hlen : ((d.shelf.literals.drop r.position).take (d.shelf.tokens t)).length =
          d.shelf.tokens t := by
        rw [List.length_take, List.length_drop]
        exact Nat.min_eq_left hleft
      refine ⟨_, filledIn_iff.mpr ⟨hlen, rfl⟩, ?_⟩
      rw [horder.fill_ok hleft, List.take_add, ← horder.given_eq, Shelf.tokens, Weave.fillWith_take]
      rfl
  putBack t := by
    rw [Desk.step, Shelf.putBack_eq]
    constructor
    · intro hlen
      rw [if_neg hlen]
      rfl
    · intro hlen
      refine ⟨_, filledIn_iff.mpr ⟨hlen.symm, rfl⟩, ?_⟩
      rw [if_pos hlen]
      rfl
  putBackPadded t := by
    rw [Desk.step, Shelf.putBackPadded, Shelf.check]
    constructor
    · intro hlen
      rw [if_neg hlen]
      rfl
    · intro hlen
      rw [if_pos hlen]
      exact ⟨_, rfl⟩

end Desk

/-- At a desk with any number of readers, literals may be put on the shelf, readers may come, read
and fill texts, and all may be put back, in any order. At any time each reader has given the first
literals of the shelf, as many as its position says, and each turn fails exactly when the literals do
not suffice for it. -/
theorem first_come_first_served (name : Text) (turns : List Turn) :
    FirstComeFirstServed ((Desk.new name).after turns) :=
  ((Desk.new_inOrder name).after turns).1.served

/-- Two readers in turn. The second fills a text for which the literals do not suffice. -/
example :
    ((Desk.new ['k']).after [.put ['a'], .newReader, .next 0, .newReader, .put ['b'],
      .fill 1 "\x00k\x00=\x00k\x00=\x00k\x00".toList, .next 0]).readers =
    [⟨2, [['a'], ['b']]⟩, ⟨2, [['a'], ['b']]⟩] := by
  decide

/-! ## Sessions -/

/-- The line reader fills texts, one or none for each time a kind is read. -/
theorem fillFrom_position (s : Shelves) (ks : List Kind) (at_ : PerKind Nat) (t : Text) (k : Kind) :
    ∃ us : List Text, (s.fillFrom ks at_ t).2.get k =
      us.foldl (fun position u => ((s.shelf k).fill position u).2) (at_.get k) := by
  induction ks generalizing at_ t with
  | nil => exact ⟨[], rfl⟩
  | cons j ks ih =>
    rw [Shelves.fillFrom]
    cases hfill : (s.shelf j).fill (at_.get j) t with
    | mk a position =>
      -- a kind that is not `k` does not move the position of `k`
      have hget : (at_.set j position).get k =
          if k = j then ((s.shelf k).fill (at_.get k) t).2 else at_.get k := by
        rw [PerKind.get_set]
        split
        · next h => rw [h, hfill]
        · rfl
      cases a with
      | error f =>
        dsimp only
        rw [hget]
        split
        · exact ⟨[t], rfl⟩
        · exact ⟨[], rfl⟩
      | ok u =>
        obtain ⟨us, hus⟩ := ih (at_.set j position) u
        dsimp only
        rw [hus, hget]
        split
        · exact ⟨t :: us, rfl⟩
        · exact ⟨us, rfl⟩

/-- A session works at a desk: the desk has its shelf of the kind, and two readers of the desk stand
where its own reader and its line reader do. -/
structure Session.AtDesk (s : Session) (k : Kind) (d : Desk) (own line : Nat) : Prop where
  shelf_eq : d.shelf = s.shelves.shelf k
  own_position : d.readers[own]?.map Reader.position = some (s.readers.get k)
  line_position : d.readers[line]?.map Reader.position = some (s.lineReader.get k)
  own_ne_line : own ≠ line

namespace Desk

/-- A reading moves the position of its reader only. -/
theorem position_read {d : Desk} {i position : Nat}
    (h : d.readers[i]?.map Reader.position = some position)
    {f : Reader → Except Fault Text × Reader} {g : Nat → Nat}
    (hf : ∀ r, (f r).2.position = g r.position) :
    (d.read i f).2.shelf = d.shelf ∧
    (d.read i f).2.readers[i]?.map Reader.position = some (g position) ∧
    ∀ j, j ≠ i → (d.read i f).2.readers[j]? = d.readers[j]? := by
  obtain ⟨r, hr, rfl⟩ := Option.map_eq_some_iff.mp h
  have hi : i < d.readers.length := (List.getElem?_eq_some_iff.mp hr).1
  rw [read_some hr]
  refine ⟨rfl, ?_, fun j hj => List.getElem?_set_ne (Ne.symm hj)⟩
  rw [List.getElem?_set_self hi, Option.map_some, hf]

/-- So do texts that one reader fills. -/
theorem position_fills {d : Desk} {i position : Nat}
    (h : d.readers[i]?.map Reader.position = some position) (us : List Text) :
    (d.after (us.map (.fill i))).shelf = d.shelf ∧
    (d.after (us.map (.fill i))).readers[i]?.map Reader.position =
      some (us.foldl (fun position u => (d.shelf.fill position u).2) position) ∧
    ∀ j, j ≠ i → (d.after (us.map (.fill i))).readers[j]? = d.readers[j]? := by
  induction us generalizing d position with
  | nil => exact ⟨rfl, h, fun _ _ => rfl⟩
  | cons u us ih =>
    obtain ⟨hshelf, hposition, hothers⟩ := position_read h (f := Reader.fill d.shelf u)
      (g := fun position => (d.shelf.fill position u).2) fun _ => rfl
    obtain ⟨hshelf', hposition', hothers'⟩ := ih hposition
    rw [hshelf] at hshelf' hposition'
    exact ⟨hshelf', hposition', fun j hj => (hothers' j hj).trans (hothers j hj)⟩

end Desk

namespace Session.AtDesk

variable {s : Session} {k : Kind} {d : Desk} {own line : Nat}

/-- What a session gives for one shelf is what the desk gives. -/
theorem replies (h : s.AtDesk k d own line) (t : Text) :
    (s.step (.next k)).1 = (d.step (.next own)).1 ∧
    (s.step (.fill k t)).1 = (d.step (.fill own t)).1 ∧
    (s.step (.putBack k t)).1 = (d.step (.putBack t)).1 ∧
    (s.step (.putBackPadded k t)).1 = (d.step (.putBackPadded t)).1 := by
  obtain ⟨r, hr, hposition⟩ := Option.map_eq_some_iff.mp h.own_position
  simp only [Session.step, Desk.step, Desk.read_some hr, Reader.next, Reader.fill, h.shelf_eq,
    hposition, and_self]

/-- The reader of another shelf does not count. -/
theorem other_reader (h : s.AtDesk k d own line) {j : Kind} (hj : j ≠ k) (position : Nat) :
    ({ s with readers := s.readers.set j position } : Session).AtDesk k d own line := by
  refine { h with own_position := ?_ }
  rw [PerKind.get_set, if_neg (Ne.symm hj)]
  exact h.own_position

/-- A reading by the session's own reader. -/
theorem read (h : s.AtDesk k d own line) {f : Reader → Except Fault Text × Reader} {g : Nat → Nat}
    (hf : ∀ r, (f r).2.position = g r.position) :
    ({ s with readers := s.readers.set k (g (s.readers.get k)) } : Session).AtDesk k
      (d.read own f).2 own line := by
  obtain ⟨hshelf, hposition, hothers⟩ := Desk.position_read h.own_position hf
  refine ⟨hshelf.trans h.shelf_eq, ?_, ?_, h.own_ne_line⟩
  · rw [hposition, PerKind.get_set_self]
  · rw [hothers line (Ne.symm h.own_ne_line)]
    exact h.line_position

/-- Each step of a session is turns at the desk. -/
theorem step (h : s.AtDesk k d own line) (st : Step) :
    ∃ turns own line, (s.step st).2.AtDesk k (d.after turns) own line := by
  have hown : own < d.readers.length := by
    obtain ⟨r, hr, _⟩ := Option.map_eq_some_iff.mp h.own_position
    exact (List.getElem?_eq_some_iff.mp hr).1
  have hline : line < d.readers.length := by
    obtain ⟨r, hr, _⟩ := Option.map_eq_some_iff.mp h.line_position
    exact (List.getElem?_eq_some_iff.mp hr).1
  have hkept : ∀ {i : Nat}, i < d.readers.length → (d.readers ++ [.new])[i]? = d.readers[i]? :=
    fun hi => List.getElem?_append_left hi
  cases st with
  | put j literal =>
    by_cases hj : j = k
    · subst hj
      refine ⟨[.put literal], own, line, { h with shelf_eq := ?_ }⟩
      simp [Desk.after, Desk.step, Session.step, h.shelf_eq, Shelf.put, Shelves.shelf]
    · refine ⟨[], own, line, { h with shelf_eq := ?_ }⟩
      simp [Desk.after, Session.step, h.shelf_eq, Shelves.shelf, PerKind.get_set, Ne.symm hj]
  | newReader j =>
    by_cases hj : j = k
    · subst hj
      refine ⟨[.newReader], d.readers.length, line, h.shelf_eq, ?_, ?_, Nat.ne_of_gt hline⟩
      · simp [Desk.after, Desk.step, Session.step, Reader.new]
      · exact (congrArg _ (hkept hline)).trans h.line_position
    · exact ⟨[], own, line, h.other_reader hj 0⟩
  | next j =>
    by_cases hj : j = k
    · subst hj
      refine ⟨[.next own], own, line, ?_⟩
      exact h.read (f := Reader.next d.shelf) (g := fun p => ((s.shelves.shelf j).next p).2)
        fun r => by rw [← h.shelf_eq]; rfl
    · exact ⟨[], own, line, h.other_reader hj _⟩
  | fill j t =>
    by_cases hj : j = k
    · subst hj
      refine ⟨[.fill own t], own, line, ?_⟩
      exact h.read (f := Reader.fill d.shelf t) (g := fun p => ((s.shelves.shelf j).fill p t).2)
        fun r => by rw [← h.shelf_eq]; rfl
    · exact ⟨[], own, line, h.other_reader hj _⟩
  | newLineReader =>
    refine ⟨[.newReader], own, d.readers.length, h.shelf_eq, ?_, ?_, Nat.ne_of_lt hown⟩
    · exact (congrArg _ (hkept hown)).trans h.own_position
    · simp [Desk.after, Desk.step, Session.step, Reader.new]
  | fillLine t =>
    obtain ⟨us, hus⟩ := fillFrom_position s.shelves Kind.backOrder s.lineReader t k
    obtain ⟨hshelf, hposition, hothers⟩ := Desk.position_fills h.line_position us
    refine ⟨us.map (.fill line), own, line, hshelf.trans h.shelf_eq, ?_, ?_, h.own_ne_line⟩
    · rw [hothers own h.own_ne_line]
      exact h.own_position
    · rw [hposition, h.shelf_eq, ← hus]
      rfl
  | token | counts | putBack | putBackPadded | remaining | position => exact ⟨[], own, line, h⟩

end Session.AtDesk

/-- The session after steps. -/
def Session.after (s : Session) (sts : List Step) : Session :=
  sts.foldl (fun s st => (s.step st).2) s

/-- All steps of a session are turns at the desk. -/
theorem Session.AtDesk.after {s : Session} {k : Kind} {d : Desk} {own line : Nat}
    (h : s.AtDesk k d own line) (sts : List Step) :
    ∃ turns own line, (s.after sts).AtDesk k (d.after turns) own line := by
  induction sts generalizing s d own line with
  | nil => exact ⟨[], own, line, h⟩
  | cons st sts ih =>
    obtain ⟨turns, own, line, h⟩ := h.step st
    obtain ⟨more, own, line, h⟩ := ih h
    refine ⟨turns ++ more, own, line, ?_⟩
    rw [Desk.after, List.foldl_append]
    exact h

/-- At any time a session works, for each kind, at a desk that serves first come, first served. -/
theorem session_at_desk (k : Kind) (sts : List Step) :
    ∃ d own line, (Session.new.after sts).AtDesk k d own line ∧ FirstComeFirstServed d := by
  have hnew : Session.new.AtDesk k ((Desk.new k.name).after [.newReader, .newReader]) 0 1 := by
    refine ⟨?_, ?_, ?_, Nat.zero_ne_one⟩ <;> cases k <;> rfl
  obtain ⟨turns, own, line, h⟩ := hnew.after sts
  have horder := ((Desk.new_inOrder k.name).after [.newReader, .newReader]).1
  exact ⟨_, own, line, h, (horder.after turns).1.served⟩

/-- No reader of a session stands behind the last literal of its shelf. -/
theorem session_positions_le (k : Kind) (sts : List Step) :
    (Session.new.after sts).readers.get k ≤ (Session.new.after sts).counts.get k ∧
    (Session.new.after sts).lineReader.get k ≤ (Session.new.after sts).counts.get k := by
  obtain ⟨d, own, line, h, hserved⟩ := session_at_desk k sts
  have hcount : (Session.new.after sts).counts.get k = d.shelf.literals.length := by
    rw [h.shelf_eq, Session.counts, PerKind.get_map]
    rfl
  rw [hcount]
  constructor
  · obtain ⟨r, hr, hposition⟩ := Option.map_eq_some_iff.mp h.own_position
    rw [← hposition]
    exact (hserved.given r (List.mem_of_getElem? hr)).1
  · obtain ⟨r, hr, hposition⟩ := Option.map_eq_some_iff.mp h.line_position
    rw [← hposition]
    exact (hserved.given r (List.mem_of_getElem? hr)).1

end VbTidy
