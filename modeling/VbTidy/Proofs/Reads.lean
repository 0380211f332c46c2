import VbTidy.Session
import VbTidy.Proofs.Printed

/-
Reading a document part by part. A reader keeps a position on each shelf and fills the tokens of one
part of the document after the other, all kinds in each part. Where a part starts with a character of
no token, nothing that is put back reaches across, so reading two parts in a row is reading them as
one text (`reads_append`): the kinds take turns in another order, and each still takes its literals
first come, first served. From there the lines of a document are read like the document
(`reads_joinLines`), and the line reader gives what putting all kinds back gives
(`lineReader_agrees`).
-/
namespace VbTidy

namespace PerKind

variable {α : Type}

@[simp] theorem set_set (f : PerKind α) (k : Kind) (a b : α) : (f.set k a).set k b = f.set k b := by
  cases k <;> rfl

@[simp] theorem set_get (f : PerKind α) (k : Kind) : f.set k (f.get k) = f := by
  cases k <;> rfl

theorem set_comm (f : PerKind α) {j k : Kind} (h : j ≠ k) (a b : α) :
    (f.set j a).set k b = (f.set k b).set j a := by
  cases j <;> cases k <;> simp_all [set]

end PerKind

/-! ## One kind -/

namespace Shelf

/-- Filling succeeds exactly if there are literals enough from the position on. -/
theorem fill_eq_ok_iff {s : Shelf} {position position' : Nat} {t v : Text} :
    s.fill position t = (.ok v, position') ↔
      s.tokens t ≤ s.remaining position ∧ v = (s.cut t).fillWith (s.literals.drop position) ∧
        position' = position + s.tokens t := by
  have hok : s.tokens t ≤ s.remaining position → s.fill position t =
      (.ok ((s.cut t).fillWith (s.literals.drop position)), position + s.tokens t) := by
    intro h
    rw [remaining] at h
    by_cases hp : position ≤ s.literals.length
    · exact fill_ok (by omega)
    · have hnone : s.tokens t = 0 := by omega
      have hrest : (s.cut t).rest = [] := List.length_eq_zero_iff.mp hnone
      simp [fill, fillRest, Weave.fillWith, hnone, hrest]
  constructor
  · intro h
    by_cases hlen : s.tokens t ≤ s.remaining position
    · rw [hok hlen] at h
      obtain ⟨hv, hposition⟩ := Prod.mk.inj h
      exact ⟨hlen, (Except.ok.inj hv).symm, hposition.symm⟩
    · exfalso
      rw [remaining] at hlen
      by_cases hp : position ≤ s.literals.length
      · rw [fill_short hp (by omega)] at h
        cases h
      · -- a position past the last literal: the first token finds none
        obtain ⟨p, more, hrest⟩ := List.exists_cons_of_length_pos (l := (s.cut t).rest)
          (show 0 < s.tokens t by omega)
        simp [fill, hrest, fillRest, next_end (Nat.le_of_not_le hp)] at h
  · rintro ⟨hlen, rfl, rfl⟩
    exact hok hlen

end Shelf

/-- A break at the start of a text stays there. -/
theorem head_fillWith {k : Kind} {b : Text} (hb : (b.head?).all isBreak = true) (ls : List Text) :
    (((cutTokens k b).fillWith ls).head?).all isBreak = true := by
  cases b with
  | nil =>
    rw [cutTokens_nil]
    simp [Weave.fillWith]
  | cons c b =>
    rw [cutTokens_char k (ne_nul_of_isBreak hb), Weave.fillWith_push]
    exact hb

/-- One kind is put back into two texts in a row, the second from where the first has left off. -/
theorem fill_append {s : Shelf} {k : Kind} (hk : s.name = k.name) {position position' : Nat}
    {a b v : Text} (hb : (b.head?).all isBreak = true) :
    s.fill position (a ++ b) = (.ok v, position') ↔
      ∃ u middle u', s.fill position a = (.ok u, middle) ∧ s.fill middle b = (.ok u', position') ∧
        v = u ++ u' ∧ (u'.head?).all isBreak = true := by
  have hcut : ∀ t, s.cut t = cutTokens k t := by
    intro t
    rw [Shelf.cut, Shelf.token, hk]
    rfl
  have htokens : s.tokens (a ++ b) = s.tokens a + s.tokens b := by
    simp only [Shelf.tokens, hcut, cutTokens_append hb, Weave.rest_append]
  have hfill : s.tokens a ≤ s.literals.length - position →
      (s.cut (a ++ b)).fillWith (s.literals.drop position) =
        (s.cut a).fillWith (s.literals.drop position) ++
          (s.cut b).fillWith (s.literals.drop (position + s.tokens a)) := by
    intro h
    rw [hcut, hcut, hcut, cutTokens_append hb, Weave.fillWith_append_drop, List.drop_drop]
    · rw [Shelf.tokens, hcut]
    · rw [← hcut, List.length_drop]
      exact h
  simp only [Shelf.fill_eq_ok_iff, htokens, Shelf.remaining]
  constructor
  · rintro ⟨hlen, rfl, rfl⟩
    refine ⟨_, _, _, ⟨by omega, rfl, rfl⟩, ⟨by omega, rfl, by omega⟩, hfill (by omega), ?_⟩
    rw [hcut]
    exact head_fillWith hb _
  · rintro ⟨u, middle, u', ⟨hlen, rfl, rfl⟩, ⟨hlen', rfl, rfl⟩, rfl, _⟩
    refine ⟨?_, (hfill hlen).symm, by omega⟩
    omega

/-! ## All kinds -/

/-- A text is read from positions on: with the literals of the kinds it is another text, and the
positions have moved behind these literals. -/
def Reads (s : Shelves) (ks : List Kind) (at_ : PerKind Nat) (t v : Text) (at' : PerKind Nat) :
    Prop :=
  s.fillFrom ks at_ t = (.ok v, at')

section
variable {s : Shelves} {ks : List Kind} {at_ at' : PerKind Nat} {t v : Text}

theorem reads_nil : Reads s [] at_ t v at' ↔ v = t ∧ at' = at_ := by
  simp [Reads, Shelves.fillFrom, eq_comm]

theorem reads_cons {k : Kind} : Reads s (k :: ks) at_ t v at' ↔
    ∃ u position, (s.shelf k).fill (at_.get k) t = (.ok u, position) ∧
      Reads s ks (at_.set k position) u v at' := by
  rw [Reads, Shelves.fillFrom]
  cases hfill : (s.shelf k).fill (at_.get k) t with
  | mk r position =>
    cases r with
    | error f => simp
    | ok u => simp [Reads]

/-- Kinds read leave the positions of the others alone, and do not look at them. -/
theorem Reads.frame {k : Kind} (hk : k ∉ ks) (h : Reads s ks at_ t v at') :
    at'.get k = at_.get k ∧ ∀ n, Reads s ks (at_.set k n) t v (at'.set k n) := by
  induction ks generalizing at_ t with
  | nil =>
    obtain ⟨rfl, rfl⟩ := reads_nil.mp h
    exact ⟨rfl, fun n => reads_nil.mpr ⟨rfl, rfl⟩⟩
  | cons j ks ih =>
    obtain ⟨hjk, hks⟩ := List.ne_and_not_mem_of_not_mem_cons hk
    obtain ⟨u, position, hfill, hmore⟩ := reads_cons.mp h
    obtain ⟨hsame, hframe⟩ := ih hks hmore
    refine ⟨?_, fun n => reads_cons.mpr ⟨u, position, ?_, ?_⟩⟩
    · rw [hsame, PerKind.get_set, if_neg hjk]
    · rw [PerKind.get_set, if_neg (Ne.symm hjk), hfill]
    · rw [PerKind.set_comm _ hjk]
      exact hframe n

/-- Kinds in a row are read kinds after kinds. -/
theorem reads_kinds {js : List Kind} : Reads s (js ++ ks) at_ t v at' ↔
    ∃ u middle, Reads s js at_ t u middle ∧ Reads s ks middle u v at' := by
  induction js generalizing at_ t with
  | nil => simp [reads_nil]
  | cons j js ih =>
    simp only [List.cons_append, reads_cons, ih]
    constructor
    · rintro ⟨u, position, hfill, u', middle, hjs, hks⟩
      exact ⟨u', middle, ⟨u, position, hfill, hjs⟩, hks⟩
    · rintro ⟨u', middle, ⟨u, position, hfill, hjs⟩, hks⟩
      exact ⟨u, position, hfill, u', middle, hjs, hks⟩

/-- A text without NUL reads as it is. -/
theorem reads_of_nul_free (h : '\x00' ∉ t) : Reads s ks at_ t t at_ := by
  induction ks generalizing at_ with
  | nil => exact reads_nil.mpr ⟨rfl, rfl⟩
  | cons k ks ih =>
    have hfill : (s.shelf k).fill (at_.get k) t = (.ok t, at_.get k) := by
      rw [Shelf.fill_eq_ok_iff]
      have hshelf : (s.shelf k).cut t = ⟨t, []⟩ := cutTokens_free k h
      simp [Shelf.tokens, hshelf, Weave.fillWith]
    refine reads_cons.mpr ⟨t, at_.get k, hfill, ?_⟩
    rw [PerKind.set_get]
    exact ih

theorem Reads.unique {v' : Text} {at'' : PerKind Nat} (h : Reads s ks at_ t v at')
    (h' : Reads s ks at_ t v' at'') : v = v' ∧ at' = at'' := by
  obtain ⟨hv, hat⟩ := Prod.mk.inj (h.symm.trans h')
  exact ⟨Except.ok.inj hv, hat⟩

end

/-- Two texts in a row, of which the second starts with a break, are read one after the other. -/
theorem reads_append {s : Shelves} {ks : List Kind} (hnd : ks.Nodup) {at_ at' : PerKind Nat}
    {a b v : Text} (hb : (b.head?).all isBreak = true) :
    Reads s ks at_ (a ++ b) v at' ↔
      ∃ u middle u', Reads s ks at_ a u middle ∧ Reads s ks middle b u' at' ∧ v = u ++ u' := by
  induction ks generalizing at_ at' a b v with
  | nil =>
    simp only [reads_nil]
    constructor
    · rintro ⟨rfl, rfl⟩
      exact ⟨a, at', b, ⟨rfl, rfl⟩, ⟨rfl, rfl⟩, rfl⟩
    · rintro ⟨u, middle, u', ⟨rfl, rfl⟩, ⟨rfl, rfl⟩, rfl⟩
      exact ⟨rfl, rfl⟩
  | cons k ks ih =>
    obtain ⟨hk, hnd⟩ := List.nodup_cons.mp hnd
    constructor
    · intro h
      obtain ⟨t, position, hfill, hmore⟩ := reads_cons.mp h
      obtain ⟨a₁, n, b₁, ha, hb₁, rfl, hbreak⟩ := (fill_append (k := k) rfl hb).mp hfill
      obtain ⟨u, middle, u', hu, hu', rfl⟩ := (ih hnd hbreak).mp hmore
      -- the first text leaves this kind at `n`, where the second goes on
      obtain ⟨hsame, hframe⟩ := hu.frame hk
      rw [PerKind.get_set_self] at hsame
      have hfirst := hframe n
      rw [PerKind.set_set] at hfirst
      refine ⟨u, middle.set k n, u', reads_cons.mpr ⟨a₁, n, ha, hfirst⟩,
        reads_cons.mpr ⟨b₁, position, ?_, ?_⟩, rfl⟩
      · rw [PerKind.get_set_self]
        exact hb₁
      · rw [PerKind.set_set, ← hsame, PerKind.set_get]
        exact hu'
    · rintro ⟨u, middle, u', hu, hu', rfl⟩
      obtain ⟨a₁, n, ha, hu⟩ := reads_cons.mp hu
      obtain ⟨b₁, position, hb₁, hu'⟩ := reads_cons.mp hu'
      obtain ⟨hsame, hframe⟩ := hu.frame hk
      rw [PerKind.get_set_self] at hsame
      rw [hsame] at hb₁
      have hfirst := hframe position
      rw [PerKind.set_set] at hfirst
      have hbreak : (b₁.head?).all isBreak = true := by
        obtain ⟨_, rfl, _⟩ := Shelf.fill_eq_ok_iff.mp hb₁
        exact head_fillWith hb _
      refine reads_cons.mpr ⟨a₁ ++ b₁, position, ?_, ?_⟩
      · exact (fill_append (k := k) rfl hb).mpr ⟨a₁, n, b₁, ha, hb₁, rfl, hbreak⟩
      · exact (ih hnd hbreak).mpr ⟨u, middle.set k position, u', hfirst, hu', rfl⟩

/-- Parts are read one after the other. -/
inductive ReadsAll (s : Shelves) (ks : List Kind) :
    PerKind Nat → List Text → List Text → PerKind Nat → Prop
  | nil {at_ : PerKind Nat} : ReadsAll s ks at_ [] [] at_
  | cons {at_ middle at' : PerKind Nat} {t v : Text} {ts vs : List Text}
      (h : Reads s ks at_ t v middle) (hmore : ReadsAll s ks middle ts vs at') :
      ReadsAll s ks at_ (t :: ts) (v :: vs) at'

namespace ReadsAll

variable {s : Shelves} {ks : List Kind} {at_ at' : PerKind Nat}

theorem length_eq {ts vs : List Text} (h : ReadsAll s ks at_ ts vs at') :
    vs.length = ts.length := by
  induction h with
  | nil => rfl
  | cons _ _ ih => rw [List.length_cons, List.length_cons, ih]

theorem append {middle : PerKind Nat} {ts us vs ws : List Text}
    (h : ReadsAll s ks at_ ts vs middle) (h' : ReadsAll s ks middle us ws at') :
    ReadsAll s ks at_ (ts ++ us) (vs ++ ws) at' := by
  induction h with
  | nil => exact h'
  | cons hfirst _ ih => exact .cons hfirst (ih h')

end ReadsAll

/-! ## Lines -/

section
variable {s : Shelves} {ks : List Kind} {at_ at' : PerKind Nat}

/-- A text without NUL in front is read as it is. -/
theorem reads_nul_free_append {x t v : Text} (hx : '\x00' ∉ x) :
    Reads s ks at_ (x ++ t) v at' ↔ ∃ u, Reads s ks at_ t u at' ∧ v = x ++ u := by
  induction ks generalizing at_ t with
  | nil =>
    simp only [reads_nil]
    constructor
    · rintro ⟨rfl, rfl⟩
      exact ⟨t, ⟨rfl, rfl⟩, rfl⟩
    · rintro ⟨u, ⟨rfl, rfl⟩, rfl⟩
      exact ⟨rfl, rfl⟩
  | cons k ks ih =>
    have hcut : (s.shelf k).cut (x ++ t) = ((s.shelf k).cut t).prepend x :=
      cutTokens_nul_free k hx t
    have htokens : (s.shelf k).tokens (x ++ t) = (s.shelf k).tokens t := by
      rw [Shelf.tokens, hcut]
      rfl
    simp only [reads_cons, Shelf.fill_eq_ok_iff, htokens, hcut, fillWith_prepend]
    constructor
    · rintro ⟨_, position, ⟨hlen, rfl, rfl⟩, h⟩
      obtain ⟨u, hu, rfl⟩ := ih.mp h
      exact ⟨u, ⟨_, _, ⟨hlen, rfl, rfl⟩, hu⟩, rfl⟩
    · rintro ⟨u, ⟨_, position, ⟨hlen, rfl, rfl⟩, h⟩, rfl⟩
      exact ⟨_, _, ⟨hlen, rfl, rfl⟩, ih.mpr ⟨u, h, rfl⟩⟩

/-- Joined lines are read line by line. -/
theorem reads_joinLines (hnd : ks.Nodup) {newline : Text} (hne : newline ≠ [])
    (hn : ∀ c ∈ newline, isBreak c = true) {lines : List Text} {v : Text} :
    Reads s ks at_ (joinLines newline lines) v at' ↔
      ∃ vs, ReadsAll s ks at_ lines vs at' ∧ v = joinLines newline vs := by
  have hnul : '\x00' ∉ newline := fun h => ne_nul_of_isBreak (hn _ h) rfl
  have hbreak := head_breaks_append hne hn
  induction lines generalizing at_ v with
  | nil =>
    constructor
    · intro h
      obtain ⟨rfl, rfl⟩ := h.unique (reads_of_nul_free (t := []) (by simp))
      exact ⟨[], .nil, rfl⟩
    · rintro ⟨vs, hvs, rfl⟩
      cases hvs
      exact reads_of_nul_free (t := []) (by simp)
  | cons l lines ih =>
    cases lines with
    | nil =>
      rw [joinLines_singleton]
      constructor
      · intro h
        exact ⟨[v], .cons h .nil, (joinLines_singleton _ _).symm⟩
      · rintro ⟨vs, hvs, rfl⟩
        cases hvs with
        | cons h hmore =>
          cases hmore
          rwa [joinLines_singleton]
    | cons l' lines =>
      rw [joinLines_cons_cons, reads_append hnd (hbreak _)]
      constructor
      · rintro ⟨u, middle, u', hu, hu', rfl⟩
        obtain ⟨u'', hmore, rfl⟩ := (reads_nul_free_append hnul).mp hu'
        obtain ⟨vs, hvs, rfl⟩ := ih.mp hmore
        cases hvs with
        | cons h hmore => exact ⟨_, .cons hu (.cons h hmore), (joinLines_cons_cons _ _ _ _).symm⟩
      · rintro ⟨vs, hvs, rfl⟩
        cases hvs with
        | cons h hmore =>
          have hrest := ih.mpr ⟨_, hmore, rfl⟩
          cases hmore with
          | cons h' hmore =>
            exact ⟨_, _, _, h, (reads_nul_free_append hnul).mpr ⟨_, hrest, rfl⟩,
              joinLines_cons_cons _ _ _ _⟩

end

/-! ## The line reader -/

/-- Puts the literals of kinds back into a text, kind after kind. -/
def Shelves.putBackAll (s : Shelves) (ks : List Kind) (t : Text) : Except Fault Text :=
  ks.foldlM (fun t k => (s.shelf k).putBack t) t

/-- What putting kinds back gives is read from the start of their shelves. -/
theorem reads_of_putBackAll {s : Shelves} {ks : List Kind} (hnd : ks.Nodup) {at_ : PerKind Nat}
    (hat : ∀ k ∈ ks, at_.get k = 0) {t v : Text} (h : s.putBackAll ks t = .ok v) :
    ∃ at', Reads s ks at_ t v at' := by
  induction ks generalizing at_ t with
  | nil =>
    obtain rfl : t = v := Except.ok.inj h
    exact ⟨at_, reads_nil.mpr ⟨rfl, rfl⟩⟩
  | cons k ks ih =>
    obtain ⟨hk, hnd⟩ := List.nodup_cons.mp hnd
    rw [Shelves.putBackAll, List.foldlM_cons, Shelf.putBack_eq] at h
    split at h
    · rename_i hlen
      rw [ok_bind] at h
      have hset : ∀ j ∈ ks, (at_.set k ((s.shelf k).tokens t)).get j = 0 := by
        intro j hj
        have hjk : j ≠ k := by
          rintro rfl
          exact hk hj
        rw [PerKind.get_set, if_neg hjk]
        exact hat j (List.mem_cons_of_mem _ hj)
      obtain ⟨at', hmore⟩ := ih hnd hset h
      refine ⟨at', reads_cons.mpr ⟨_, _, ?_, hmore⟩⟩
      rw [hat k List.mem_cons_self, Shelf.fill_eq_ok_iff, Shelf.remaining, List.drop_zero]
      exact ⟨by omega, rfl, by omega⟩
    · cases h

/-- Reading parts is feeding them to the line reader. -/
theorem ReadsAll.run {s : Shelves} {at_ at' : PerKind Nat} {ts vs : List Text}
    (h : ReadsAll s Kind.backOrder at_ ts vs at') {session : Session} (hs : session.shelves = s)
    (hat : session.lineReader = at_) :
    session.run (ts.map .fillLine) = vs.map fun v => .ok (.text v) := by
  induction h generalizing session with
  | nil => rfl
  | @cons at_ middle at' t v ts vs hfirst _ ih =>
    have hstep : session.step (.fillLine t) =
        (.ok (.text v), { session with lineReader := middle }) := by
      have hfill : session.shelves.fill session.lineReader t = (.ok v, middle) := by
        rw [hs, hat]
        exact hfirst
      simp [Session.step, hfill, Except.map]
    rw [List.map_cons, Session.run, hstep]
    exact congrArg _ (ih hs rfl)

/-- The segments in which a line is read: the whole line, or the parts before and from its first
equals sign, if it is to be cut and has one. -/
def segments : Text × Bool → List Text
  | (line, false) => [line]
  | (line, true) =>
    match find? ['='] line with
    | none => [line]
    | some i => [line.take i, line.drop i]

theorem ReadsAll.segments {s : Shelves} {ks : List Kind} (hnd : ks.Nodup)
    {at_ at' : PerKind Nat} {line v : Text} (cut : Bool) (h : Reads s ks at_ line v at') :
    ∃ vs, ReadsAll s ks at_ (segments (line, cut)) vs at' ∧ vs.flatten = v := by
  have hwhole : ∃ vs, ReadsAll s ks at_ [line] vs at' ∧ vs.flatten = v :=
    ⟨[v], .cons h .nil, by simp⟩
  cases cut with
  | false => exact hwhole
  | true =>
    rw [VbTidy.segments]
    cases hfind : find? ['='] line with
    | none => exact hwhole
    | some i =>
      obtain ⟨⟨a, b, rfl, rfl⟩, _⟩ := find?_eq_some hfind
      obtain ⟨u, middle, u', hu, hu', rfl⟩ := (reads_append hnd (b := ['='] ++ b) rfl).mp h
      refine ⟨[u, u'], ?_, by simp⟩
      dsimp only
      rw [List.take_left, List.drop_left]
      exact .cons hu (.cons hu' .nil)

/-- The line reader agrees with putting all kinds back. Lines joined by a line break may be put back
as a whole; then a new line reader that is fed the lines in order, each whole or in two segments cut
before its first equals sign, does not fail, and what it gives, joined by the line break, is the
text put back. -/
theorem lineReader_agrees (session : Session) {newline t : Text} {lines : List (Text × Bool)}
    (hne : newline ≠ []) (hn : ∀ c ∈ newline, isLineEnd c = true)
    (h : session.shelves.putBackAll Kind.backOrder (joinLines newline (lines.map Prod.fst)) =
      .ok t) :
    ∃ texts : List (List Text),
      session.run (.newLineReader :: (lines.flatMap segments).map .fillLine) =
        .ok .nothing :: texts.flatten.map (fun v => .ok (.text v)) ∧
      texts.map List.length = lines.map (fun line => (segments line).length) ∧
      joinLines newline (texts.map List.flatten) = t := by
  have hnd : Kind.backOrder.Nodup := by decide
  have hbreak : ∀ c ∈ newline, isBreak c = true :=
    fun c hc => isBreak_of_isSpace (isSpace_of_isLineEnd (hn c hc))
  have hstart : ∀ k ∈ Kind.backOrder, (PerKind.const 0).get k = 0 :=
    fun k _ => PerKind.get_const 0 k
  obtain ⟨at', hread⟩ := reads_of_putBackAll hnd hstart h
  obtain ⟨vs, hvs, rfl⟩ := (reads_joinLines hnd hne hbreak).mp hread
  -- each line is read in its segments, from where the lines before it have left off
  have hlines : ∀ {at_ : PerKind Nat} {lines : List (Text × Bool)} {vs : List Text},
      ReadsAll session.shelves Kind.backOrder at_ (lines.map Prod.fst) vs at' →
      ∃ texts : List (List Text),
        ReadsAll session.shelves Kind.backOrder at_ (lines.flatMap segments) texts.flatten at' ∧
        texts.map List.length = lines.map (fun line => (segments line).length) ∧
        texts.map List.flatten = vs := by
    intro at_ lines
    induction lines generalizing at_ with
    | nil =>
      intro vs hvs
      cases hvs
      exact ⟨[], .nil, rfl, rfl⟩
    | cons line lines ih =>
      intro vs hvs
      cases hvs with
      | cons hline hmore =>
        obtain ⟨parts, hparts, rfl⟩ := ReadsAll.segments hnd line.2 hline
        obtain ⟨texts, htexts, hlen, rfl⟩ := ih hmore
        refine ⟨parts :: texts, ?_, ?_, rfl⟩
        · rw [List.flatMap_cons, List.flatten_cons]
          exact hparts.append htexts
        · rw [List.map_cons, List.map_cons, hlen, hparts.length_eq]
  obtain ⟨texts, htexts, hlen, rfl⟩ := hlines hvs
  refine ⟨texts, ?_, hlen, rfl⟩
  rw [Session.run]
  exact congrArg _ (htexts.run rfl rfl)

/-- Shelves on which a comment has the place of a string in it, and markup has a line break. -/
def nestedShelves : Shelves where
  markup := ["%>\n<%".toList]
  delimiter := []
  string := ["\"a=b\"".toList, "\"c\"".toList, "\"d\"".toList]
  remark := ["'\x00quoted\x00".toList]
  resume := []

/-- A line cut at its equals sign and a whole one, with the three strings read in order. -/
theorem nestedShelves_by_line : ∃ texts : List (List Text),
    Session.run ⟨nestedShelves, PerKind.const 0, PerKind.const 7⟩ [.newLineReader,
        .fillLine "x\x00quoted\x00".toList, .fillLine "=\x00comment\x00".toList,
        .fillLine "y=\x00html\x00\x00quoted\x00".toList] =
      .ok .nothing :: texts.flatten.map (fun v => .ok (.text v)) ∧
    texts.map List.length = [2, 1] ∧
    joinLines ['\r', '\n'] (texts.map List.flatten) =
      "x\"a=b\"='\"c\"\r\ny=%>\n<%\"d\"".toList :=
  @lineReader_agrees ⟨nestedShelves, PerKind.const 0, PerKind.const 7⟩ ['\r', '\n']
    "x\"a=b\"='\"c\"\r\ny=%>\n<%\"d\"".toList
    [("x\x00quoted\x00=\x00comment\x00".toList, true),
      ("y=\x00html\x00\x00quoted\x00".toList, false)]
    (by decide) (by decide) (by decide)

end VbTidy
