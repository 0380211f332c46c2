import Mathlib.Data.List.Forall2
import VbTidy.Shelf

/-
The cut of a text at a fixed part. The cut is found from left to right, so it obeys two equations:
a text that starts with the part has it as its first match, and any other text passes its first
character on. From these follows when the cut of two texts in a row is the cut of each of them:
when no match can reach from the first into the second. Putting literals into the cut is then
counted once and for all: it succeeds exactly when the literals suffice. What stands behind a word is
found letter by letter (`dropWord?_iff`).
-/
namespace VbTidy

theorem getLast?_cons_or {α : Type} (a : α) (l : List α) (o : Option α) :
    (a :: l).getLast?.or o = l.getLast?.or (some a) := by
  rw [List.getLast?_cons]
  cases l.getLast? <;> rfl

namespace Weave

/-- The text between the matches: before the first, between each two, after the last. -/
def gaps (w : Weave) : List Text :=
  w.head :: w.rest.map Prod.snd

theorem head_mem_gaps (w : Weave) : w.head ∈ w.gaps :=
  List.mem_cons_self

/-- The cut with literals in place of the matches, in order. -/
def fillWith (ls : List Text) (w : Weave) : Text :=
  w.head ++ (ls.zip (w.rest.map Prod.snd)).flatMap fun p => p.1 ++ p.2

/-- Puts a text in front. -/
def prepend (t : Text) (w : Weave) : Weave :=
  ⟨t ++ w.head, w.rest⟩

/-- The cut of two texts in a row, from the matches and gaps of the first. -/
def appendRest : Text → List (Text × Text) → Weave → Weave
  | gap, [], v => v.prepend gap
  | gap, (hit, after) :: more, v => ((appendRest after more v).pushHit hit).prepend gap

/-- The cut of two texts in a row. -/
def append (w v : Weave) : Weave :=
  appendRest w.head w.rest v

theorem appendRest_cons (gap hit after : Text) (more : List (Text × Text)) (v : Weave) :
    appendRest gap ((hit, after) :: more) v =
      ⟨gap, (hit, (appendRest after more v).head) :: (appendRest after more v).rest⟩ := by
  have hfirst : appendRest gap ((hit, after) :: more) v =
      ((appendRest after more v).pushHit hit).prepend gap := rfl
  rw [hfirst, pushHit, prepend, List.append_nil]

theorem append_last (head : Text) (v : Weave) :
    append ⟨head, []⟩ v = ⟨head ++ v.head, v.rest⟩ :=
  rfl

/-- The first match of two cuts in a row is the first match of the first cut. -/
theorem append_cons (head : Text) (p : Text × Text) (rest : List (Text × Text)) (v : Weave) :
    append ⟨head, p :: rest⟩ v =
      ⟨head, (p.1, (append ⟨p.2, rest⟩ v).head) :: (append ⟨p.2, rest⟩ v).rest⟩ :=
  appendRest_cons head p.1 p.2 rest v

@[simp] theorem append_push (c : Char) (w v : Weave) :
    (w.push c).append v = (w.append v).push c := by
  obtain ⟨head, rest⟩ := w
  cases rest with
  | nil => rfl
  | cons p rest => rw [push, append_cons, append_cons, push]

@[simp] theorem append_pushHit (hit : Text) (w v : Weave) :
    (w.pushHit hit).append v = (w.append v).pushHit hit := by
  rw [pushHit, append_cons]
  rfl

@[simp] theorem nil_append (v : Weave) : append ⟨[], []⟩ v = v := by
  simp [append_last]

/-- Without a gap the matches of the second follow those of the first. -/
theorem append_hits_only (w : Weave) (rest : List (Text × Text)) :
    w.append ⟨[], rest⟩ = ⟨w.head, w.rest ++ rest⟩ := by
  obtain ⟨head, hits⟩ := w
  induction hits generalizing head with
  | nil => simp [append_last]
  | cons p hits ih => simp [append_cons, ih]

theorem rest_append (w v : Weave) :
    (w.append v).rest.length = w.rest.length + v.rest.length := by
  obtain ⟨head, rest⟩ := w
  induction rest generalizing head with
  | nil => simp [append_last]
  | cons p rest ih =>
    simp [append_cons, ih]
    omega

theorem hits_append (w v : Weave) : (w.append v).hits = w.hits ++ v.hits := by
  obtain ⟨head, rest⟩ := w
  induction rest generalizing head with
  | nil => simp [append_last, hits]
  | cons p rest ih =>
    have h := ih p.2
    simp only [hits] at h
    simp [append_cons, hits, h]

theorem replace_append (f : Text → Text) (w v : Weave) :
    (w.append v).replace f = w.replace f ++ v.replace f := by
  obtain ⟨head, rest⟩ := w
  induction rest generalizing head with
  | nil => simp [append_last, replace]
  | cons p rest ih =>
    have h := ih p.2
    simp only [replace] at h
    simp [append_cons, replace, h]

@[simp] theorem fillWith_push (ls : List Text) (c : Char) (w : Weave) :
    (w.push c).fillWith ls = c :: w.fillWith ls := by
  simp [fillWith, push]

@[simp] theorem fillWith_pushHit (l : Text) (ls : List Text) (hit : Text) (w : Weave) :
    (w.pushHit hit).fillWith (l :: ls) = l ++ w.fillWith ls := by
  simp [fillWith, pushHit]

/-- Literals go to the first of two cuts as long as it has matches, the others to the second. -/
theorem fillWith_append (ls ms : List Text) (w v : Weave) (h : ls.length = w.rest.length) :
    (w.append v).fillWith (ls ++ ms) = w.fillWith ls ++ v.fillWith ms := by
  obtain ⟨head, rest⟩ := w
  induction rest generalizing head ls with
  | nil =>
    obtain rfl : ls = [] := List.eq_nil_of_length_eq_zero h
    simp [append_last, fillWith]
  | cons p rest ih =>
    obtain ⟨l, ls, rfl⟩ := List.exists_cons_of_length_pos (l := ls) (by simp at h; omega)
    have h := ih ls p.2 (by simpa using h)
    simp only [fillWith] at h
    simp [append_cons, fillWith, h]

/-- Literals beyond the matches do not count. -/
theorem fillWith_take (ls : List Text) (w : Weave) :
    w.fillWith (ls.take w.rest.length) = w.fillWith ls := by
  obtain ⟨head, rest⟩ := w
  induction rest generalizing head ls with
  | nil => simp [fillWith]
  | cons p rest ih =>
    cases ls with
    | nil => simp
    | cons l ls =>
      have h := ih ls p.2
      simp only [fillWith] at h
      simp [fillWith, h]

end Weave

namespace Pattern

/-! ## Cutting in steps -/

section Steps

variable {p : Pattern}

/-- The character in front counts only where a match may start. -/
theorem weaveFrom_before {skip : Nat} {b b' : Option Char} {t : Text}
    (h : skip = 0 → p b t = p b' t) : weaveFrom p skip b t = weaveFrom p skip b' t := by
  cases skip with
  | zero => cases t <;> rw [weaveFrom, weaveFrom, h rfl]
  | succ n => cases t <;> rfl

/-- Behind a match the cut goes on with the last character of the match in front. -/
theorem weaveFrom_behind (b : Option Char) (t u : Text) :
    weaveFrom p t.length b (t ++ u) = weaveFrom p 0 (t.getLast?.or b) u := by
  induction t generalizing b with
  | nil => rfl
  | cons c t ih =>
    rw [List.length_cons, List.cons_append, weaveFrom, ih, getLast?_cons_or]

/-- The cut of two texts in a row is that of each of them, if the pattern sees the same at each place
of the first with the second behind it, and nothing of the first from the start of the second. -/
theorem weaveFrom_append {skip : Nat} {before : Option Char} {x y : Text} (hskip : skip ≤ x.length)
    (hnil : ∀ b, p b [] = none) (hlen : ∀ b s n, s <:+ x → p b s = some n → n ≤ s.length)
    (hsame : ∀ b s, s <:+ x → s ≠ [] → p b (s ++ y) = p b s) (hy : ∀ b b', p b y = p b' y) :
    weaveFrom p skip before (x ++ y) = (weaveFrom p skip before x).append (p.weave y) := by
  induction x generalizing skip before with
  | nil =>
    obtain rfl : skip = 0 := Nat.le_zero.mp hskip
    rw [List.nil_append, weaveFrom_before fun _ => hy before none, weaveFrom, hnil, Weave.nil_append]
    rfl
  | cons c x ih =>
    have ih : ∀ n, n ≤ x.length → weaveFrom p n (some c) (x ++ y) =
        (weaveFrom p n (some c) x).append (p.weave y) := fun n hn =>
      ih hn (fun b s m hs => hlen b s m (hs.trans (List.suffix_cons c x)))
        (fun b s hs => hsame b s (hs.trans (List.suffix_cons c x)))
    cases skip with
    | succ n => exact ih n (Nat.le_of_succ_le_succ hskip)
    | zero =>
      have hhere := hsame before (c :: x) (List.suffix_refl _) (List.cons_ne_nil c x)
      rw [List.cons_append] at hhere ⊢
      rw [weaveFrom, weaveFrom, hhere]
      split
      · rw [ih 0 (Nat.zero_le _), Weave.append_push]
      · rw [ih 0 (Nat.zero_le _), Weave.append_pushHit, Weave.append_push]
      · rename_i n hn
        have hle : n ≤ x.length :=
          Nat.le_of_succ_le_succ (hlen before _ _ (List.suffix_refl _) hn)
        rw [ih n hle, Weave.append_pushHit, List.take_append_of_le_length hle]

/-- A text in which nothing matches is passed over. -/
theorem weaveFrom_pass {before : Option Char} {x y : Text}
    (h : ∀ u v, x = u ++ v → v ≠ [] → p (u.getLast?.or before) (v ++ y) = none) :
    weaveFrom p 0 before (x ++ y) = (weaveFrom p 0 (x.getLast?.or before) y).prepend x := by
  induction x generalizing before with
  | nil => rfl
  | cons c x ih =>
    have hhere : p before (c :: (x ++ y)) = none := h [] (c :: x) rfl (List.cons_ne_nil c x)
    rw [List.cons_append, weaveFrom, hhere, getLast?_cons_or, ih]
    · rfl
    · intro u v hx hv
      have hmore := h (c :: u) v (by rw [hx, List.cons_append]) hv
      rwa [getLast?_cons_or] at hmore

end Steps

/-! ## Patterns that give what they leave -/

section OfRest

variable {f : Text → Option Text}

theorem weaveFrom_ofRest (f : Text → Option Text) (skip : Nat) (before : Option Char) (t : Text) :
    weaveFrom (ofRest f) skip before t = weaveFrom (ofRest f) skip none t :=
  weaveFrom_before fun _ => rfl

/-- Where nothing matches, the first character is passed on. -/
theorem weave_ofRest_miss {c : Char} {t : Text} (h : f (c :: t) = none) :
    (ofRest f).weave (c :: t) = ((ofRest f).weave t).push c := by
  have hp : ofRest f none (c :: t) = none := by simp [ofRest, h]
  rw [weave, weaveFrom, hp]
  simp only
  rw [weaveFrom_ofRest, weave]

/-- A match is what stands in front of the rest that is given. -/
theorem weave_ofRest_hit {hit rest : Text} (hne : hit ≠ []) (h : f (hit ++ rest) = some rest) :
    (ofRest f).weave (hit ++ rest) = ((ofRest f).weave rest).pushHit hit := by
  obtain ⟨c, hit, rfl⟩ := List.exists_cons_of_ne_nil hne
  have hp : ofRest f none (c :: (hit ++ rest)) = some (hit.length + 1) := by
    rw [ofRest, ← List.cons_append, h, Option.map_some, List.length_append, Nat.add_sub_cancel,
      List.length_cons]
  rw [weave, List.cons_append, weaveFrom, hp]
  simp only [List.take_left]
  rw [weaveFrom_behind, weaveFrom_ofRest, weave]

end OfRest

/-! ## The pattern of a fixed part -/

variable {part : Text}

theorem weaveFrom_literal (skip : Nat) (before : Option Char) (t : Text) :
    weaveFrom (literal part) skip before t = weaveFrom (literal part) skip none t :=
  weaveFrom_before fun _ => rfl

/-- A text that starts with the part has it as its first match. -/
theorem weave_hit (hne : part ≠ []) (t : Text) :
    (literal part).weave (part ++ t) = ((literal part).weave t).pushHit part := by
  obtain ⟨c, p, rfl⟩ := List.exists_cons_of_ne_nil hne
  have hlit : literal (c :: p) none (c :: (p ++ t)) = some (p.length + 1) := by
    simp [literal]
  rw [weave, List.cons_append, weaveFrom, hlit]
  simp only [List.take_left]
  rw [weaveFrom_behind, weaveFrom_literal, weave]

/-- Any other text passes its first character on. -/
theorem weave_miss {c : Char} {t : Text} (h : ¬ part <+: c :: t) :
    (literal part).weave (c :: t) = ((literal part).weave t).push c := by
  have hlit : literal part none (c :: t) = none := by
    simp [literal, h]
  rw [weave, weaveFrom, hlit]
  simp only
  rw [weaveFrom_literal, weave]

theorem weave_nil (hne : part ≠ []) : (literal part).weave [] = ⟨[], []⟩ := by
  simp [weave, weaveFrom, literal, hne]

/-- Induction along the cut: over the matches and the characters between them. -/
theorem cut_induction (hne : part ≠ []) {motive : Text → Prop} (nil : motive [])
    (hit : ∀ t, motive t → motive (part ++ t))
    (miss : ∀ c t, ¬ part <+: c :: t → motive t → motive (c :: t)) (t : Text) : motive t := by
  induction hn : t.length using Nat.strongRecOn generalizing t with
  | ind n ih =>
    cases t with
    | nil => exact nil
    | cons c t =>
      by_cases hp : part <+: c :: t
      · obtain ⟨u, hu⟩ := hp
        rw [← hu]
        have hpos : 0 < part.length := List.length_pos_iff.mpr hne
        have hlen := congrArg List.length hu
        rw [List.length_append] at hlen
        exact hit u (ih u.length (by omega) u rfl)
      · exact miss c t hp (ih t.length (by simp at hn; omega) t rfl)

/-- No match reaches from the end of one text into the next. -/
def Apart (part x z : Text) : Prop :=
  ∀ s, s <:+ x → part <+: s ++ z → s ≠ [] → part <+: s

/-- The cut of two texts in a row is that of each of them, if no match reaches across. -/
theorem weave_append (hne : part ≠ []) {x z : Text} (h : Apart part x z) :
    (literal part).weave (x ++ z) = ((literal part).weave x).append ((literal part).weave z) := by
  induction x using cut_induction hne with
  | nil => rw [weave_nil hne, Weave.nil_append, List.nil_append]
  | hit x ih =>
    rw [List.append_assoc, weave_hit hne, weave_hit hne, Weave.append_pushHit,
      ih fun s hs => h s (hs.trans (List.suffix_append _ _))]
  | miss c x hc ih =>
    have hcz : ¬ part <+: c :: (x ++ z) := fun hp =>
      hc (h (c :: x) (List.suffix_refl _) (by simpa using hp) (by simp))
    rw [List.cons_append, weave_miss hcz, weave_miss hc, Weave.append_push,
      ih fun s hs => h s (hs.trans (List.suffix_cons c x))]

theorem prefix_or_of_append {s z : Text} (h : part <+: s ++ z) :
    part <+: s ∨ ∃ d p, s ++ d :: p = part ∧ z.head? = some d := by
  rcases List.prefix_or_prefix_of_prefix h (List.prefix_append s z) with hp | ⟨q, rfl⟩
  · exact .inl hp
  · cases q with
    | nil => exact .inl (by simp)
    | cons d p =>
      obtain ⟨r, hr⟩ := h
      have hz : z = d :: (p ++ r) := by simpa using hr.symm
      exact .inr ⟨d, p, rfl, by simp [hz]⟩

/-- No match reaches across if the second text starts with a character that is not in the part. -/
theorem apart_of_head {x z : Text} (h : ∀ d, z.head? = some d → d ∉ part) : Apart part x z := by
  intro s _ hp _
  rcases prefix_or_of_append hp with hs | ⟨d, p, hd, hz⟩
  · exact hs
  · exact absurd (by simp [← hd]) (h d hz)

end Pattern

/-! ## Words in any letter case -/

/-- What is dropped of a text is a word letter by letter. -/
theorem dropWord?_iff {k t rest : Text} : dropWord? k t = some rest ↔
    ∃ w, t = w ++ rest ∧ List.Forall₂ (fun l c => sameLetter l c = true) k w := by
  induction k generalizing t with
  | nil => simp [dropWord?]
  | cons l k ih =>
    cases t with
    | nil => simp [dropWord?]
    | cons c t =>
      rw [dropWord?]
      split
      · next hc =>
        rw [ih]
        constructor
        · rintro ⟨w, rfl, hw⟩
          exact ⟨c :: w, rfl, .cons hc hw⟩
        · rintro ⟨w, hw, hl⟩
          cases hl with
          | cons _ hl =>
            obtain ⟨rfl, rfl⟩ := List.cons.inj hw
            exact ⟨_, rfl, hl⟩
      · next hc =>
        constructor
        · intro h
          cases h
        · rintro ⟨w, hw, hl⟩
          cases hl with
          | cons hl _ =>
            obtain ⟨rfl, _⟩ := List.cons.inj hw
            exact absurd hl hc

theorem isSameWord_iff {k w : Text} :
    isSameWord k w = true ↔ List.Forall₂ (fun l c => sameLetter l c = true) k w := by
  rw [isSameWord, beq_iff_eq, dropWord?_iff]
  simp

/-! ## Filling a cut -/

namespace Shelf

variable {s : Shelf}

/-- A reading gives the literal at its position. -/
theorem next_lt {position : Nat} (h : position < s.literals.length) :
    s.next position = (.ok s.literals[position], position + 1) := by
  simp [next, h]

/-- A reading fails where no literal is left, and the position stays. -/
theorem next_end {position : Nat} (h : s.literals.length ≤ position) :
    s.next position =
      (.error (.tokenMismatch s.name s.literals.length (position + 1)), position) := by
  rw [next, List.getElem?_eq_none_iff.mpr h]

theorem fillRest_ok {position : Nat} {rest : List (Text × Text)}
    (h : position + rest.length ≤ s.literals.length) :
    s.fillRest position rest =
      (.ok (((s.literals.drop position).zip (rest.map Prod.snd)).flatMap fun p => p.1 ++ p.2),
        position + rest.length) := by
  induction rest generalizing position with
  | nil => simp [fillRest]
  | cons p rest ih =>
    have hlt : position < s.literals.length := by simp at h; omega
    have hdrop : s.literals.drop position =
        s.literals[position] :: s.literals.drop (position + 1) := List.drop_eq_getElem_cons hlt
    have hrest := @ih (position + 1) (by simp at h; omega)
    rw [fillRest, next_lt hlt, hdrop]
    simp only [hrest, List.map_cons, List.zip_cons_cons, List.flatMap_cons, List.length_cons]
    rw [Nat.add_right_comm, Nat.add_assoc]

theorem fillRest_short {position : Nat} {rest : List (Text × Text)}
    (hp : position ≤ s.literals.length) (h : s.literals.length < position + rest.length) :
    s.fillRest position rest =
      (.error (.tokenMismatch s.name s.literals.length (s.literals.length + 1)),
        s.literals.length) := by
  induction rest generalizing position with
  | nil => exact absurd h (by simpa using hp)
  | cons p rest ih =>
    rw [List.length_cons] at h
    rw [fillRest]
    by_cases hlt : position < s.literals.length
    · rw [next_lt hlt]
      simp only [ih hlt (by omega)]
    · obtain rfl : position = s.literals.length := by omega
      rw [next_end (Nat.le_refl _)]

/-- Filling succeeds if the literals left are enough for the tokens. -/
theorem fill_ok {position : Nat} {t : Text}
    (h : position + s.tokens t ≤ s.literals.length) :
    s.fill position t =
      (.ok ((s.cut t).fillWith (s.literals.drop position)), position + s.tokens t) := by
  simp only [fill, fillRest_ok h]
  rfl

/-- Filling fails if they are not, and uses them all up. -/
theorem fill_short {position : Nat} {t : Text} (hp : position ≤ s.literals.length)
    (h : s.literals.length < position + s.tokens t) :
    s.fill position t =
      (.error (.tokenMismatch s.name s.literals.length (s.literals.length + 1)),
        s.literals.length) := by
  rw [fill, fillRest_short hp h]

/-- All literals are put back exactly when there are as many tokens as literals. -/
theorem putBack_eq (s : Shelf) (t : Text) :
    s.putBack t =
      if s.tokens t = s.literals.length then .ok ((s.cut t).fillWith s.literals)
      else .error (.tokenMismatch s.name s.literals.length (s.tokens t)) := by
  by_cases h : s.tokens t = s.literals.length
  · have hf := @fill_ok s 0 t (by omega)
    simp [putBack, check, h, hf, bind, Except.bind]
  · simp [putBack, check, h, bind, Except.bind]

end Shelf

end VbTidy
