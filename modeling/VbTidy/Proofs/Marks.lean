import VbTidy.Proofs.Refill

/-
The tokens of a text in order. `marks` reads them off a sound text; putting aside and putting back
are then told by lists of marks: taking out a kind leaves its mark for each literal, and putting it
back writes the marks of the literals in its place (`marks_fillWith`). So two texts with the same
marks have the same marks after a kind is back, however the characters between them differ.
-/
namespace VbTidy

/-! ## Marks -/

/-- The mark of a name. -/
def Mark.ofName? (n : Text) : Option Mark :=
  Mark.all.find? (·.name == n)

theorem Mark.ofName?_name (m : Mark) : Mark.ofName? m.name = some m := by
  have key : ∀ m ∈ Mark.all, Mark.ofName? m.name = some m := by decide
  exact key m (Mark.mem_all m)

/-- The marks among the parts of a text between its NUL characters: every other part is a name. -/
def marksIn : List Text → List Mark
  | _ :: n :: more => (Mark.ofName? n).toList ++ marksIn more
  | _ => []

/-- The marks of a text in order. -/
def marks (t : Text) : List Mark :=
  marksIn (cutAt '\x00' t)

@[simp] theorem marks_nil : marks [] = [] := rfl

theorem cutAt_char {sep c : Char} (hc : c ≠ sep) (t : Text) :
    ∃ part parts, cutAt sep t = part :: parts ∧ cutAt sep (c :: t) = (c :: part) :: parts := by
  obtain ⟨part, parts, h⟩ := List.exists_cons_of_ne_nil (cutAt_ne_nil sep t)
  refine ⟨part, parts, h, ?_⟩
  rw [cutAt, if_neg (by simpa using hc), h]

theorem marks_char {c : Char} (hc : c ≠ '\x00') (t : Text) : marks (c :: t) = marks t := by
  obtain ⟨part, parts, h, hcons⟩ := cutAt_char hc t
  rw [marks, marks, h, hcons]
  cases parts <;> rfl

theorem cutAt_append {sep : Char} {s : Text} (hs : sep ∉ s) (t : Text) :
    cutAt sep (s ++ sep :: t) = s :: cutAt sep t := by
  induction s with
  | nil => simp [cutAt]
  | cons c s ih =>
    rw [List.mem_cons, not_or] at hs
    rw [List.cons_append, cutAt, if_neg (by simpa using Ne.symm hs.1), ih hs.2]

@[simp] theorem marks_token (m : Mark) (t : Text) : marks (m.token ++ t) = m :: marks t := by
  rw [marks, Mark.token_append]
  have hnil : cutAt '\x00' ('\x00' :: (m.name ++ '\x00' :: t)) =
      [] :: cutAt '\x00' (m.name ++ '\x00' :: t) :=
    cutAt_append (s := []) (by simp) (m.name ++ '\x00' :: t)
  rw [hnil, cutAt_append (nul_not_mem_name m), marksIn, Mark.ofName?_name]
  rfl

theorem marks_append {n : Nat} {s : Text} (hs : Sound n s) (t : Text) :
    marks (s ++ t) = marks s ++ marks t := by
  induction hs with
  | nil => rfl
  | char hc _ ih => rw [List.cons_append, marks_char hc, marks_char hc, ih]
  | token _ _ ih => rw [List.append_assoc, marks_token, marks_token, ih, List.cons_append]

theorem marks_nul_free {t : Text} (h : '\x00' ∉ t) : marks t = [] := by
  induction t with
  | nil => rfl
  | cons c t ih =>
    rw [List.mem_cons, not_or] at h
    rw [marks_char (Ne.symm h.1), ih h.2]

/-- The marks of a sound text have their turn in time. -/
theorem turn_of_mem_marks {n : Nat} {t : Text} (ht : Sound n t) : ∀ m ∈ marks t, n ≤ m.turn := by
  induction ht with
  | nil => intro m hm; cases hm
  | char hc _ ih => rwa [marks_char hc]
  | token hm _ ih =>
    rw [marks_token]
    intro m' hm'
    rcases List.mem_cons.mp hm' with rfl | hm'
    · exact hm
    · exact ih m' hm'

/-! ## Marks of filled cuts -/

/-- A filled cut of sound texts is sound. -/
theorem sound_fillWith {n : Nat} {w : Weave} {ls : List Text} (hw : ∀ g ∈ w.gaps, Sound n g)
    (hl : ∀ l ∈ ls, Sound n l) : Sound n (w.fillWith ls) :=
  Weave.fillWith_induction Sound.append hw hl

/-! ## Marks put back -/

/-- Marks with lists of marks in place of those of a kind, in order. -/
def restock (k : Kind) : List (List Mark) → List Mark → List Mark
  | _, [] => []
  | ls, m :: ms => if m = .kind k then ls.headD [] ++ restock k ls.tail ms else m :: restock k ls ms

theorem restock_append (k : Kind) (ls : List (List Mark)) (a b : List Mark) :
    restock k ls (a ++ b) = restock k ls a ++ restock k (ls.drop (a.count (.kind k))) b := by
  induction a generalizing ls with
  | nil => rfl
  | cons m a ih =>
    rw [List.cons_append, restock, restock]
    split
    · rename_i hm
      rw [ih, hm, List.count_cons_self, List.append_assoc, List.drop_tail]
    · rename_i hm
      rw [ih, List.count_cons_of_ne hm, List.cons_append]

theorem restock_of_not_mem {k : Kind} {ls : List (List Mark)} {ms : List Mark}
    (h : Mark.kind k ∉ ms) : restock k ls ms = ms := by
  induction ms with
  | nil => rfl
  | cons m ms ih =>
    rw [List.mem_cons, not_or] at h
    rw [restock, if_neg (Ne.symm h.1), ih h.2]

/-- A sound text of later turns has no mark of a kind. -/
theorem not_mem_marks {k : Kind} {t : Text} (ht : Sound (k.turn + 1) t) : Mark.kind k ∉ marks t := by
  intro h
  have hturn := turn_of_mem_marks ht _ h
  have : k.turn = (Mark.kind k).turn := rfl
  omega

theorem mask_cons (k : Kind) (head : Text) (p : Text × Text) (rest : List (Text × Text)) :
    Lifting.mask k ⟨head, p :: rest⟩ =
      head ++ ((Mark.kind k).token ++ Lifting.mask k ⟨p.2, rest⟩) := by
  have htok : (Mark.kind k).token = k.token := rfl
  simp [Lifting.mask, Weave.replace, htok]

/-- There is a mark for each literal that was taken out. -/
theorem count_marks_mask {k : Kind} {w : Weave} (hw : ∀ g ∈ w.gaps, Sound (k.turn + 1) g) :
    (marks (Lifting.mask k w)).count (.kind k) = w.rest.length := by
  obtain ⟨head, rest⟩ := w
  induction rest generalizing head with
  | nil =>
    have hhead := hw head List.mem_cons_self
    have hmask : Lifting.mask k ⟨head, []⟩ = head := by simp [Lifting.mask, Weave.replace]
    rw [hmask]
    exact List.count_eq_zero.mpr (not_mem_marks hhead)
  | cons p rest ih =>
    have hhead := hw head List.mem_cons_self
    rw [mask_cons, marks_append hhead, marks_token, List.count_append,
      List.count_eq_zero.mpr (not_mem_marks hhead), List.count_cons_self,
      ih p.2 fun g hg => hw g (List.mem_cons_of_mem _ hg)]
    simp

/-- Literals in place of the matches of a cut put their marks in place of those left for them. -/
theorem marks_fillWith {k : Kind} {n : Nat} {w : Weave} {ls : List Text}
    (hw : ∀ g ∈ w.gaps, Sound (k.turn + 1) g) (hl : ∀ l ∈ ls, Sound n l)
    (hlen : w.rest.length ≤ ls.length) :
    marks (w.fillWith ls) = restock k (ls.map marks) (marks (Lifting.mask k w)) := by
  obtain ⟨head, rest⟩ := w
  induction rest generalizing head ls with
  | nil =>
    have hhead := hw head List.mem_cons_self
    have hmask : Lifting.mask k ⟨head, []⟩ = head := by simp [Lifting.mask, Weave.replace]
    rw [hmask, restock_of_not_mem (not_mem_marks hhead)]
    simp [Weave.fillWith]
  | cons p rest ih =>
    have hhead := hw head List.mem_cons_self
    obtain ⟨l, ls, rfl⟩ := List.exists_cons_of_length_pos (l := ls) (by simp at hlen; omega)
    have hmore := ih (fun x hx => hl x (List.mem_cons_of_mem _ hx)) p.2
      (fun g hg => hw g (List.mem_cons_of_mem _ hg)) (by simpa using hlen)
    have hfill : (Weave.mk head (p :: rest)).fillWith (l :: ls) =
        head ++ (l ++ (Weave.mk p.2 rest).fillWith ls) := by
      simp [Weave.fillWith]
    -- up to the first match there is nothing to exchange
    rw [hfill, mask_cons, marks_append hhead, marks_append (hl l List.mem_cons_self),
      marks_append hhead, marks_token, restock_append, restock_of_not_mem (not_mem_marks hhead),
      List.count_eq_zero.mpr (not_mem_marks hhead), hmore, List.drop_zero, List.map_cons, restock,
      if_pos rfl, List.headD_cons, List.tail_cons]

/-! ## White space and letter case -/

/-- The marks of a sound text are those of what is left of it without white space and case. -/
theorem marks_squeezed {n : Nat} {t : Text} (ht : Sound n t) : marks (squeezed t) = marks t := by
  induction ht with
  | nil => rfl
  | @char c t hc _ ih =>
    rw [squeezed_cons, marks_char hc]
    split
    · exact ih
    · rw [marks_char (fun h => hc (caseless_eq_nul.mp h)), ih]
  | token _ _ ih => rw [squeezed_append, squeezed_token, marks_token, marks_token, ih]

theorem marks_of_squeezed {n n' : Nat} {s t : Text} (hs : Sound n s) (ht : Sound n' t)
    (h : squeezed s = squeezed t) : marks s = marks t := by
  rw [← marks_squeezed hs, h, marks_squeezed ht]

end VbTidy
