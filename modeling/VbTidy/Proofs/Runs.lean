import VbTidy.Proofs.Shifted

/-
The runs of lines that are aligned. They depend on a line only through two questions: whether it has
the marked place, and whether it may stand between two lines of a run. Moving the equals sign of a
line changes neither answer for comments, so the runs of comments can be read off before assignments
are aligned.
-/
namespace VbTidy

theorem candidates_eq (m : Marker) (lines : List Text) :
    m.candidates lines =
      ((lines.map fun l => (m.cut l).isSome).zipIdx.filter Prod.fst).map Prod.snd := by
  rw [Marker.candidates, List.zipIdx_map, List.filter_map, List.map_map]
  rfl

theorem any_isGap_lineAt {lines lines' : List Text} (h : lines.map isGap = lines'.map isGap)
    (i : Int) : (lineAt? lines i).any isGap = (lineAt? lines' i).any isGap := by
  have hlen : lines.length = lines'.length := by simpa using congrArg List.length h
  have hget : ∀ j : Nat, (lines[j]?).any isGap = (lines'[j]?).any isGap := by
    intro j
    have hj : (lines.map isGap)[j]? = (lines'.map isGap)[j]? := by rw [h]
    rw [List.getElem?_map, List.getElem?_map] at hj
    cases hl : lines[j]? with
    | none => cases hl' : lines'[j]? <;> simp_all
    | some l => cases hl' : lines'[j]? <;> simp_all
  unfold lineAt?
  rw [hlen]
  split
  · exact hget _
  · split
    · exact hget _
    · rfl

/-- Whether a line has the marked place, and whether it may stand between two lines of a run. -/
def Marker.role (m : Marker) (l : Text) : Bool × Bool :=
  ((m.cut l).isSome, isGap l)

/-- The runs depend on a line through its role only. -/
theorem Marker.runs_congr {m : Marker} {lines lines' : List Text}
    (h : lines.map m.role = lines'.map m.role) : m.runs lines = m.runs lines' := by
  have hcut : lines.map (fun l => (m.cut l).isSome) = lines'.map fun l => (m.cut l).isSome := by
    simpa [Marker.role, Function.comp_def] using congrArg (List.map Prod.fst) h
  have hgap : lines.map isGap = lines'.map isGap := by
    simpa [Marker.role, Function.comp_def] using congrArg (List.map Prod.snd) h
  have hlinked : linked lines = linked lines' := by
    funext i j
    rw [linked, linked, any_isGap_lineAt hgap]
  rw [Marker.runs, Marker.runs, candidates_eq, candidates_eq, hcut, linkedRuns, linkedRuns, hlinked]

/-! ## Roles and moved equals signs -/

theorem isSome_find? {part t : Text} : (find? part t).isSome = true ↔ part <:+: t := by
  induction t with
  | nil => cases part <;> simp [find?]
  | cons c t ih =>
    rw [find?, List.infix_cons_iff]
    split
    · next h => simp [List.isPrefixOf_iff_prefix.mp h]
    · next h =>
      have hnot : ¬ part <+: c :: t := fun hp => h (List.isPrefixOf_iff_prefix.mpr hp)
      simp [hnot, ih]

/-- A part without `c` stands on one side of `c`. -/
theorem infix_break {part a b : Text} {c : Char} (hne : part ≠ []) (hc : c ∉ part) :
    part <:+: a ++ c :: b ↔ part <:+: a ∨ part <:+: b := by
  constructor
  · intro h
    rcases List.infix_append_iff.mp h with h | h | ⟨l₁, l₂, rfl, h₁, h₂⟩
    · exact .inl h
    · rcases List.infix_cons_iff.mp h with h | h
      · obtain ⟨d, p, rfl⟩ := List.exists_cons_of_ne_nil hne
        obtain ⟨rfl, _⟩ := List.cons_prefix_cons.mp h
        exact absurd List.mem_cons_self hc
      · exact .inr h
    · cases l₂ with
      | nil => exact .inl (by simpa using h₁.isInfix)
      | cons d l₂ =>
        obtain ⟨rfl, _⟩ := List.cons_prefix_cons.mp h₂
        simp at hc
  · rintro (h | h)
    · exact h.trans (List.infix_append' [] a (c :: b))
    · exact h.trans (List.infix_append' (a ++ [c]) b [] |>.trans (by simp))

theorem infix_moved_equals {part a b : Text} (hne : part ≠ []) (hs : ' ' ∉ part) (he : '=' ∉ part)
    (n : Nat) :
    part <:+: a ++ (List.replicate n ' ' ++ '=' :: b) ↔ part <:+: a ++ '=' :: b := by
  induction n generalizing a with
  | zero => rfl
  | succ n ih =>
    rw [List.replicate_succ, List.cons_append, infix_break hne hs]
    have hrest := ih (a := [])
    rw [List.nil_append, List.nil_append] at hrest
    rw [hrest, infix_break hne he, List.infix_cons_iff]
    constructor
    · rintro (h | h | h)
      · exact .inl h
      · obtain ⟨d, p, rfl⟩ := List.exists_cons_of_ne_nil hne
        obtain ⟨rfl, _⟩ := List.cons_prefix_cons.mp h
        exact absurd List.mem_cons_self he
      · exact .inr h
    · rintro (h | h)
      · exact .inl h
      · exact .inr (.inr h)

theorem mem_trim_of_not_space {t : Text} {c : Char} (hc : c ∈ t) (hs : isSpace c = false) :
    c ∈ trim t := by
  obtain ⟨s₁, s₂, heq, h₁, h₂⟩ := trim_split t
  rw [heq] at hc
  rcases List.mem_append.mp hc with h | h
  · rw [h₁ c h] at hs
    cases hs
  · rcases List.mem_append.mp h with h | h
    · exact h
    · rw [h₂ c h] at hs
      cases hs

theorem role_equals {l : Text} (h : '=' ∈ l) :
    remarkMarker.role l = ((find? Kind.remark.token l).isSome, false) := by
  have hmem := mem_trim_of_not_space h (by decide)
  have htoken : (trim l == Kind.remark.token) = false := by
    rw [beq_eq_false_iff_ne]
    intro e
    rw [e] at hmem
    exact absurd hmem (by decide)
  have hnil : (trim l == []) = false := by
    rw [beq_eq_false_iff_ne]
    intro e
    rw [e] at hmem
    cases hmem
  simp only [Marker.role, remarkMarker, isGap, htoken, hnil, Bool.false_eq_true, if_false,
    Option.isSome_map, Bool.or_self]

/-- Moving an equals sign changes no role of a line for comments. -/
theorem role_moves_assignment {l l' : Text} (h : assignmentMarker.Moves l l') :
    remarkMarker.role l' = remarkMarker.role l := by
  rcases h with rfl | ⟨cut, n, hcut, rfl⟩
  · rfl
  · obtain ⟨a, b, rfl, _, hshift⟩ := assignment_shift (n := n) hcut
    rw [hshift, role_equals (by simp), role_equals (by simp)]
    have hsame := infix_moved_equals (a := a) (b := b) Kind.remark.token_ne_nil (by decide)
      (by decide) n
    rw [← isSome_find?, ← isSome_find?] at hsame
    rw [Bool.eq_iff_iff.mpr hsame]

theorem map_eq_of_forall₂ {α β : Type} {R : α → α → Prop} {f : α → β} (hR : ∀ a b, R a b → f b = f a)
    {as bs : List α} (h : List.Forall₂ R as bs) : bs.map f = as.map f := by
  induction h with
  | nil => rfl
  | cons hab _ ih => rw [List.map_cons, List.map_cons, hR _ _ hab, ih]

/-- The runs of comments are not changed by the alignment of assignments. -/
theorem runs_align_assignment {s : Shelves} {lines out : List Text}
    (h : assignmentMarker.align s lines = .ok out) :
    remarkMarker.runs out = remarkMarker.runs lines :=
  Marker.runs_congr (map_eq_of_forall₂ (fun _ _ hl => role_moves_assignment hl) (align_moves h))

end VbTidy
