import VbTidy.Proofs.Placed

/-
Aligned lines measured again. Lines are measured in two parts each, and white space between the parts
goes with either of them, so lines whose signs were moved are read with the same literals as before
(`columnsFrom_alike`), and the columns are those before and what the signs were moved by. The signs
of a run stand in one column then, the lines have the runs they had, and aligning them again leaves
them as they are (`realigned`). All this holds of any lines and literals that are aligned without a
fault.
-/
namespace VbTidy

/-! ## Measuring -/

section
variable {s : Shelves} {at_ : PerKind Nat} {more : List (Text × Option Nat)}
  {cols : List (Option Nat)}

/-- White space at the cut goes with either part. -/
theorem columnsFrom_spaces {a x b : Text} {j : Nat} (hx : ∀ c ∈ x, isSpace c = true)
    (hj : j ≤ x.length) :
    columnsFrom s at_ ((a ++ (x ++ b), some (a.length + j)) :: more) = .ok cols ↔
      ∃ u middle v at' later, Reads s Kind.backOrder at_ a u middle ∧
        Reads s Kind.backOrder middle b v at' ∧ columnsFrom s at' more = .ok later ∧
        cols = some (width (lastLine (u ++ x.take j))) :: later := by
  have hfront : ∀ c ∈ x.take j, isSpace c = true := fun c hc => hx c (List.mem_of_mem_take hc)
  have hback : '\x00' ∉ x.drop j :=
    fun hmem => nul_not_mem_spaces hx (List.mem_of_mem_drop hmem)
  rw [columnsFrom_parts, List.take_length_add_append, List.drop_length_add_append,
    List.take_append_of_le_length hj, List.drop_append_of_le_length hj]
  simp only [reads_append backOrder_nodup (head_spaces hfront), reads_nul_free_append hback]
  constructor
  · rintro ⟨_, _, _, at', later, ⟨u, middle, u', hu, hu', rfl⟩, ⟨v, hv, rfl⟩, hlater, rfl⟩
    obtain ⟨rfl, rfl⟩ := hu'.unique (reads_spaces hfront)
    exact ⟨u, _, v, at', later, hu, hv, hlater, rfl⟩
  · rintro ⟨u, middle, v, at', later, hu, hv, hlater, rfl⟩
    exact ⟨_, _, _, at', later, ⟨u, middle, _, hu, reads_spaces hfront, rfl⟩, ⟨v, hv, rfl⟩, hlater,
      rfl⟩

/-- Two lines with cuts that differ in the white space at the cut only. -/
inductive ReadAlike : Text × Option Nat → Text × Option Nat → Prop
  | whole (l : Text) : ReadAlike (l, none) (l, none)
  | parts {a x x' b : Text} {j j' : Nat} (hx : ∀ c ∈ x, isSpace c = true)
      (hx' : ∀ c ∈ x', isSpace c = true) (hj : j ≤ x.length) (hj' : j' ≤ x'.length) :
      ReadAlike (a ++ (x ++ b), some (a.length + j)) (a ++ (x' ++ b), some (a.length + j'))

theorem columnsFrom_step {p q : Text × Option Nat} (h : ReadAlike p q)
    (hcols : columnsFrom s at_ (p :: more) = .ok cols) :
    ∃ at' col col' later, cols = col :: later ∧ columnsFrom s at' more = .ok later ∧
      ∀ more' later', columnsFrom s at' more' = .ok later' →
        columnsFrom s at_ (q :: more') = .ok (col' :: later') := by
  cases h with
  | whole l =>
    obtain ⟨v, at', later, hv, hlater, rfl⟩ := columnsFrom_whole.mp hcols
    refine ⟨at', none, none, later, rfl, hlater, fun more' later' h => ?_⟩
    exact columnsFrom_whole.mpr ⟨v, at', later', hv, h, rfl⟩
  | @parts a x x' b j j' hx hx' hj hj' =>
    obtain ⟨u, middle, v, at', later, hu, hv, hlater, rfl⟩ := (columnsFrom_spaces hx hj).mp hcols
    refine ⟨at', _, some (width (lastLine (u ++ x'.take j'))), later, rfl, hlater,
      fun more' later' h => ?_⟩
    exact (columnsFrom_spaces hx' hj').mpr ⟨u, middle, v, at', later', hu, hv, h, rfl⟩

/-- A cut behind spaces is that much farther right. -/
def Farther (p q : Text × Option Nat) (col col' : Option Nat) : Prop :=
  ∀ a x b n j, (∀ c ∈ x, isSpace c = true) → j ≤ n → p = (a ++ (x ++ b), some a.length) →
    q = (a ++ (List.replicate n ' ' ++ b), some (a.length + j)) →
      ∃ w, col = some w ∧ col' = some (w + j)

theorem farther_step {p q : Text × Option Nat} {more' : List (Text × Option Nat)}
    {col col' : Option Nat} {later later' : List (Option Nat)}
    (hp : columnsFrom s at_ (p :: more) = .ok (col :: later))
    (hq : columnsFrom s at_ (q :: more') = .ok (col' :: later')) : Farther p q col col' := by
  rintro a x b n j hx hj rfl rfl
  have hj' : j ≤ (List.replicate n ' ').length := by rwa [List.length_replicate]
  obtain ⟨u, middle, _, _, _, hu, _, _, hcol⟩ :=
    (columnsFrom_spaces (j := 0) hx (Nat.zero_le _)).mp hp
  obtain ⟨u', middle', _, _, _, hu', _, _, hcol'⟩ :=
    (columnsFrom_spaces (spaces_replicate n) hj').mp hq
  obtain ⟨rfl, _⟩ := hu.unique hu'
  obtain ⟨rfl, _⟩ := List.cons.inj hcol
  obtain ⟨rfl, _⟩ := List.cons.inj hcol'
  refine ⟨_, rfl, ?_⟩
  rw [List.take_replicate, Nat.min_eq_left hj, width_spaces, List.take_zero, List.append_nil]

/-- Lines that differ in the white space at their cuts are measured if one of them is. -/
theorem columnsFrom_alike {ps qs : List (Text × Option Nat)} (h : List.Forall₂ ReadAlike ps qs)
    (hcols : columnsFrom s at_ ps = .ok cols) :
    ∃ cols', columnsFrom s at_ qs = .ok cols' ∧
      ∀ (i : Nat) p q, ps[i]? = some p → qs[i]? = some q →
        ∃ col col', cols[i]? = some col ∧ cols'[i]? = some col' ∧ Farther p q col col' := by
  -- the literals that a line takes are the same on both sides, and the next line goes on from there
  induction h generalizing at_ cols with
  | nil => exact ⟨cols, hcols, fun i p q hp => by simp at hp⟩
  | @cons p q ps qs hpq _ ih =>
    obtain ⟨at', col, col', later, rfl, hlater, hq⟩ := columnsFrom_step hpq hcols
    obtain ⟨later', hlater', hmore⟩ := ih hlater
    have hcols' := hq qs later' hlater'
    refine ⟨col' :: later', hcols', fun i p' q' hp hq => ?_⟩
    cases i with
    | zero =>
      obtain rfl := Option.some.inj hp
      obtain rfl := Option.some.inj hq
      exact ⟨col, col', rfl, rfl, farther_step hcols hcols'⟩
    | succ i => exact hmore i p' q' hp hq

end

/-! ## The lines that were moved -/

namespace Aligner

variable {p : Aligner} (hp : p.Steady)
include hp

theorem Steady.moves {l l' : Text} (h : p.marker.Moves l l') : l' = l ∨
    ∃ x b n, l = x ++ (p.sign ++ b) ∧ p.Marks x b ∧ l' = p.front x n ++ (p.sign ++ b) := by
  rcases h with rfl | ⟨cut, n, hcut, rfl⟩
  · exact .inl rfl
  · obtain ⟨x, b, rfl, hmarks⟩ := hp.marks hcut
    obtain rfl := Option.some.inj (hmarks.cut.symm.trans hcut)
    exact .inr ⟨x, b, n, rfl, hmarks, hp.shift x b n⟩

/-- Moving a sign changes neither whether a line has one nor whether the line may stand in a run. -/
theorem Steady.role_moves {l l' : Text} (h : p.marker.Moves l l') :
    p.marker.role l' = p.marker.role l := by
  rcases hp.moves h with rfl | ⟨x, b, n, rfl, hmarks, rfl⟩
  · rfl
  · have hmoved := hp.marks_front hmarks n
    rw [Marker.role, Marker.role, hmarks.cut, hmoved.cut, hp.not_gap hmarks, hp.not_gap hmoved]
    rfl

/-- White space at the end of what is kept of a line is not read otherwise. -/
theorem Steady.alike {x b y : Text} {j : Nat} (hy : ∀ c ∈ y, isSpace c = true)
    (hj : j ≤ y.length) :
    ReadAlike (x ++ (p.sign ++ b), some (p.kept x).length)
      (p.kept x ++ y ++ (p.sign ++ b), some ((p.kept x).length + j)) := by
  obtain ⟨gap, hgap, hspace⟩ := hp.split x
  have halike := @ReadAlike.parts (p.kept x) gap y (p.sign ++ b) 0 j hspace hy (Nat.zero_le _) hj
  rwa [← List.append_assoc, ← hgap, ← List.append_assoc (p.kept x)] at halike

theorem Steady.alike_front {x b : Text} {n j : Nat} (hj : j ≤ n + p.lead) :
    ReadAlike (x ++ (p.sign ++ b), some (p.kept x).length)
      (p.front x n ++ (p.sign ++ b), some ((p.kept x).length + j)) :=
  hp.alike (spaces_replicate (n + p.lead)) (by rwa [List.length_replicate])

theorem Steady.cut_front {x b : Text} (h : p.Marks x b) (n : Nat) : ∃ k ≤ n,
    p.kept (p.front x n) = p.kept x ++ List.replicate k ' ' ∧
      p.marker.cut (p.front x n ++ (p.sign ++ b)) = some ((p.kept x).length + k) := by
  obtain ⟨k, hk, hkept⟩ := hp.kept_front x n
  refine ⟨k, hk, hkept, ?_⟩
  rw [(hp.marks_front h n).cut, hkept, List.length_append, List.length_replicate]

omit hp in
/-- What was moved already is not moved again. -/
theorem front_front {x : Text} {n k : Nat} (hk : k ≤ n)
    (hkept : p.kept (p.front x n) = p.kept x ++ List.replicate k ' ') :
    p.front (p.front x n) (n - k) = p.front x n := by
  have hsum : k + (n - k + p.lead) = n + p.lead := by omega
  rw [front, hkept, List.append_assoc, List.replicate_append_replicate, hsum, front]

theorem Steady.place_front {x b : Text} (h : p.Marks x b) (n : Nat) :
    p.place (p.front x n ++ (p.sign ++ b)) = some ((p.kept x).length + (n + p.lead)) := by
  rw [(hp.marks_front h n).place_eq, front, List.length_append, List.length_replicate]

theorem Steady.alike_cut {l l' : Text} (h : p.marker.Moves l l') :
    ReadAlike (l, p.marker.cut l) (l', p.marker.cut l') := by
  rcases hp.moves h with rfl | ⟨x, b, n, rfl, hmarks, rfl⟩
  · cases hcut : p.marker.cut l' with
    | none => exact .whole l'
    | some cut =>
      obtain ⟨x, b, rfl, hmarks⟩ := hp.marks hcut
      obtain ⟨gap, hgap, hspace⟩ := hp.split x
      have halike := hp.alike (x := x) (b := b) hspace (Nat.zero_le gap.length)
      rw [← hgap] at halike
      rwa [← hcut, hmarks.cut]
  · obtain ⟨k, hk, _, hcut⟩ := hp.cut_front hmarks n
    rw [hmarks.cut, hcut]
    exact hp.alike_front (by omega)

theorem Steady.alike_place {l l' : Text} (h : p.marker.Moves l l') :
    ReadAlike (l, p.marker.cut l) (l', p.place l') := by
  rcases hp.moves h with rfl | ⟨x, b, n, rfl, hmarks, rfl⟩
  · cases hcut : p.marker.cut l' with
    | none =>
      rw [place, hcut]
      exact .whole l'
    | some cut =>
      obtain ⟨x, b, rfl, hmarks⟩ := hp.marks hcut
      obtain ⟨gap, hgap, hspace⟩ := hp.split x
      have halike := hp.alike (x := x) (b := b) hspace (Nat.le_refl gap.length)
      rw [← List.length_append, ← hgap] at halike
      rwa [← hcut, hmarks.cut, hmarks.place_eq]
  · rw [hmarks.cut, hp.place_front hmarks]
    exact hp.alike_front (Nat.le_refl _)

end Aligner

/-! ## The lines of a run -/

theorem columnAt_of_getElem? {cols : List (Option Nat)} {i w : Nat} (h : cols[i]? = some (some w)) :
    Marker.columnAt cols.toArray i = w := by
  simp [Marker.columnAt, h]

/-- No run is empty. -/
theorem ne_nil_of_mem_runs {m : Marker} {lines : List Text} {run : List Nat}
    (h : run ∈ m.runs lines) : run ≠ [] := by
  obtain ⟨run', hrun', rfl⟩ := List.mem_map.mp h
  have hlen : 2 ≤ run'.length := by simpa using (List.mem_filter.mp hrun').2
  rintro hnil
  rw [List.map_eq_nil_iff.mp hnil] at hlen
  simp at hlen

/-- Some line of a run stands at its target. -/
theorem exists_at_target (cols : Array (Option Nat)) {run : List Nat} (hne : run ≠ []) :
    ∃ i ∈ run, Marker.columnAt cols i = Marker.target cols run := by
  by_contra hnone
  have hless : ∀ i ∈ run, Marker.columnAt cols i ≤ Marker.target cols run - 1 := by
    intro i hi
    have hle : Marker.columnAt cols i ≤ Marker.target cols run := columnAt_le_target hi
    have hlt : Marker.columnAt cols i ≠ Marker.target cols run := fun h => hnone ⟨i, hi, h⟩
    omega
  obtain ⟨i, run, rfl⟩ := List.exists_cons_of_ne_nil hne
  have htarget := target_le_iff.mpr hless
  have hi : Marker.columnAt cols i ≤ Marker.target cols (i :: run) :=
    columnAt_le_target List.mem_cons_self
  exact hnone ⟨i, List.mem_cons_self, by omega⟩

/-- Columns that are nearer to the target of a run, and not beyond it, have the same target. -/
theorem target_nearer {cols cols' : Array (Option Nat)} {run : List Nat} (hne : run ≠ [])
    (h : ∀ i ∈ run, Marker.columnAt cols i ≤ Marker.columnAt cols' i ∧
      Marker.columnAt cols' i ≤ Marker.target cols run) :
    Marker.target cols' run = Marker.target cols run := by
  apply Nat.le_antisymm
  · exact target_le_iff.mpr fun i hi => (h i hi).2
  · obtain ⟨i, hi, hmax⟩ := exists_at_target cols hne
    calc Marker.target cols run = Marker.columnAt cols i := hmax.symm
      _ ≤ Marker.columnAt cols' i := (h i hi).1
      _ ≤ Marker.target cols' run := columnAt_le_target hi

section
variable {p : Aligner} (hp : p.Steady) {s : Shelves} {lines out : List Text}
  {cols : List (Option Nat)}
include hp

/-- A line of a run, before and after. -/
theorem Aligner.Steady.line_of_run {run : List Nat} (hrun : run ∈ p.marker.runs lines) {i : Nat}
    (hi : i ∈ run) (cols : Array (Option Nat)) :
    ∃ x b, p.Marks x b ∧ lines[i]? = some (x ++ (p.sign ++ b)) ∧
      (lines.mapIdx (p.marker.alignLine ((p.marker.runs lines).map fun run =>
        (run, Marker.target cols run)) cols))[i]? =
        some (p.front x (Marker.target cols run - Marker.columnAt cols i) ++ (p.sign ++ b)) := by
  obtain ⟨line, cut, hline, hcut⟩ := mem_candidates (candidate_of_run hrun hi)
  obtain ⟨x, b, rfl, hmarks⟩ := hp.marks hcut
  refine ⟨x, b, hmarks, hline, ?_⟩
  rw [List.getElem?_mapIdx, hline, Option.map_some, alignLine_run hrun hi hmarks.cut, hp.shift]

/-- Aligned lines are measured again, at the same places of the lines or at others, and a line that
was moved has the column that it had and what it was moved by. -/
theorem Aligner.Steady.columns_again (hmoves : List.Forall₂ p.marker.Moves lines out)
    (hcols : columns s (lines.map fun l => (l, p.marker.cut l)) = .ok cols)
    {cut : Text → Option Nat}
    (hcut : ∀ l l', p.marker.Moves l l' → ReadAlike (l, p.marker.cut l) (l', cut l')) :
    ∃ cols', columns s (out.map fun l => (l, cut l)) = .ok cols' ∧
      ∀ (i : Nat) x b n j, p.Marks x b → lines[i]? = some (x ++ (p.sign ++ b)) →
        out[i]? = some (p.front x n ++ (p.sign ++ b)) → j ≤ n + p.lead →
        cut (p.front x n ++ (p.sign ++ b)) = some ((p.kept x).length + j) →
          ∃ w, cols[i]? = some (some w) ∧ cols'[i]? = some (some (w + j)) := by
  obtain ⟨cols', hcols', hfarther⟩ := columnsFrom_alike (List.rel_map hcut hmoves) hcols
  refine ⟨cols', hcols', fun i x b n j hmarks hline hout hj hplace => ?_⟩
  obtain ⟨gap, hgap, hspace⟩ := hp.split x
  have hbefore : (lines.map fun l => (l, p.marker.cut l))[i]? =
      some (p.kept x ++ (gap ++ (p.sign ++ b)), some (p.kept x).length) := by
    rw [List.getElem?_map, hline, Option.map_some, hmarks.cut, ← List.append_assoc (p.kept x),
      ← hgap]
  have hafter : (out.map fun l => (l, cut l))[i]? =
      some (p.kept x ++ (List.replicate (n + p.lead) ' ' ++ (p.sign ++ b)),
        some ((p.kept x).length + j)) := by
    rw [List.getElem?_map, hout, Option.map_some, hplace, front, List.append_assoc]
  obtain ⟨col, col', hcol, hcol', hmore⟩ := hfarther i _ _ hbefore hafter
  obtain ⟨w, rfl, rfl⟩ := hmore _ gap _ _ j hspace hj rfl rfl
  exact ⟨w, hcol, hcol'⟩

end

/-! ## Aligning -/

/-- What aligning makes of lines. Lines outside the runs are left alone, and on a line of a run the
first sign is moved by spaces in front of it. Measured again at their signs, the lines of a run have
one column, the largest they had before and what stands between code and sign at least. The runs
are those there were, and lines that are aligned again stay as they are. -/
structure Realigned (p : Aligner) (s : Shelves) (lines out : List Text) : Prop where
  length : out.length = lines.length
  outside : ∀ i : Nat, (∀ run ∈ p.marker.runs lines, i ∉ run) → out[i]? = lines[i]?
  inside : ∀ run ∈ p.marker.runs lines, ∀ i ∈ run, ∃ x b n,
    lines[i]? = some (x ++ (p.sign ++ b)) ∧
    find? p.sign (x ++ (p.sign ++ b)) = some x.length ∧
    out[i]? = some (p.kept x ++ (List.replicate (n + p.lead) ' ' ++ (p.sign ++ b)))
  runs : p.marker.runs out = p.marker.runs lines
  measured : p.marker.runs lines ≠ [] → ∃ before after,
    columns s (lines.map fun l => (l, p.marker.cut l)) = .ok before ∧
    columns s (out.map fun l => (l, p.place l)) = .ok after ∧
    ∀ run ∈ p.marker.runs lines, ∃ column,
      (∃ i ∈ run, before[i]? = some (some column)) ∧
      ∀ i ∈ run, (∃ w ≤ column, before[i]? = some (some w)) ∧
        after[i]? = some (some (column + p.lead))
  again : p.marker.align s out = .ok out

section
variable {p : Aligner} (hp : p.Steady) {s : Shelves} {lines out : List Text}
include hp

theorem Aligner.Steady.runs_align (h : p.marker.align s lines = .ok out) :
    p.marker.runs out = p.marker.runs lines :=
  Marker.runs_congr (map_eq_of_forall₂ (fun _ _ hl => hp.role_moves hl) (align_moves h))

/-- Lines that are aligned again have their targets where they were, and each line is there. -/
theorem Aligner.Steady.align_again (h : p.marker.align s lines = .ok out) :
    p.marker.align s out = .ok out := by
  have hruns := hp.runs_align h
  have hmoves := align_moves h
  by_cases hnone : p.marker.runs lines = []
  · rw [Marker.align, hruns, hnone]
    rfl
  rw [align_eq hnone] at h
  obtain ⟨cols, hcols, hout⟩ := ok_of_map h
  obtain ⟨cols', hcols', hlater⟩ := hp.columns_again hmoves hcols fun _ _ => hp.alike_cut
  -- how far a line of a run was moved, and how much of that is part of the code now
  have hline : ∀ run ∈ p.marker.runs lines, ∀ i ∈ run, ∃ x b k, p.Marks x b ∧
      out[i]? = some (p.front x (Marker.target cols.toArray run -
        Marker.columnAt cols.toArray i) ++ (p.sign ++ b)) ∧
      p.kept (p.front x (Marker.target cols.toArray run - Marker.columnAt cols.toArray i)) =
        p.kept x ++ List.replicate k ' ' ∧
      k ≤ Marker.target cols.toArray run - Marker.columnAt cols.toArray i ∧
      Marker.columnAt cols'.toArray i = Marker.columnAt cols.toArray i + k := by
    intro run hrun i hi
    obtain ⟨x, b, hmarks, hbefore, hafter⟩ := hp.line_of_run hrun hi cols.toArray
    rw [hout] at hafter
    obtain ⟨k, hk, hkept, hcut⟩ := hp.cut_front hmarks
      (Marker.target cols.toArray run - Marker.columnAt cols.toArray i)
    obtain ⟨w, hw, hw'⟩ := hlater i x b _ k hmarks hbefore hafter (by omega) hcut
    refine ⟨x, b, k, hmarks, hafter, hkept, hk, ?_⟩
    rw [columnAt_of_getElem? hw, columnAt_of_getElem? hw']
  have htarget : ∀ run ∈ p.marker.runs lines,
      Marker.target cols'.toArray run = Marker.target cols.toArray run := by
    intro run hrun
    apply target_nearer (ne_nil_of_mem_runs hrun)
    intro i hi
    obtain ⟨_, _, k, _, _, _, hk, hcol⟩ := hline run hrun i hi
    have hle : Marker.columnAt cols.toArray i ≤ Marker.target cols.toArray run :=
      columnAt_le_target hi
    omega
  have hsame : out.mapIdx (p.marker.alignLine ((p.marker.runs out).map fun run =>
      (run, Marker.target cols'.toArray run)) cols'.toArray) = out := by
    apply List.ext_getElem?
    intro i
    rw [List.getElem?_mapIdx]
    by_cases hin : ∃ run ∈ p.marker.runs lines, i ∈ run
    · obtain ⟨run, hrun, hi⟩ := hin
      obtain ⟨x, b, k, hmarks, hafter, hkept, hk, hcol⟩ := hline run hrun i hi
      have hmoved := hp.marks_front hmarks
        (Marker.target cols.toArray run - Marker.columnAt cols.toArray i)
      rw [hafter, Option.map_some, alignLine_run (hruns.symm ▸ hrun) hi hmoved.cut, hp.shift,
        htarget run hrun, hcol, Nat.sub_add_eq, Aligner.front_front hk hkept]
    · have houtside : ∀ run ∈ p.marker.runs out, i ∉ run := by
        intro run hrun hi
        exact hin ⟨run, hruns ▸ hrun, hi⟩
      rw [funext (alignLine_outside houtside)]
      exact Option.map_id'
  rw [align_eq (hruns.symm ▸ hnone), hcols']
  exact congrArg Except.ok hsame

/-- The signs of a run come to the largest of their columns. -/
theorem Aligner.Steady.columns_align (h : p.marker.align s lines = .ok out)
    (hruns : p.marker.runs lines ≠ []) : ∃ before after,
    columns s (lines.map fun l => (l, p.marker.cut l)) = .ok before ∧
    columns s (out.map fun l => (l, p.place l)) = .ok after ∧
    ∀ run ∈ p.marker.runs lines, ∀ i ∈ run, ∃ x b w,
      p.Marks x b ∧ lines[i]? = some (x ++ (p.sign ++ b)) ∧ before[i]? = some (some w) ∧
      w ≤ Marker.target before.toArray run ∧
      out[i]? = some (p.front x (Marker.target before.toArray run - w) ++ (p.sign ++ b)) ∧
      after[i]? = some (some (Marker.target before.toArray run + p.lead)) := by
  have hmoves := align_moves h
  rw [align_eq hruns] at h
  obtain ⟨before, hbefore, hout⟩ := ok_of_map h
  obtain ⟨after, hafter, hlater⟩ := hp.columns_again hmoves hbefore fun _ _ => hp.alike_place
  refine ⟨before, after, hbefore, hafter, fun run hrun i hi => ?_⟩
  obtain ⟨x, b, hmarks, hline, hmoved⟩ := hp.line_of_run hrun hi before.toArray
  rw [hout] at hmoved
  obtain ⟨w, hw, hw'⟩ := hlater i x b _ _ hmarks hline hmoved (Nat.le_refl _)
    (hp.place_front hmarks _)
  have hcol := columnAt_of_getElem? hw
  have hle : Marker.columnAt before.toArray i ≤ Marker.target before.toArray run :=
    columnAt_le_target hi
  -- no column is beyond the target, so nothing is cut off by the difference
  have hsum : w + (Marker.target before.toArray run - w + p.lead) =
      Marker.target before.toArray run + p.lead := by omega
  rw [hcol] at hmoved hle hw'
  rw [hsum] at hw'
  exact ⟨x, b, w, hmarks, hline, hw, hle, hmoved, hw'⟩

/-- Aligning lines, where it does not fail, brings the signs of each run to one column and changes
nothing else. -/
theorem Aligner.Steady.realigned (h : p.marker.align s lines = .ok out) :
    Realigned p s lines out where
  length := (align_moves h).length_eq.symm
  outside _ hi := align_outside h hi
  inside run hrun i hi := by
    obtain ⟨before, _, _, _, hline⟩ := hp.columns_align h (List.ne_nil_of_mem hrun)
    obtain ⟨x, b, w, hmarks, hbefore, _, _, hafter, _⟩ := hline run hrun i hi
    rw [front, List.append_assoc] at hafter
    exact ⟨x, b, _, hbefore, hmarks.first, hafter⟩
  runs := hp.runs_align h
  measured hruns := by
    obtain ⟨before, after, hbefore, hafter, hline⟩ := hp.columns_align h hruns
    refine ⟨before, after, hbefore, hafter, fun run hrun => ?_⟩
    refine ⟨Marker.target before.toArray run, ?_, fun i hi => ?_⟩
    · obtain ⟨i, hi, hmax⟩ := exists_at_target before.toArray (ne_nil_of_mem_runs hrun)
      obtain ⟨_, _, w, _, _, hw, _⟩ := hline run hrun i hi
      rw [columnAt_of_getElem? hw] at hmax
      exact ⟨i, hi, hmax ▸ hw⟩
    · obtain ⟨_, _, w, _, _, hw, hle, _, hafter⟩ := hline run hrun i hi
      exact ⟨⟨w, hle, hw⟩, hafter⟩
  again := hp.align_again h

end

/-- Either pass of alignment, over any lines and literals on which it does not fail. -/
theorem align_realigned {p : Aligner} (hp : p = equalsAligner ∨ p = remarkAligner) {s : Shelves}
    {lines out : List Text} (h : p.marker.align s lines = .ok out) : Realigned p s lines out := by
  rcases hp with rfl | rfl
  · exact steady_assignments.realigned h
  · exact steady_remarks.realigned h

/-- Literals for two comments and a string. -/
def wideShelves : Shelves where
  markup := []
  delimiter := []
  string := ["\"kk\"".toList]
  remark := ["' a".toList, "' b".toList]
  resume := []

/-- Comments behind code, one behind a string and one behind a letter of two columns. -/
def wideRemarks : List Text :=
  ["d(\x00quoted\x00)=1 \x00comment\x00", "", "宽=2\t\x00comment\x00"].map String.toList

/-- The string counts with its width, the wide letter with two columns, and the tab is not kept. -/
theorem wideRemarks_realigned :
    remarkAligner.marker.align wideShelves wideRemarks =
      .ok (["d(\x00quoted\x00)=1 \x00comment\x00", "", "宽=2      \x00comment\x00"].map
        String.toList) ∧
    Realigned remarkAligner wideShelves wideRemarks
      (["d(\x00quoted\x00)=1 \x00comment\x00", "", "宽=2      \x00comment\x00"].map
        String.toList) := by
  have halign : remarkAligner.marker.align wideShelves wideRemarks =
      .ok (["d(\x00quoted\x00)=1 \x00comment\x00", "", "宽=2      \x00comment\x00"].map
        String.toList) := by decide +kernel
  exact ⟨halign, align_realigned (.inr rfl) halign⟩

end VbTidy
