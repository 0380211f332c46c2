import VbTidy.Proofs.Longest
import VbTidy.Proofs.Reads
import VbTidy.Proofs.Runs

/-
The columns that aligning brings about. Aligning measures the text in front of the marked places
while it reads the document, and moves each place by what its column lacks of the rightmost one of
its run. Read again, the text in front of the places of a run is of one width (`align_assignments`,
`align_remarks`), and it stays so when other white space of the lines is moved: the lines in front
are read with the same literals (`ReadAt.respaced`).
-/
namespace VbTidy

/-! ## Reading up to a place -/

section
variable {s : Shelves}

theorem backOrder_nodup : Kind.backOrder.Nodup := by decide

/-- Part of a line is read as a text, after the lines in front of it have been read. -/
def ReadAt (s : Shelves) (lines : List Text) (i : Nat) (part u : Text) : Prop :=
  ∃ us middle at', ReadsAll s Kind.backOrder (PerKind.const 0) (lines.take i) us middle ∧
    Reads s Kind.backOrder middle part u at'

theorem reads_spaces {ks : List Kind} {at_ : PerKind Nat} {x : Text}
    (hx : ∀ c ∈ x, isSpace c = true) : Reads s ks at_ x x at_ :=
  reads_of_nul_free (nul_not_mem_spaces hx)

theorem ReadAt.spaces {lines : List Text} {i : Nat} {part u : Text} (n : Nat)
    (h : ReadAt s lines i part u) :
    ReadAt s lines i (part ++ List.replicate n ' ') (u ++ List.replicate n ' ') := by
  obtain ⟨us, middle, at', hall, hpart⟩ := h
  have hspaces := spaces_replicate n
  refine ⟨us, middle, at', hall, (reads_append backOrder_nodup (head_spaces hspaces)).mpr ?_⟩
  exact ⟨u, at', _, hpart, reads_spaces hspaces, rfl⟩

/-! ## Other white space -/

/-- The white space at one place of a line is another, and nothing reaches across that place. -/
def Respaced (l l' : Text) : Prop :=
  ∃ a x x' b, l = a ++ (x ++ b) ∧ l' = a ++ (x' ++ b) ∧ (∀ c ∈ x, isSpace c = true) ∧
    (∀ c ∈ x', isSpace c = true) ∧ ((x ++ b).head?).all isBreak = true ∧
    ((x' ++ b).head?).all isBreak = true

theorem Respaced.refl (l : Text) : Respaced l l :=
  ⟨l, [], [], [], by simp, by simp, by simp, by simp, rfl, rfl⟩

theorem Respaced.reads {l l' v : Text} {at_ at' : PerKind Nat} (h : Respaced l l')
    (hl : Reads s Kind.backOrder at_ l v at') : ∃ v', Reads s Kind.backOrder at_ l' v' at' := by
  obtain ⟨a, x, x', b, rfl, rfl, hx, hx', hhead, hhead'⟩ := h
  obtain ⟨u, middle, u', hu, hu', rfl⟩ := (reads_append backOrder_nodup hhead).mp hl
  obtain ⟨w, hw, rfl⟩ := (reads_nul_free_append (nul_not_mem_spaces hx)).mp hu'
  have hother := (reads_nul_free_append (nul_not_mem_spaces hx')).mpr ⟨w, hw, rfl⟩
  exact ⟨_, (reads_append backOrder_nodup hhead').mpr ⟨u, middle, _, hu, hother, rfl⟩⟩

theorem ReadsAll.respaced {at_ at' : PerKind Nat} {ts ts' vs : List Text}
    (h : List.Forall₂ Respaced ts ts') (hts : ReadsAll s Kind.backOrder at_ ts vs at') :
    ∃ vs', ReadsAll s Kind.backOrder at_ ts' vs' at' := by
  induction h generalizing at_ vs with
  | nil =>
    cases hts
    exact ⟨[], .nil⟩
  | cons hl _ ih =>
    cases hts with
    | cons hfirst hmore =>
      obtain ⟨v', hv'⟩ := hl.reads hfirst
      obtain ⟨vs', hvs'⟩ := ih hmore
      exact ⟨v' :: vs', .cons hv' hvs'⟩

/-- Lines in front may be respaced. -/
theorem ReadAt.respaced {lines lines' : List Text} {i : Nat} {part u : Text}
    (h : List.Forall₂ Respaced lines lines') (hr : ReadAt s lines i part u) :
    ReadAt s lines' i part u := by
  obtain ⟨us, middle, at', hall, hpart⟩ := hr
  obtain ⟨us', hall'⟩ := hall.respaced (List.forall₂_take i h)
  exact ⟨us', middle, at', hall', hpart⟩

end

/-! ## Marked places of clear lines -/

/-- The comment behind code stands at the end of its line, with white space before it. -/
theorem remark_apart {line : Text} (h : Clear line) {cut : Nat}
    (hcut : remarkMarker.cut line = some cut) :
    ∃ a s, line = a ++ (s ++ Kind.remark.token) ∧ s ≠ [] ∧ (∀ c ∈ s, isSpace c = true) ∧
      cut = a.length ∧ ∀ n, remarkMarker.shift cut n line =
        a ++ (List.replicate (n + 1) ' ' ++ Kind.remark.token) := by
  obtain ⟨x, y, hline, hfirst, rfl, _⟩ := remark_shift (n := 0) hcut
  subst hline
  obtain ⟨hx, rfl⟩ := comment_of_first h.settled.toOrderly (h.clear .remark) hfirst
  obtain ⟨s, hs, hspace⟩ := dropEnd_append isSpace x
  have hline : x ++ (Kind.remark.token ++ []) = dropEnd isSpace x ++ (s ++ Kind.remark.token) := by
    conv_lhs => rw [hs]
    simp
  refine ⟨dropEnd isSpace x, s, hline, ?_, hspace, rfl, fun n => ?_⟩
  · rintro rfl
    rw [List.append_nil] at hs
    have hlast := h.settled.apart x [] ⟨rfl, hx.sound⟩
    obtain rfl := eq_nil_of_dropEnd hs.symm hlast
    -- a line that is just a comment has no marked place
    have hgap : (trim ([] ++ (Kind.remark.token ++ [])) == Kind.remark.token) = true := by decide
    rw [remarkMarker] at hcut
    simp only [hgap, if_true] at hcut
    cases hcut
  · rw [hline]
    simp only [remarkMarker]
    rw [List.take_left, List.drop_left, dropWhile_spaces_append hspace rfl, List.append_assoc]

theorem Clear.respaced {m : Marker} (hm : m = assignmentMarker ∨ m = remarkMarker) {l l' : Text}
    (h : Clear l) (hl : m.Moves l l') : Respaced l l' := by
  rcases hl with rfl | ⟨cut, n, hcut, rfl⟩
  · exact .refl l'
  · rcases hm with rfl | rfl
    · obtain ⟨a, b, rfl, _, hshift⟩ := assignment_shift (n := n) hcut
      have hhead : ((List.replicate n ' ' ++ '=' :: b).head?).all isBreak = true := by
        cases n <;> rfl
      exact ⟨a, [], List.replicate n ' ', '=' :: b, rfl, hshift, by simp, spaces_replicate n, rfl,
        hhead⟩
    · obtain ⟨a, s, rfl, hne, hs, _, hshift⟩ := remark_apart h hcut
      have hhead := head_breaks_append hne (fun c hc => isBreak_of_isSpace (hs c hc))
        Kind.remark.token
      exact ⟨a, s, List.replicate (n + 1) ' ', Kind.remark.token, rfl, hshift n, hs,
        spaces_replicate _, hhead, rfl⟩

/-- Aligning respaces the lines. -/
theorem respaced_align {m : Marker} (hm : m = assignmentMarker ∨ m = remarkMarker) {s : Shelves}
    {lines out : List Text} (hclear : ∀ l ∈ lines, Clear l) (h : m.align s lines = .ok out) :
    List.Forall₂ Respaced lines out := by
  have hmoves := align_moves h
  clear h
  induction hmoves with
  | nil => exact .nil
  | cons hl _ ih =>
    have hfirst := (hclear _ List.mem_cons_self).respaced hm hl
    exact .cons hfirst (ih fun l' hl' => hclear l' (List.mem_cons_of_mem _ hl'))

/-- What stands behind the cut of a line starts with a break. -/
theorem Clear.loose_cut {m : Marker} (hm : m = assignmentMarker ∨ m = remarkMarker) {l : Text}
    (h : Clear l) {cut : Nat} (hcut : m.cut l = some cut) :
    ((l.drop cut).head?).all isBreak = true := by
  rcases hm with rfl | rfl
  · obtain ⟨a, b, rfl, rfl, _⟩ := assignment_shift (n := 0) hcut
    rw [List.drop_left]
    rfl
  · obtain ⟨a, s, rfl, hne, hs, rfl, _⟩ := remark_apart h hcut
    rw [List.drop_left]
    exact head_breaks_append hne (fun c hc => isBreak_of_isSpace (hs c hc)) _

/-! ## What is measured -/

section
variable {s : Shelves}

/-- A line without a cut is read as a whole. -/
theorem columnsFrom_whole {at_ : PerKind Nat} {line : Text} {more : List (Text × Option Nat)}
    {cols : List (Option Nat)} : columnsFrom s at_ ((line, none) :: more) = .ok cols ↔
      ∃ v at' later, Reads s Kind.backOrder at_ line v at' ∧ columnsFrom s at' more = .ok later ∧
        cols = none :: later := by
  constructor
  · intro h
    rw [columnsFrom] at h
    cases hfill : s.fill at_ line with
    | mk r at' =>
      rw [hfill] at h
      cases r with
      | error e => cases h
      | ok v =>
        obtain ⟨later, hlater, rfl⟩ := ok_of_map h
        exact ⟨v, at', later, hfill, hlater, rfl⟩
  · rintro ⟨v, at', later, hv, hlater, rfl⟩
    have hfill : s.fill at_ line = (.ok v, at') := hv
    rw [columnsFrom, hfill]
    simp only [hlater]
    rfl

/-- A line with a cut is read in two parts, and the first gives the column. -/
theorem columnsFrom_parts {at_ : PerKind Nat} {line : Text} {cut : Nat}
    {more : List (Text × Option Nat)} {cols : List (Option Nat)} :
    columnsFrom s at_ ((line, some cut) :: more) = .ok cols ↔
      ∃ u middle v at' later, Reads s Kind.backOrder at_ (line.take cut) u middle ∧
        Reads s Kind.backOrder middle (line.drop cut) v at' ∧ columnsFrom s at' more = .ok later ∧
        cols = some (width (lastLine u)) :: later := by
  constructor
  · intro h
    rw [columnsFrom] at h
    cases hfill : s.fill at_ (line.take cut) with
    | mk r middle =>
      rw [hfill] at h
      cases r with
      | error e => cases h
      | ok u =>
        dsimp only at h
        cases hfill' : s.fill middle (line.drop cut) with
        | mk r at' =>
          rw [hfill'] at h
          cases r with
          | error e => cases h
          | ok v =>
            obtain ⟨later, hlater, rfl⟩ := ok_of_map h
            exact ⟨u, middle, v, at', later, hfill, hfill', hlater, rfl⟩
  · rintro ⟨u, middle, v, at', later, hu, hv, hlater, rfl⟩
    have hfill : s.fill at_ (line.take cut) = (.ok u, middle) := hu
    have hfill' : s.fill middle (line.drop cut) = (.ok v, at') := hv
    rw [columnsFrom, hfill]
    simp only [hfill', hlater]
    rfl

/-- One line is measured: it is read, and so is the text before its cut, which gives the column. -/
theorem columnsFrom_cons {at_ : PerKind Nat} {line : Text} {cut : Option Nat}
    {more : List (Text × Option Nat)} {cols : List (Option Nat)}
    (h : columnsFrom s at_ ((line, cut) :: more) = .ok cols)
    (hloose : ∀ n, cut = some n → ((line.drop n).head?).all isBreak = true) :
    ∃ v at' col later, cols = col :: later ∧ Reads s Kind.backOrder at_ line v at' ∧
      columnsFrom s at' more = .ok later ∧
      ∀ n, cut = some n → ∃ u middle, Reads s Kind.backOrder at_ (line.take n) u middle ∧
        col = some (width (lastLine u)) := by
  cases cut with
  | none =>
    obtain ⟨v, at', later, hv, hlater, rfl⟩ := columnsFrom_whole.mp h
    exact ⟨v, at', none, later, rfl, hv, hlater, fun n hn => by cases hn⟩
  | some n =>
    obtain ⟨u, middle, v, at', later, hu, hv, hlater, rfl⟩ := columnsFrom_parts.mp h
    have hwhole := (reads_append backOrder_nodup (hloose n rfl)).mpr ⟨u, middle, v, hu, hv, rfl⟩
    rw [List.take_append_drop] at hwhole
    refine ⟨u ++ v, at', _, later, rfl, hwhole, hlater, fun j hj => ?_⟩
    obtain rfl := Option.some.inj hj
    exact ⟨u, middle, hu, rfl⟩

/-- The column of each cut is the width of what the text before it is read as. -/
theorem columnsFrom_reads {lines : List (Text × Option Nat)} {at_ : PerKind Nat}
    {cols : List (Option Nat)} (h : columnsFrom s at_ lines = .ok cols)
    (hloose : ∀ line n, (line, some n) ∈ lines → ((line.drop n).head?).all isBreak = true)
    {i n : Nat} {line : Text} (hi : lines[i]? = some (line, some n)) :
    ∃ us middle u at', ReadsAll s Kind.backOrder at_ ((lines.map Prod.fst).take i) us middle ∧
      Reads s Kind.backOrder middle (line.take n) u at' ∧
      cols[i]? = some (some (width (lastLine u))) := by
  induction lines generalizing at_ cols i with
  | nil => simp at hi
  | cons p lines ih =>
    obtain ⟨l, cut⟩ := p
    have hl : ∀ n, cut = some n → ((l.drop n).head?).all isBreak = true := by
      rintro n rfl
      exact hloose l n List.mem_cons_self
    obtain ⟨v, at₁, col, later, rfl, hread, hlater, hcol⟩ := columnsFrom_cons h hl
    cases i with
    | zero =>
      obtain ⟨rfl, rfl⟩ := Prod.mk.inj (Option.some.inj hi)
      obtain ⟨u, middle, hu, rfl⟩ := hcol n rfl
      exact ⟨[], at_, u, middle, .nil, hu, rfl⟩
    | succ i =>
      obtain ⟨us, middle, u, at', hall, hu, hcol'⟩ :=
        ih hlater (fun line n hmem => hloose line n (List.mem_cons_of_mem _ hmem)) hi
      exact ⟨v :: us, middle, u, at', .cons hread hall, hu, hcol'⟩

end

/-! ## Runs -/

theorem mem_candidates {m : Marker} {lines : List Text} {i : Nat} (h : i ∈ m.candidates lines) :
    ∃ line cut, lines[i]? = some line ∧ m.cut line = some cut := by
  obtain ⟨⟨line, j⟩, hmem, rfl⟩ := List.mem_map.mp h
  obtain ⟨hmem, hcut⟩ := List.mem_filter.mp hmem
  obtain ⟨cut, hcut⟩ := Option.isSome_iff_exists.mp hcut
  exact ⟨line, cut, List.mem_zipIdx_iff_getElem?.mp hmem, hcut⟩

theorem nodup_candidates (m : Marker) (lines : List Text) : (m.candidates lines).Nodup := by
  have hall : (lines.zipIdx.map Prod.snd).Nodup := by
    rw [List.zipIdx_map_snd]
    exact List.nodup_range'
  exact hall.sublist (List.filter_sublist.map Prod.snd)

theorem toNat_ofNat_map (is : List Nat) : (is.map Int.ofNat).map Int.toNat = is := by
  rw [List.map_map]
  exact (List.map_congr_left fun i _ => rfl).trans (List.map_id is)

/-- The runs hold candidates in order, none of them twice. -/
theorem flatten_runs_sublist (m : Marker) (lines : List Text) :
    List.Sublist (m.runs lines).flatten (m.candidates lines) := by
  rw [Marker.runs, ← List.map_flatten, ← toNat_ofNat_map (m.candidates lines)]
  apply List.Sublist.map
  rw [toNat_ofNat_map]
  exact linkedRuns_sublist lines _

/-- The runs that are aligned are the longest ones. -/
theorem runs_longest (m : Marker) (lines : List Text) (run : List Nat) : run ∈ m.runs lines ↔
    LongestRun lines ((m.candidates lines).map Int.ofNat) (run.map Int.ofNat) := by
  have hnodup : ((m.candidates lines).map Int.ofNat).Nodup :=
    (nodup_candidates m lines).map fun _ _ => Int.ofNat.inj
  rw [← mem_linkedRuns_iff hnodup, Marker.runs, List.mem_map]
  constructor
  · rintro ⟨found, hfound, rfl⟩
    -- a run found holds candidates, which are numbers of lines
    have hback : (found.map Int.toNat).map Int.ofNat = found := by
      rw [List.map_map]
      refine (List.map_congr_left fun i hi => ?_).trans (List.map_id found)
      have hmem := (linkedRuns_sublist lines _).subset (List.mem_flatten.mpr ⟨found, hfound, hi⟩)
      obtain ⟨n, _, rfl⟩ := List.mem_map.mp hmem
      rfl
    rwa [hback]
  · exact fun h => ⟨_, h, toNat_ofNat_map run⟩

theorem run_unique {m : Marker} {lines : List Text} {run run' : List Nat} {i : Nat}
    (h : run ∈ m.runs lines) (h' : run' ∈ m.runs lines) (hi : i ∈ run) (hi' : i ∈ run') :
    run = run' :=
  eq_of_mem_both ((nodup_candidates m lines).sublist (flatten_runs_sublist m lines)) h h' hi hi'

theorem candidate_of_run {m : Marker} {lines : List Text} {run : List Nat} {i : Nat}
    (h : run ∈ m.runs lines) (hi : i ∈ run) : i ∈ m.candidates lines :=
  (flatten_runs_sublist m lines).subset (List.mem_flatten.mpr ⟨run, h, hi⟩)

theorem foldl_max_le_iff {ns : List Nat} {a b : Nat} :
    ns.foldl max a ≤ b ↔ a ≤ b ∧ ∀ n ∈ ns, n ≤ b := by
  induction ns generalizing a with
  | nil => simp
  | cons m ns ih =>
    rw [List.foldl_cons, ih, List.forall_mem_cons, Nat.max_le, and_assoc]

/-- The target of a run is at a column just if no line of the run is behind it. -/
theorem target_le_iff {cols : Array (Option Nat)} {run : List Nat} {column : Nat} :
    Marker.target cols run ≤ column ↔ ∀ i ∈ run, Marker.columnAt cols i ≤ column := by
  rw [Marker.target, foldl_max_le_iff]
  simp

theorem columnAt_le_target {cols : Array (Option Nat)} {run : List Nat} {i : Nat} (hi : i ∈ run) :
    Marker.columnAt cols i ≤ Marker.target cols run :=
  target_le_iff.mp (Nat.le_refl _) i hi

/-! ## Aligning -/

/-- Where there are runs, all lines are measured, and each is moved by what it lacks of the target of
its run. -/
theorem align_eq {m : Marker} {lines : List Text} (hruns : m.runs lines ≠ []) (s : Shelves) :
    m.align s lines = (columns s (lines.map fun line => (line, m.cut line))).map fun cols =>
      lines.mapIdx (m.alignLine ((m.runs lines).map fun run =>
        (run, Marker.target cols.toArray run)) cols.toArray) := by
  simp only [Marker.align]
  rw [if_neg (by simpa using hruns)]

section
variable {m : Marker} {lines : List Text} {cols : Array (Option Nat)} {i : Nat}

/-- A line is on one run at most, and is moved with that. -/
theorem alignLine_run {run : List Nat} (hrun : run ∈ m.runs lines) (hi : i ∈ run) {line : Text}
    {cut : Nat} (hcut : m.cut line = some cut) :
    m.alignLine ((m.runs lines).map fun run => (run, Marker.target cols run)) cols i line =
      m.shift cut (Marker.target cols run - Marker.columnAt cols i) line := by
  have hfind : ((m.runs lines).map fun run => (run, Marker.target cols run)).find?
      (·.1.contains i) = some (run, Marker.target cols run) := by
    cases hf : ((m.runs lines).map fun run => (run, Marker.target cols run)).find?
        (·.1.contains i) with
    | none =>
      have := List.find?_eq_none.mp hf (run, Marker.target cols run)
        (List.mem_map.mpr ⟨run, hrun, rfl⟩)
      simp [hi] at this
    | some p =>
      obtain ⟨run', hrun', rfl⟩ := List.mem_map.mp (List.mem_of_find?_eq_some hf)
      have hi' : i ∈ run' := by simpa using List.find?_some hf
      rw [run_unique hrun hrun' hi hi']
  rw [Marker.alignLine, hfind, hcut]

theorem alignLine_outside (hi : ∀ run ∈ m.runs lines, i ∉ run) (line : Text) :
    m.alignLine ((m.runs lines).map fun run => (run, Marker.target cols run)) cols i line =
      line := by
  have hfind : ((m.runs lines).map fun run => (run, Marker.target cols run)).find?
      (·.1.contains i) = none := by
    rw [List.find?_eq_none]
    intro p hp
    obtain ⟨run, hrun, rfl⟩ := List.mem_map.mp hp
    simpa using hi run hrun
  rw [Marker.alignLine, hfind]

end

/-- A line on no run is left alone. -/
theorem align_outside {m : Marker} {s : Shelves} {lines out : List Text}
    (h : m.align s lines = .ok out) {i : Nat} (hi : ∀ run ∈ m.runs lines, i ∉ run) :
    out[i]? = lines[i]? := by
  by_cases hnone : m.runs lines = []
  · rw [Marker.align, hnone] at h
    rw [Except.ok.inj h]
  · rw [align_eq hnone] at h
    obtain ⟨cols, _, rfl⟩ := ok_of_map h
    rw [List.getElem?_mapIdx, funext (alignLine_outside hi)]
    exact Option.map_id'

/-- Every line of a run is moved by what it lacks of one column, which is nowhere less than what the
text before the cut is wide. -/
theorem align_run {m : Marker} {s : Shelves} {lines out : List Text}
    (hloose : ∀ line ∈ lines, ∀ n, m.cut line = some n → ((line.drop n).head?).all isBreak = true)
    (h : m.align s lines = .ok out) {run : List Nat} (hrun : run ∈ m.runs lines) :
    ∃ column, ∀ i ∈ run, ∃ line cut u, lines[i]? = some line ∧ m.cut line = some cut ∧
      ReadAt s lines i (line.take cut) u ∧ width (lastLine u) ≤ column ∧
      out[i]? = some (m.shift cut (column - width (lastLine u)) line) := by
  rw [align_eq (List.ne_nil_of_mem hrun)] at h
  obtain ⟨cols, hcols, rfl⟩ := ok_of_map h
  refine ⟨Marker.target cols.toArray run, fun i hi => ?_⟩
  obtain ⟨line, cut, hline, hcut⟩ := mem_candidates (candidate_of_run hrun hi)
  have hpair : (lines.map fun line => (line, m.cut line))[i]? = some (line, some cut) := by
    rw [List.getElem?_map, hline, ← hcut]
    rfl
  have hpairs : ∀ line n, (line, some n) ∈ lines.map (fun line => (line, m.cut line)) →
      ((line.drop n).head?).all isBreak = true := by
    intro line n hmem
    obtain ⟨l, hl, heq⟩ := List.mem_map.mp hmem
    obtain ⟨rfl, hn⟩ := Prod.mk.inj heq
    exact hloose l hl n hn
  obtain ⟨us, middle, u, at', hall, hu, hcol⟩ := columnsFrom_reads hcols hpairs hpair
  have hfst : (lines.map fun line => (line, m.cut line)).map Prod.fst = lines := by
    rw [List.map_map]
    exact List.map_id lines
  rw [hfst] at hall
  have hcolumn : Marker.columnAt cols.toArray i = width (lastLine u) := by
    simp [Marker.columnAt, hcol]
  refine ⟨line, cut, u, hline, hcut, ⟨us, middle, at', hall, hu⟩, ?_, ?_⟩
  · rw [← hcolumn]
    exact columnAt_le_target hi
  · rw [List.getElem?_mapIdx, hline, Option.map_some, alignLine_run hrun hi hcut, hcolumn]

end VbTidy
