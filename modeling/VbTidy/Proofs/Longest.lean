import Mathlib.Data.List.Nodup
import Mathlib.Data.List.SplitBy
import VbTidy.Align

/-
The runs of lines that are aligned, said without the pass that collects them. Two candidates are
linked if they are neighbours or have one gap between them. A longest run is a part of the
candidates, of two or more, in which each is linked to the next and which no longer part of that
kind contains. The pass finds these and no others (`runsOf_longest`): what it splits off ends where
the link breaks at either side (`mem_splitBy_iff`), and as no candidate stands twice, a part with
such ends has one place only.
-/
namespace VbTidy

/-- The second candidate is the next line, or the one after a line that is blank or just a
comment. -/
def Linked (lines : List Text) (i j : Int) : Prop :=
  j = i + 1 ∨ (j = i + 2 ∧ ∃ line, lineAt? lines (i + 1) = some line ∧
    (trim line = [] ∨ trim line = Kind.remark.token))

/-- A part of the candidates, of two or more, in which each is linked to the next, and which is in no
longer one. -/
structure LongestRun (lines : List Text) (candidates run : List Int) : Prop where
  several : 2 ≤ run.length
  part : run <:+: candidates
  chain : run.IsChain (Linked lines)
  longest : ∀ other, other <:+: candidates → other.IsChain (Linked lines) → run <:+: other →
    other = run

/-- A candidate is linked to the one before it or to the one behind it. -/
def HasLink (lines : List Text) (candidates : List Int) (i : Int) : Prop :=
  ∃ j, ([i, j] <:+: candidates ∧ Linked lines i j) ∨ ([j, i] <:+: candidates ∧ Linked lines j i)

/-! ## Splitting where a link breaks -/

section Split
variable {α : Type} {r : α → α → Bool} {l run : List α}

/-- The last member of one list is not related to the first of the other. -/
def Broken (r : α → α → Bool) (x y : List α) : Prop :=
  ∀ i ∈ x.getLast?, ∀ j ∈ y.head?, r i j = false

theorem broken_of_edge {u x y v : List α} (hx : x ≠ []) (hy : y ≠ [])
    (h : r (x.getLast hx) (y.head hy) = false) : Broken r (u ++ x) (y ++ v) := by
  intro i hi j hj
  rw [List.getLast?_append_of_ne_nil _ hx, List.getLast?_eq_some_getLast hx] at hi
  rw [List.head?_append_of_ne_nil _ hy, List.head?_eq_some_head hy] at hj
  cases hi
  cases hj
  exact h

/-- What is split off has a place in the list at whose ends it breaks off. -/
theorem splitBy_place (h : run ∈ l.splitBy r) :
    ∃ before after, l = before ++ (run ++ after) ∧ Broken r before run ∧ Broken r run after := by
  have hedges := List.isChain_getLast_head_splitBy r l
  have hnil := List.nil_notMem_splitBy r l
  obtain ⟨xs, ys, hsplit⟩ := List.append_of_mem h
  rw [hsplit] at hedges hnil
  obtain ⟨_, hbehind, hbefore⟩ := List.isChain_append.mp hedges
  refine ⟨xs.flatten, ys.flatten, ?_, ?_, ?_⟩
  · rw [← List.flatten_splitBy r l, hsplit, List.flatten_append, List.flatten_cons]
  · rcases List.eq_nil_or_concat' xs with rfl | ⟨xs, x, rfl⟩
    · simp [Broken]
    · have hx : x ≠ [] := by
        rintro rfl
        simp at hnil
      obtain ⟨_, hrun, hbroken⟩ := hbefore x (by simp) run (by simp)
      rw [List.flatten_concat, ← List.append_nil run]
      exact broken_of_edge hx hrun hbroken
  · cases ys with
    | nil => simp [Broken]
    | cons y ys =>
      have hy : y ≠ [] := by
        rintro rfl
        simp at hnil
      obtain ⟨hrun, _, hbroken⟩ := (List.isChain_cons_cons.mp hbehind).1
      exact broken_of_edge (u := []) hrun hy hbroken

/-- What is split off is a chain that breaks off at either end. -/
theorem mem_splitBy_iff : run ∈ l.splitBy r ↔ run ≠ [] ∧ run.IsChain (fun i j => r i j = true) ∧
    ∃ before after, l = before ++ (run ++ after) ∧ Broken r before run ∧ Broken r run after := by
  constructor
  · exact fun h => ⟨List.ne_nil_of_mem_splitBy h, List.isChain_of_mem_splitBy h, splitBy_place h⟩
  · rintro ⟨hne, hchain, before, after, rfl, hbefore, hafter⟩
    have hleft : ∀ i ∈ before.getLast?, ∀ j ∈ (run ++ after).head?, r i j = false := by
      rwa [List.head?_append_of_ne_nil _ hne]
    rw [List.splitBy_append hleft, List.splitBy_append hafter, List.splitBy_of_isChain hne hchain]
    simp

/-- A member that stands once has one place. -/
theorem place_unique (hnodup : l.Nodup) {i : α} {x y x' y' : List α} (h : l = x ++ i :: y)
    (h' : l = x' ++ i :: y') : x = x' ∧ y = y' := by
  subst h
  have hfree := (List.nodup_middle.mp hnodup).notMem
  rw [List.mem_append, not_or] at hfree
  rw [List.append_cons_inj_of_notMem hfree.1 hfree.2] at h'
  exact ⟨h'.1, h'.2.2⟩

/-- Lists that hold no member twice between them share none. -/
theorem eq_of_mem_both {ls : List (List α)} (h : ls.flatten.Nodup) {x y : List α} {i : α}
    (hx : x ∈ ls) (hy : y ∈ ls) (hix : i ∈ x) (hiy : i ∈ y) : x = y := by
  have hdisjoint := (List.nodup_flatten.mp h).2
  have hsymm : Std.Symm (List.Disjoint : List α → List α → Prop) :=
    ⟨fun _ _ hd _ h₁ h₂ => hd h₂ h₁⟩
  by_contra hne
  exact hdisjoint.forall hx hy hne hix hiy

/-- Two members that are related and stand next to each other are split off together. -/
theorem pair_mem_splitBy (hnodup : l.Nodup) {i j : α} (hpair : [i, j] <:+: l) (hr : r i j = true) :
    ∃ run ∈ l.splitBy r, [i, j] <:+: run := by
  obtain ⟨a, b, hl⟩ := hpair
  have hi : i ∈ (l.splitBy r).flatten := by
    rw [List.flatten_splitBy, ← hl]
    simp
  obtain ⟨run, hrun, hi⟩ := List.mem_flatten.mp hi
  refine ⟨run, hrun, ?_⟩
  obtain ⟨x, y, rfl⟩ := List.append_of_mem hi
  obtain ⟨-, -, before, after, hplace, -, hafter⟩ := mem_splitBy_iff.mp hrun
  have hleft : l = (before ++ x) ++ i :: (y ++ after) := by
    rw [hplace]
    simp
  have hright : l = a ++ i :: (j :: b) := by
    rw [← hl]
    simp
  have hbehind : y ++ after = j :: b := (place_unique hnodup hleft hright).2
  cases y with
  | nil =>
    have hbroken := hafter i (by simp) j (by simp [show after = j :: b from hbehind])
    rw [hr] at hbroken
    cases hbroken
  | cons k y =>
    obtain ⟨rfl, -⟩ := List.cons.inj hbehind
    exact ⟨x, y, by simp⟩

end Split

/-! ## Links between lines -/

section Links
variable {lines : List Text}

theorem isGap_iff {line : Text} :
    isGap line = true ↔ trim line = [] ∨ trim line = Kind.remark.token := by
  rw [isGap, Bool.or_eq_true, beq_iff_eq, beq_iff_eq]

theorem linked_iff {i j : Int} : linked lines i j = true ↔ Linked lines i j := by
  rw [linked, Linked, Bool.or_eq_true, Bool.and_eq_true, beq_iff_eq, beq_iff_eq, Option.any_eq_true]
  simp only [isGap_iff]

/-- A candidate is linked to any line that stands before one it is linked to. -/
theorem Linked.between {i j k : Int} (h : Linked lines i j) (hik : i < k) (hkj : k ≤ j) :
    Linked lines i k := by
  rcases h with rfl | ⟨rfl, hgap⟩
  · exact .inl (by omega)
  · by_cases hk : k = i + 1
    · exact .inl hk
    · obtain rfl : k = i + 2 := by omega
      exact .inr ⟨rfl, hgap⟩

theorem not_linked_iff {i j : Int} : linked lines i j = false ↔ ¬ Linked lines i j := by
  rw [← linked_iff, Bool.not_eq_true]

/-- Between the lines of a document there is a line wherever one is looked for. -/
theorem gapsThere_of_rising {candidates : List Int} (hrising : candidates.Pairwise (· < ·))
    (hthere : ∀ i ∈ candidates, 0 ≤ i ∧ i < lines.length) : gapsThere lines candidates = true := by
  induction candidates with
  | nil => rfl
  | cons i more ih =>
    cases more with
    | nil => rfl
    | cons j more =>
      have hi := hthere i List.mem_cons_self
      have hj := hthere j (by simp)
      rw [gapsThere, ih hrising.of_cons fun k hk => hthere k (List.mem_cons_of_mem i hk),
        Bool.and_true, Bool.or_eq_true, bne_iff_ne]
      by_cases hgap : j = i + 2
      · right
        rw [lineAt?, if_pos (by omega), isSome_getElem?]
        omega
      · exact .inl hgap

variable {candidates run : List Int}

theorem LongestRun.ne_nil (h : LongestRun lines candidates run) : run ≠ [] := by
  rintro rfl
  cases h.several

/-- The candidate before a longest run is not linked to it. -/
theorem LongestRun.break_before (h : LongestRun lines candidates run) {before after : List Int}
    (hplace : candidates = before ++ (run ++ after)) {i j : Int} (hi : before.getLast? = some i)
    (hj : run.head? = some j) : ¬ Linked lines i j := by
  intro hlink
  obtain ⟨front, rfl⟩ := List.getLast?_eq_some_iff.mp hi
  obtain ⟨rest, rfl⟩ := List.head?_eq_some_iff.mp hj
  have hlonger := h.longest (i :: j :: rest) ⟨front, after, by simp [hplace]⟩
    (List.isChain_cons_cons.mpr ⟨hlink, h.chain⟩) (List.suffix_cons i _).isInfix
  simp at hlonger

/-- The candidate behind a longest run is not linked to it. -/
theorem LongestRun.break_behind (h : LongestRun lines candidates run) {before after : List Int}
    (hplace : candidates = before ++ (run ++ after)) {i j : Int} (hi : run.getLast? = some i)
    (hj : after.head? = some j) : ¬ Linked lines i j := by
  intro hlink
  obtain ⟨behind, rfl⟩ := List.head?_eq_some_iff.mp hj
  have hchain : (run ++ [j]).IsChain (Linked lines) := by
    refine List.isChain_append.mpr ⟨h.chain, List.isChain_singleton j, ?_⟩
    intro k hk m hm
    cases hi.symm.trans hk
    cases hm
    exact hlink
  have hlonger := h.longest (run ++ [j]) ⟨before, behind, by simp [hplace]⟩ hchain
    (List.prefix_append run [j]).isInfix
  simp at hlonger

/-- What is split off and is a run of several lines is a longest run. -/
theorem longestRun_of_broken (hnodup : candidates.Nodup) {before after : List Int}
    (hlen : 2 ≤ run.length) (hchain : run.IsChain (Linked lines))
    (hplace : candidates = before ++ (run ++ after)) (hbefore : Broken (linked lines) before run)
    (hafter : Broken (linked lines) run after) : LongestRun lines candidates run := by
  refine ⟨hlen, ⟨before, after, by simp [hplace]⟩, hchain, ?_⟩
  rintro other ⟨a, b, hother⟩ hlinked ⟨x, y, rfl⟩
  obtain ⟨i, rest, rfl⟩ : ∃ i rest, run = i :: rest :=
    List.exists_cons_of_length_pos (Nat.lt_of_lt_of_le Nat.two_pos hlen)
  obtain ⟨rfl, hbehind⟩ : before = a ++ x ∧ rest ++ after = rest ++ (y ++ b) :=
    place_unique hnodup (i := i) (by simp [hplace]) (by simp [← hother])
  obtain rfl := List.append_cancel_left hbehind
  have hx : x = [] := by
    rcases List.eq_nil_or_concat' x with rfl | ⟨x, k, rfl⟩
    · rfl
    · have hbroken := not_linked_iff.mp (hbefore k (by simp [← List.append_assoc]) i (by simp))
      have hlink := (List.isChain_append.mp (List.isChain_append.mp hlinked).1).2.2
      exact absurd (hlink k (by simp) i (by simp)) hbroken
  have hy : y = [] := by
    cases y with
    | nil => rfl
    | cons k y =>
      have hlast := List.getLast?_eq_some_getLast (List.cons_ne_nil i rest)
      have hbroken := not_linked_iff.mp (hafter _ hlast k (by simp))
      have hlink := (List.isChain_append.mp hlinked).2.2
      rw [hx, List.nil_append] at hlink
      exact absurd (hlink _ hlast k (by simp)) hbroken
  rw [hx, hy, List.nil_append, List.append_nil]

/-- The pass finds the longest runs. -/
theorem mem_linkedRuns_iff (hnodup : candidates.Nodup) :
    run ∈ linkedRuns lines candidates ↔ LongestRun lines candidates run := by
  rw [linkedRuns, List.mem_filter, mem_splitBy_iff, decide_eq_true_iff]
  simp only [linked_iff]
  constructor
  · rintro ⟨⟨-, hchain, before, after, hplace, hbefore, hafter⟩, hlen⟩
    exact longestRun_of_broken hnodup hlen hchain hplace hbefore hafter
  · intro h
    obtain ⟨before, after, hplace⟩ := h.part
    rw [List.append_assoc] at hplace
    refine ⟨⟨h.ne_nil, h.chain, before, after, hplace.symm, ?_, ?_⟩, h.several⟩
    · intro i hi j hj
      exact not_linked_iff.mpr (h.break_before hplace.symm hi hj)
    · intro i hi j hj
      exact not_linked_iff.mpr (h.break_behind hplace.symm hi hj)

/-- The runs hold candidates in order. -/
theorem linkedRuns_sublist (lines : List Text) (candidates : List Int) :
    List.Sublist (linkedRuns lines candidates).flatten candidates := by
  have hkept : List.Sublist (linkedRuns lines candidates).flatten
      (candidates.splitBy (linked lines)).flatten := List.filter_sublist.flatten
  rwa [List.flatten_splitBy] at hkept

/-- A candidate is in a run just if it has a link. -/
theorem hasLink_iff (hnodup : candidates.Nodup) {i : Int} :
    HasLink lines candidates i ↔ ∃ run ∈ linkedRuns lines candidates, i ∈ run := by
  constructor
  · have hpair : ∀ a b, [a, b] <:+: candidates → Linked lines a b →
        ∃ run ∈ linkedRuns lines candidates, a ∈ run ∧ b ∈ run := by
      intro a b hpart hlink
      obtain ⟨run, hrun, hin⟩ := pair_mem_splitBy hnodup hpart (linked_iff.mpr hlink)
      refine ⟨run, List.mem_filter.mpr ⟨hrun, decide_eq_true hin.length_le⟩, ?_, ?_⟩
      · exact hin.subset List.mem_cons_self
      · exact hin.subset (by simp)
    rintro ⟨j, ⟨hpart, hlink⟩ | ⟨hpart, hlink⟩⟩
    · obtain ⟨run, hrun, hi, -⟩ := hpair i j hpart hlink
      exact ⟨run, hrun, hi⟩
    · obtain ⟨run, hrun, -, hi⟩ := hpair j i hpart hlink
      exact ⟨run, hrun, hi⟩
  · rintro ⟨run, hrun, hi⟩
    have h := (mem_linkedRuns_iff hnodup).mp hrun
    obtain ⟨x, y, rfl⟩ := List.append_of_mem hi
    have hchain := List.isChain_append.mp h.chain
    cases y with
    | cons j y =>
      exact ⟨j, .inl ⟨.trans ⟨x, y, by simp⟩ h.part, (List.isChain_cons_cons.mp hchain.2.1).1⟩⟩
    | nil =>
      rcases List.eq_nil_or_concat' x with rfl | ⟨x, j, rfl⟩
      · cases Nat.not_succ_le_self 1 h.several
      · exact ⟨j, .inr ⟨.trans ⟨x, [], by simp⟩ h.part, hchain.2.2 j (by simp) i (by simp)⟩⟩

section Rising
variable (hrising : candidates.Pairwise (· < ·))
include hrising

theorem nodup_of_rising : candidates.Nodup :=
  hrising.imp fun h => Int.ne_of_lt h

/-- The runs follow one another, so no two share a candidate. -/
theorem linkedRuns_rising :
    (linkedRuns lines candidates).Pairwise fun run run' => ∀ i ∈ run, ∀ j ∈ run', i < j :=
  (List.pairwise_flatten.mp (hrising.sublist (linkedRuns_sublist lines candidates))).2

/-- Right behind a part of the candidates stands one that is no later than any other behind it. -/
theorem head_behind {before after : List Int} (hplace : candidates = before ++ (run ++ after))
    {i j : Int} (hi : i ∈ run) (hj : j ∈ candidates) (hlt : ∀ k ∈ run, k < j) :
    ∃ k, after.head? = some k ∧ i < k ∧ k ≤ j := by
  rw [hplace, List.pairwise_append, List.pairwise_append] at hrising
  obtain ⟨-, ⟨-, hafter, hbehind⟩, hbefore⟩ := hrising
  rw [hplace, List.mem_append, List.mem_append] at hj
  rcases hj with hj | hj | hj
  · have hji := hbefore j hj i (List.mem_append_left _ hi)
    exact absurd (hlt i hi) (by omega)
  · exact absurd (hlt j hj) (Int.lt_irrefl j)
  · obtain ⟨k, more, rfl⟩ := List.exists_cons_of_ne_nil (List.ne_nil_of_mem hj)
    refine ⟨k, rfl, hbehind i hi k List.mem_cons_self, ?_⟩
    rcases List.mem_cons.mp hj with rfl | hj
    · exact Int.le_refl j
    · exact Int.le_of_lt (List.rel_of_pairwise_cons hafter hj)

/-- A longest run and one behind it are no run together, whatever stands between them. -/
theorem LongestRun.not_joined {run' : List Int} (h : LongestRun lines candidates run)
    (h' : LongestRun lines candidates run') (hlt : ∀ i ∈ run, ∀ j ∈ run', i < j) :
    ¬ (run ++ run').IsChain (Linked lines) := by
  intro hjoined
  obtain ⟨before, after, hplace⟩ := h.part
  rw [List.append_assoc] at hplace
  have hlast := List.getLast?_eq_some_getLast h.ne_nil
  have hhead := List.head?_eq_some_head h'.ne_nil
  have hlink := (List.isChain_append.mp hjoined).2.2 _ hlast _ hhead
  have hj := List.head_mem h'.ne_nil
  -- the candidate right behind the run stands no later than the other run
  obtain ⟨k, hk, hik, hkj⟩ := head_behind hrising hplace.symm (List.getLast_mem h.ne_nil)
    (h'.part.subset hj) fun i hi => hlt i hi _ hj
  exact h.break_behind hplace.symm hlast hk (hlink.between hik hkj)

end Rising

end Links

/-- For candidates in rising order that are lines of the document, the runs are the longest ones. They
follow one another, each candidate with a link is in one of them and in no other, and no two of them
could be joined. -/
theorem runsOf_longest {lines : List Text} {candidates : List Int}
    (hrising : candidates.Pairwise (· < ·))
    (hthere : ∀ i ∈ candidates, 0 ≤ i ∧ i < lines.length) :
    ∃ runs, runsOf lines candidates = .ok runs ∧
      (∀ run, run ∈ runs ↔ LongestRun lines candidates run) ∧
      runs.Pairwise (fun run run' => ∀ i ∈ run, ∀ j ∈ run', i < j) ∧
      (∀ i, HasLink lines candidates i ↔ ∃! run, run ∈ runs ∧ i ∈ run) ∧
      runs.Pairwise fun run run' => ¬ (run ++ run').IsChain (Linked lines) := by
  have hnodup := nodup_of_rising hrising
  have hrow : (linkedRuns lines candidates).Pairwise
      (fun run run' => ∀ i ∈ run, ∀ j ∈ run', i < j) := linkedRuns_rising hrising
  refine ⟨linkedRuns lines candidates, ?_, fun run => mem_linkedRuns_iff hnodup, hrow, ?_, ?_⟩
  · rw [runsOf, if_pos (gapsThere_of_rising hrising hthere)]
  · intro i
    rw [hasLink_iff hnodup]
    constructor
    · rintro ⟨run, hrun, hi⟩
      have hall := hnodup.sublist (linkedRuns_sublist lines candidates)
      exact ⟨run, ⟨hrun, hi⟩, fun run' h' => eq_of_mem_both hall h'.1 hrun h'.2 hi⟩
    · rintro ⟨run, ⟨hrun, hi⟩, -⟩
      exact ⟨run, hrun, hi⟩
  · refine hrow.imp_of_mem ?_
    intro run run' hrun hrun' hlt
    exact ((mem_linkedRuns_iff hnodup).mp hrun).not_joined hrising
      ((mem_linkedRuns_iff hnodup).mp hrun') hlt

/-- Lines with two gaps between candidates, one of which is too wide. -/
def scatteredLines : List Text :=
  ["a = 1", "", "b = 2", "c = 3", "", "", "d = 4", "\x00comment\x00", "e = 5"].map String.toList

theorem scatteredLines_longest :
    [0, 2, 3, 6, 8].Pairwise (fun i j : Int => i < j) ∧
    (∀ i ∈ [(0 : Int), 2, 3, 6, 8], 0 ≤ i ∧ i < scatteredLines.length) ∧
    runsOf scatteredLines [0, 2, 3, 6, 8] = .ok [[0, 2, 3], [6, 8]] ∧
    ∀ run, run ∈ [[0, 2, 3], [6, 8]] ↔ LongestRun scatteredLines [0, 2, 3, 6, 8] run := by
  have hrising : [0, 2, 3, 6, 8].Pairwise (fun i j : Int => i < j) := by decide
  have hthere : ∀ i ∈ [(0 : Int), 2, 3, 6, 8], 0 ≤ i ∧ i < scatteredLines.length := by decide
  have hruns : runsOf scatteredLines [0, 2, 3, 6, 8] = .ok [[0, 2, 3], [6, 8]] := by decide
  obtain ⟨runs, heq, hlongest, -⟩ := runsOf_longest hrising hthere
  rw [hruns] at heq
  cases heq
  exact ⟨hrising, hthere, hruns, hlongest⟩

end VbTidy
