import VbTidy.Proofs.Rejected
import VbTidy.Proofs.Runs
import VbTidy.Proofs.Twins

/-
Alignment in two runs. Lines that are laid out alike have the same marked places, so the runs of
lines are the same, their columns are measured by filling in the same pieces, and what is moved is
moved in both. An equals sign that moves right leaves the shape of its line as it is; a comment
stands behind blanks in both. So all passes end in both runs, or none does, with lines of one shape
(`sameOutcome_workLines`).
-/
namespace VbTidy

/-! ## One alignment -/

theorem SamePieces.isSome_eq {l l' : Text} {o o' : Option Nat} (h : SamePieces (l, o) (l', o')) :
    o.isSome = o'.isSome := by
  cases h <;> rfl

theorem forall₂_mapIdx₂ {R S : Text → Text → Prop} {f g : Nat → Text → Text}
    (hfg : ∀ i l l', R l l' → S (f i l) (g i l')) {ls ls' : List Text}
    (h : List.Forall₂ R ls ls') : List.Forall₂ S (ls.mapIdx f) (ls'.mapIdx g) := by
  induction h generalizing f g with
  | nil => exact .nil
  | cons hl _ ih =>
    rw [List.mapIdx_cons, List.mapIdx_cons]
    exact .cons (hfg 0 _ _ hl) (ih fun i => hfg (i + 1))

/-- Related lines that are cut alike are aligned alike. -/
theorem sameOutcome_align (raw : Text) {m : Marker} {R S : Text → Text → Prop}
    (hpieces : ∀ l l', R l l' → SamePieces (l, m.cut l) (l', m.cut l'))
    (hgap : ∀ l l', R l l' → isGap l = isGap l') (hkeep : ∀ l l', R l l' → S l l')
    (hshift : ∀ l l' c c' n n', R l l' → m.cut l = some c → m.cut l' = some c' →
      S (m.shift c n l) (m.shift c' n' l')) {lines lines' : List Text}
    (h : List.Forall₂ R lines lines') :
    m.runs lines = m.runs lines' ∧
      SameOutcome (List.Forall₂ S) (m.align (Lifting.result raw).shelves lines)
        (m.align (Lifting.result raw).shelves lines') := by
  have hrole : ∀ l l', R l l' → m.role l' = m.role l := by
    intro l l' hl
    rw [Marker.role, Marker.role, (hpieces l l' hl).isSome_eq, hgap l l' hl]
  have hruns : m.runs lines = m.runs lines' := Marker.runs_congr (map_eq_of_forall₂ hrole h).symm
  refine ⟨hruns, ?_⟩
  rw [Marker.align, Marker.align, ← hruns]
  split
  · exact .ok (h.imp hkeep)
  · have hlines : List.Forall₂ SamePieces (lines.map fun line => (line, m.cut line))
        (lines'.map fun line => (line, m.cut line)) := by
      rw [List.forall₂_map_left_iff, List.forall₂_map_right_iff]
      exact h.imp hpieces
    refine (sameOutcome_columnsFrom raw hlines (PerKind.const 0)).map fun cols cols' _ => ?_
    refine forall₂_mapIdx₂ (fun i l l' hl => ?_) h
    -- A line is moved if it is in a run and has a cut, which holds in both or in neither.
    have hfind : ∀ f : List Nat → Nat,
        ((m.runs lines).map fun run => (run, f run)).find? (·.1.contains i) =
          ((m.runs lines).find? (·.contains i)).map fun run => (run, f run) := by
      intro f
      rw [List.find?_map]
      rfl
    have hcut := (hpieces l l' hl).isSome_eq
    rw [Marker.alignLine, Marker.alignLine, hfind, hfind]
    cases (m.runs lines).find? (·.contains i) with
    | none => exact hkeep l l' hl
    | some run =>
      cases hc : m.cut l with
      | none =>
        cases hc' : m.cut l' with
        | none => exact hkeep l l' hl
        | some c' =>
          rw [hc, hc'] at hcut
          cases hcut
      | some c =>
        cases hc' : m.cut l' with
        | none =>
          rw [hc, hc'] at hcut
          cases hcut
        | some c' => exact hshift l l' c c' _ _ hl hc hc'

theorem isGap_of_shape {l l' : Text} (h : shape false l = shape false l') : isGap l = isGap l' := by
  have hnil : ∀ {t t' : Text}, shape false t = shape false t' → t = [] → t' = [] := by
    intro t t' h ht
    subst ht
    rcases shape_eq_cases h with ⟨_, _, hu⟩ | ⟨p, u, _, _, _, heq, _⟩
    · exact unstyled_eq_nil.mp hu.symm
    · simp at heq
  have htrim := shape_trim h
  have hblank : (trim l == []) = (trim l' == []) := by
    rw [Bool.eq_iff_iff, beq_iff_eq, beq_iff_eq]
    exact ⟨hnil htrim, hnil htrim.symm⟩
  rw [isGap, isGap, hblank]
  exact congrArg _ (trim_eq_token_of_shape h (.kind .remark))

/-! ## Equals signs -/

/-- Two lines of one shape in which comments stand at the end, apart from the code. -/
structure Pair (l l' : Text) : Prop where
  shape : shape false l = shape false l'
  left : Settled l
  right : Settled l'

theorem Pair.level {l l' : Text} (h : Pair l l') : Level 0 l l' where
  shape _ := h.shape
  closed _ := ⟨.of_orderly h.left.toOrderly, .of_orderly h.right.toOrderly⟩

theorem Level.pieces {l l' x y x' y' : Text} (h : Level 0 l l') (hl : l = x ++ y)
    (hl' : l' = x' ++ y') (hx : VbTidy.shape false x = VbTidy.shape false x')
    (hy : VbTidy.shape false y = VbTidy.shape false y') :
    SamePieces (l, some x.length) (l', some x'.length) := by
  subst hl hl'
  obtain ⟨hs, hs'⟩ := h.closed (by decide)
  refine .cut ?_ ?_
  · rw [List.take_left, List.take_left]
    exact ⟨fun _ => hx, fun _ => ⟨hs.left, hs'.left⟩⟩
  · rw [List.drop_left, List.drop_left]
    exact ⟨fun _ => hy, fun _ => ⟨hs.right, hs'.right⟩⟩

theorem isAssignment_blanks {s : Text} (hs : ∀ c ∈ s, isBlank c = true) (t : Text) :
    isAssignment (s ++ t) = isAssignment t := by
  rw [isAssignment, isAssignment, dropWhile_blanks (fun _ h => h) hs]

theorem Laid.isAssignment {l l' : Text} (h : Laid l l') :
    VbTidy.isAssignment l = VbTidy.isAssignment l' := by
  cases h with
  | intro hs hs' _ h =>
    rw [isAssignment_blanks hs, isAssignment_blanks hs', ← isAssignment_folded, h.fold,
      isAssignment_folded]

/-- Lines that are laid out alike are cut at the same equals sign. -/
theorem Laid.pieces {l l' : Text} (h : Laid l l') (hp : Pair l l') :
    SamePieces (l, assignmentMarker.cut l) (l', assignmentMarker.cut l') := by
  have hassign := h.isAssignment
  show SamePieces (l, if VbTidy.isAssignment l then find? ['='] l else none)
    (l', if VbTidy.isAssignment l' then find? ['='] l' else none)
  rw [hassign]
  split
  case isFalse => exact .whole hp.level
  case isTrue =>
    cases h with
    | @intro s s' t t' hs hs' hmargin h =>
      have hblank : ∀ {s : Text}, (∀ c ∈ s, isBlank c = true) → '=' ∉ s :=
        fun hs h => absurd (hs _ h) (by decide)
      by_cases hmem : '=' ∈ t
      · obtain ⟨a, b, rfl, ha⟩ := List.eq_append_cons_of_mem hmem
        obtain ⟨a', b', rfl, hfold, _⟩ := folded_eq_append_cons (by decide) h.fold.symm
        have ha' : '=' ∉ a' := by rwa [← mem_folded (by decide), hfold, mem_folded (by decide)]
        have hlen : a.length = a'.length := by rw [← length_folded, ← hfold, length_folded]
        obtain ⟨hhead, htail⟩ := h.split hlen
        have hl : Laid (s ++ a) (s' ++ a') := .intro hs hs' hmargin hhead
        rw [← List.append_assoc, ← List.append_assoc, find?_char (by simp [hblank hs, ha]),
          find?_char (by simp [hblank hs', ha'])]
        rw [← List.append_assoc, ← List.append_assoc] at hp
        exact hp.level.pieces rfl rfl hl.shape htail.shape
      · have hmem' : '=' ∉ t' := by
          rwa [← mem_folded (by decide), ← h.fold, mem_folded (by decide)]
        rw [find?_char_of_not_mem (by simp [hblank hs, hmem]),
          find?_char_of_not_mem (by simp [hblank hs', hmem'])]
        exact .whole hp.level

/-- Blanks before an equals sign leave the shape of a line as it is. -/
theorem shape_moved_equals (a b : Text) {s : Text} (hs : ∀ c ∈ s, isBlank c = true) :
    shape false (a ++ (s ++ '=' :: b)) = shape false (a ++ '=' :: b) := by
  have hfree : '\x00' ∉ s := fun h => absurd (hs _ h) (by decide)
  have hhard : ∀ z : Text, '\x00' ∉ z → Hard (firstPart (z ++ '=' :: b)) := by
    intro z hz
    rw [firstPart_append hz, firstPart, List.takeWhile_cons_of_pos (by decide)]
    exact hard_of_mem (c := '=') (by simp) (by decide)
  apply shape_append_hard rfl _ (hhard s hfree) (hhard [] (by simp))
  rcases nul_cases b with hb | ⟨q, v, hq, rfl⟩
  · rw [shape_free (by simp [hfree, hb]), shape_free (by simp [hb]), look_outer, look_outer,
      unstyled_before_equals hs]
    rfl
  · have hcut : ∀ z : Text, z ++ '=' :: (q ++ '\x00' :: v) = (z ++ '=' :: q) ++ '\x00' :: v := by
      simp
    rw [hcut s, hcut [], shape_nul (by simp [hfree, hq]), shape_nul (by simp [hq]), look_outer,
      look_outer, unstyled_before_equals hs]
    rfl

theorem shape_assignment_shift {l : Text} {c n : Nat} (h : assignmentMarker.cut l = some c) :
    shape false (assignmentMarker.shift c n l) = shape false l := by
  obtain ⟨a, b, rfl, _, hshift⟩ := assignment_shift (n := n) h
  rw [hshift]
  exact shape_moved_equals a b fun c hc => by
    rw [(List.mem_replicate.mp hc).2]
    rfl

/-! ## Comments -/

theorem find?_cutTokens (k : Kind) (t : Text) :
    find? k.token t =
      if (cutTokens k t).rest.isEmpty then none else some (cutTokens k t).head.length := by
  induction t using Pattern.cut_induction k.token_ne_nil with
  | nil => rw [cutTokens_nil]; rfl
  | hit t ih =>
    rw [cutTokens_token, Weave.pushHit, Kind.token_eq_cons, List.cons_append, find?, if_pos (by simp)]
    rfl
  | miss c t hmiss ih =>
    have hcut : cutTokens k (c :: t) = (cutTokens k t).push c := Pattern.weave_miss hmiss
    rw [find?, if_neg (by rwa [List.isPrefixOf_iff_prefix]), ih, hcut, Weave.push]
    split <;> rfl

/-- What is dropped from the end of texts of one shape looks the same. -/
theorem unstyled_end {p : Char → Bool} (hblank : ∀ c, isBlank c = true → p c = true)
    (hp : ∀ c, p (anyCase c) = p c) (hnul : p '\x00' = false) {b : Bool} {x x' s s' : Text}
    (h : shape b x = shape b x') (hs : x = dropEnd p x ++ s) (hs' : x' = dropEnd p x' ++ s') :
    unstyled s = unstyled s' := by
  -- What is left ends with a character that is no blank, so no blanks run over the cut.
  have hcut : ∀ {q s : Text}, q = dropEnd p q ++ s →
      unstyled q = unstyled (dropEnd p q) ++ unstyled s := by
    intro q s hq
    rcases List.eq_nil_or_concat (dropEnd p q) with hnil | ⟨y, c, hc⟩
    · rw [hnil, List.nil_append] at hq
      rw [hnil, unstyled_nil, List.nil_append, ← hq]
    · rw [List.concat_eq_append] at hc
      have hlast : p c = false := by
        cases hpc : p c with
        | false => rfl
        | true =>
          have hnot := List.head?_dropWhile_not p q.reverse
          have hhead : (q.reverse.dropWhile p).head? = some c := by
            rw [← List.getLast?_reverse]
            show (dropEnd p q).getLast? = some c
            rw [hc]
            simp
          rw [hhead] at hnot
          simp [hpc] at hnot
      have hb : isBlank c = false := by
        cases hbc : isBlank c with
        | false => rfl
        | true =>
          rw [hblank c hbc] at hlast
          cases hlast
      conv_lhs => rw [hq]
      rw [hc, List.append_assoc, List.singleton_append, unstyled_append_char hb]
  induction x using nul_induction generalizing b x' with
  | free x hx =>
    rcases shape_eq_cases h with ⟨_, _, hu⟩ | ⟨q, u, _, _, _, rfl, _⟩
    · have hleft := hcut hs
      rw [hu, hcut hs', unstyled_dropEnd hblank hp, unstyled_dropEnd hblank hp, hu] at hleft
      exact (List.append_cancel_left hleft).symm
    · exact absurd (by simp) hx
  | nul q u hq ih =>
    rcases shape_eq_cases h with ⟨hfree, _⟩ | ⟨r, v, q', u', hr, heq, hq', rfl, _, hu⟩
    · exact absurd (by simp) hfree
    · obtain ⟨rfl, rfl⟩ := part_unique hq hr heq
      rw [dropEnd_cut hnul, List.append_assoc, List.cons_append] at hs hs'
      exact ih hu (List.cons.inj (List.append_cancel_left hs)).2
        (List.cons.inj (List.append_cancel_left hs')).2

/-- A token keeps what is before it from what is behind. -/
theorem shape_before_token {m : Mark} {s s' y y' : Text} (hs : '\x00' ∉ s) (hs' : '\x00' ∉ s')
    (hu : unstyled s = unstyled s') (hy : shape true y = shape true y') :
    shape false (s ++ (m.token ++ y)) = shape false (s' ++ (m.token ++ y')) := by
  rw [m.token_append, m.token_append, shape_nul hs, shape_nul hs', look_outer, look_outer, hu,
    shape_nul (nul_not_mem_name m), shape_nul (nul_not_mem_name m), hy]

/-- A line at its first comment: code without white space at its end, white space, the comment. -/
structure AtComment (l code gap y : Text) : Prop where
  eq : l = code ++ (gap ++ (Kind.remark.token ++ y))
  cut : remarkMarker.cut l = some code.length
  gap : ∀ c ∈ gap, isSpace c = true

theorem AtComment.shift {l code gap y : Text} (h : AtComment l code gap y) (n : Nat) :
    remarkMarker.shift code.length n l =
      code ++ (List.replicate (n + 1) ' ' ++ (Kind.remark.token ++ y)) := by
  show l.take code.length ++ List.replicate (n + 1) ' ' ++ (l.drop code.length).dropWhile isSpace = _
  rw [h.eq, List.take_left, List.drop_left, dropWhile_spaces_append h.gap rfl, List.append_assoc]

/-- Lines of one shape have a comment behind code at the same place, or both have none. -/
theorem comment_cases {l l' : Text} (h : shape false l = shape false l') :
    (remarkMarker.cut l = none ∧ remarkMarker.cut l' = none) ∨
    ∃ code gap y code' gap' y', AtComment l code gap y ∧ AtComment l' code' gap' y' ∧
      shape false code = shape false code' ∧ unstyled gap = unstyled gap' ∧
      shape true y = shape true y' := by
  have hcut : ∀ t, remarkMarker.cut t = if trim t == Kind.remark.token then none
      else (find? Kind.remark.token t).map fun i => (dropEnd isSpace (t.take i)).length :=
    fun _ => rfl
  have htrim : (trim l == Kind.remark.token) = (trim l' == Kind.remark.token) :=
    trim_eq_token_of_shape h (.kind .remark)
  cases honly : trim l == Kind.remark.token with
  | true =>
    rw [hcut l, hcut l', ← htrim, honly]
    exact .inl ⟨rfl, rfl⟩
  | false =>
    rcases shape_first .remark h with ⟨hl, hl'⟩ | ⟨x, y, x', y', hx, hx', hxs, hys⟩
    · rw [hcut l, hcut l', ← htrim, honly, find?_cutTokens, find?_cutTokens, hl, hl']
      exact .inl ⟨rfl, rfl⟩
    · have hat : ∀ {l x y : Text}, FirstToken .remark l x y →
          (trim l == Kind.remark.token) = false →
          ∃ gap, x = dropEnd isSpace x ++ gap ∧ AtComment l (dropEnd isSpace x) gap y := by
        intro l x y hx hne
        obtain ⟨gap, hgap, hspaces⟩ := dropEnd_append isSpace x
        refine ⟨gap, hgap, ?_, ?_, hspaces⟩
        · rw [← List.append_assoc, ← hgap, hx.eq]
        · rw [hcut l, hne, find?_cutTokens, hx.cut]
          show some (dropEnd isSpace (l.take x.length)).length = _
          rw [hx.eq, List.take_left]
      obtain ⟨gap, hgap, hl⟩ := hat hx honly
      obtain ⟨gap', hgap', hl'⟩ := hat hx' (htrim ▸ honly)
      have hinit := shape_init hxs
      exact .inr ⟨_, gap, y, _, gap', y', hl, hl',
        shape_dropEnd (fun _ => isSpace_of_isBlank) isSpace_anyCase (by decide) hinit,
        unstyled_end (fun _ => isSpace_of_isBlank) isSpace_anyCase (by decide) hinit hgap hgap',
        hys⟩

theorem Pair.pieces {l l' : Text} (h : Pair l l') :
    SamePieces (l, remarkMarker.cut l) (l', remarkMarker.cut l') := by
  rcases comment_cases h.shape with ⟨hl, hl'⟩ | ⟨code, gap, y, code', gap', y', hl, hl', hcode, hgap, hy⟩
  · rw [hl, hl']
    exact .whole h.level
  · rw [hl.cut, hl'.cut]
    refine h.level.pieces hl.eq hl'.eq hcode ?_
    exact shape_before_token (m := .kind .remark) (nul_not_mem_spaces hl.gap)
      (nul_not_mem_spaces hl'.gap) hgap hy

/-- Comments that move leave lines of one shape, sealed behind their comments. -/
theorem Pair.shift {l l' : Text} {c c' : Nat} (n n' : Nat) (h : Pair l l')
    (hc : remarkMarker.cut l = some c) (hc' : remarkMarker.cut l' = some c') :
    Level 0 (remarkMarker.shift c n l) (remarkMarker.shift c' n' l') := by
  rcases comment_cases h.shape with ⟨hl, _⟩ | ⟨code, gap, y, code', gap', y', hl, hl', hcode, _, hy⟩
  · rw [hl] at hc
    cases hc
  · obtain rfl : code.length = c := Option.some.inj (hl.cut.symm.trans hc)
    obtain rfl : code'.length = c' := Option.some.inj (hl'.cut.symm.trans hc')
    rw [hl.shift, hl'.shift]
    have hblanks : ∀ n, ∀ c ∈ List.replicate n ' ', isBlank c = true := by
      intro n c hc
      rw [(List.mem_replicate.mp hc).2]
      rfl
    have hfree : ∀ n, '\x00' ∉ List.replicate n ' ' :=
      fun n hc => absurd (hblanks n _ hc) (by decide)
    have hhard : ∀ n, Hard (List.replicate (n + 1) ' ') :=
      fun n => hard_of_mem (c := ' ') (by simp) (by decide)
    have hfirst : ∀ n z, Hard (firstPart (List.replicate (n + 1) ' ' ++ z)) := by
      intro n z
      rw [firstPart_append (hfree _)]
      exact (hhard n).append_right _
    have hsealed : ∀ {l code gap y : Text} (n : Nat), Settled l → AtComment l code gap y →
        Sealed (code ++ (List.replicate (n + 1) ' ' ++ (Kind.remark.token ++ y))) := by
      intro l code gap y n hset hat
      have hl := Sealed.of_orderly hset.toOrderly
      rw [hat.eq] at hl
      exact hl.left.join hl.right.right (hfree _) (hhard n)
    refine ⟨fun _ => ?_, fun _ => ⟨hsealed n h.left hl, hsealed n' h.right hl'⟩⟩
    apply shape_append_hard hcode _ (hfirst n _) (hfirst n' _)
    exact shape_blanks_append (hblanks _) (hblanks _) (by simp) (by simp)
      (shape_before_token (m := .kind .remark) (s := []) (by simp) (by simp) rfl hy)

/-! ## All passes -/

/-- Two runs of the passes with the same counts and lines of one shape. -/
structure SameWork (w w' : Worked) : Prop where
  lines : List.Forall₂ (Level 0) w.lines w'.lines
  declarationsSplit : w.declarationsSplit = w'.declarationsSplit
  maxDepth : w.maxDepth = w'.maxDepth
  assignmentBlocks : w.assignmentBlocks = w'.assignmentBlocks
  remarkBlocks : w.remarkBlocks = w'.remarkBlocks

theorem forall₂_and {α : Type} {R : α → α → Prop} {P : α → Prop} {as bs : List α}
    (h : List.Forall₂ R as bs) (ha : ∀ a ∈ as, P a) (hb : ∀ b ∈ bs, P b) :
    List.Forall₂ (fun a b => R a b ∧ P a ∧ P b) as bs := by
  induction h with
  | nil => exact .nil
  | cons hab _ ih =>
    exact .cons ⟨hab, ha _ List.mem_cons_self, hb _ List.mem_cons_self⟩
      (ih (fun a h => ha a (List.mem_cons_of_mem _ h)) fun b h => hb b (List.mem_cons_of_mem _ h))

theorem forall₂_twins {lines rs rs' : List Text} (h : List.Forall₂ Twin lines rs)
    (h' : List.Forall₂ Twin lines rs') : List.Forall₂ Twin rs rs' := by
  induction h generalizing rs' with
  | nil =>
    cases h'
    exact .nil
  | cons hl _ ih =>
    cases h' with
    | cons hl' hls' => exact .cons (hl.symm.trans hl') (ih hls')

section
variable {raw : Text} {style style' : Style} (hnul : '\x00' ∉ raw)
  (hsplit : style.splitDeclarations = style'.splitDeclarations)
  (hu : ∀ c ∈ style.unit, isBlank c = true) (hne : style.unit ≠ [])
  (hu' : ∀ c ∈ style'.unit, isBlank c = true) (hne' : style'.unit ≠ [])
include hnul hsplit hu hne hu' hne'

/-- What a style changes in the passes is letter case and blanks. -/
theorem sameOutcome_workLines {recased recased' : List Text}
    (hr : recase style.letterCase (spacedLines style raw) = .ok recased)
    (hr' : recase style'.letterCase (spacedLines style' raw) = .ok recased') :
    SameOutcome SameWork
      (workLines style (Lifting.result raw).shelves (Lifting.result raw).lines).outcome
      (workLines style' (Lifting.result raw).shelves (Lifting.result raw).lines).outcome := by
  have hspaced : spacedLines style' raw = spacedLines style raw := by
    rw [spacedLines, spacedLines, statements, statements, hsplit]
  have hsettled : ∀ {case out}, recase case (spacedLines style raw) = .ok out →
      ∀ l ∈ out, Settled l := by
    intro case out h
    have hlines := (settled_spacedLines hnul style).1
    exact forall_of_forall₂ (fun _ _ hl h => h.settled hl)
      (recase_forall₂ (fun l hl => (hlines l hl).sound) h) hlines
  rw [workLines_outcome, workLines_outcome]
  rw [spacedLines] at hr hr'
  rw [hr, hr', ok_bind, ok_bind]
  rw [← spacedLines, hspaced] at hr'
  rw [← spacedLines] at hr
  have htwins := nest_twin (forall₂_twins (twin_recase hr) (twin_recase hr'))
  have hlaid := forall₂_and (layOut_laid hu hne hu' hne' htwins)
    (settled_layOut hu (hsettled hr)) (settled_layOut hu' (hsettled hr'))
  obtain ⟨hruns, hassigned⟩ := sameOutcome_align raw (m := assignmentMarker) (S := Pair)
    (fun l l' h => h.1.pieces ⟨h.1.shape, h.2.1, h.2.2⟩) (fun l l' h => isGap_of_shape h.1.shape)
    (fun l l' h => ⟨h.1.shape, h.2.1, h.2.2⟩)
    (fun l l' c c' n n' h hc hc' =>
      ⟨by rw [shape_assignment_shift hc, shape_assignment_shift hc', h.1.shape],
        h.2.1.moves_assignment (.inr ⟨c, n, hc, rfl⟩),
        h.2.2.moves_assignment (.inr ⟨c', n', hc', rfl⟩)⟩) hlaid
  refine hassigned.bind fun assigned assigned' hpairs => ?_
  obtain ⟨hruns', haligned⟩ := sameOutcome_align raw (m := remarkMarker) (S := Level 0)
    (fun l l' h => h.pieces) (fun l l' h => isGap_of_shape h.shape) (fun l l' h => h.level)
    (fun l l' c c' n n' h hc hc' => h.shift n n' hc hc') hpairs
  refine haligned.bind fun aligned aligned' hlines => .ok ⟨hlines, ?_, maxDepth_twin htwins, ?_, ?_⟩
  · show (if style.splitDeclarations then _ else 0) = if style'.splitDeclarations then _ else 0
    rw [hsplit]
  · exact congrArg List.length hruns
  · exact congrArg List.length hruns'

end

end VbTidy
