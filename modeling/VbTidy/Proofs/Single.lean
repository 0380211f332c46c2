import VbTidy.Proofs.LineWords
import VbTidy.Proofs.OneName

/-
Statements that are not split. How many names the first Dim of a line declares can be told from the
beads of the line (`declaredCount_of_beads`), it does not grow when the comment is set apart from the
code or words are recased, and a line is left as it is when they are fewer than two. So lines that
are not split are not split after the passes either (`single_workLines`).
-/
namespace VbTidy

/-- The number of names in a list. -/
def nameCount (list : Text) : Nat :=
  (declaredNames list).length

/-- The number of names that the first Dim of a line declares. -/
def declaredCount (line : Text) : Nat :=
  match dimPattern.first? line with
  | none => 0
  | some (_, _, after) => nameCount (splitStatement after).1

theorem declaredCount_first {before dim after : Text} (h : FirstDim before dim after) :
    declaredCount (before ++ (dim ++ after)) = nameCount (splitStatement after).1 := by
  rw [declaredCount, dimPattern_first?_iff.mpr ⟨rfl, h⟩]

theorem splitDeclaration_single_iff {line : Text} :
    splitDeclaration line = [line] ↔ declaredCount line ≤ 1 := by
  cases hfirst : dimPattern.first? line with
  | none => simp [splitDeclaration, declaredCount, hfirst]
  | some r =>
    obtain ⟨before, dim, after⟩ := r
    obtain ⟨rfl, hdim⟩ := dimPattern_first?_iff.mp hfirst
    rw [declaredCount_first hdim, nameCount]
    rcases splitDeclaration_cases hdim with ⟨hone, heq⟩ | ⟨first, mid, last, hnames, heq⟩
    · exact iff_of_true heq hone
    · refine iff_of_false (fun h => ?_) ?_
      · have hlen := congrArg List.length (heq.symm.trans h)
        simp at hlen
      · simp [hnames]

/-! ## Names and white space -/

@[simp] theorem ink_nil : ink [] = [] := rfl

theorem ink_space {c : Char} (hc : isSpace c = true) (t : Text) : ink (c :: t) = ink t :=
  List.filter_cons_of_neg (by simp [hc])

theorem ink_plain {c : Char} (hc : isSpace c = false) (t : Text) : ink (c :: t) = c :: ink t :=
  List.filter_cons_of_pos (by simp [hc])

theorem ink_ink (t : Text) : ink (ink t) = ink t :=
  List.filter_filter.trans (List.filter_congr fun _ _ => Bool.and_self _)

theorem ink_eq_nil_iff {t : Text} : ink t = [] ↔ trim t = [] := by
  rw [trim_eq_nil_iff, ink, List.filter_eq_nil_iff]
  simp

theorem cutNames_ink (depth : Nat) (t : Text) :
    cutNames depth (ink t) = (cutNames depth t).map ink := by
  induction t generalizing depth with
  | nil => rfl
  | cons c t ih =>
    cases hc : isSpace c with
    | true =>
      have hother : ∀ d, isSpace d = false → (c == d) = false := by
        intro d hd
        rw [beq_eq_false_iff_ne]
        rintro rfl
        rw [hc] at hd
        cases hd
      obtain ⟨part, parts, hparts⟩ := List.exists_cons_of_ne_nil (cutNames_ne_nil depth t)
      rw [ink_space hc, ih, cutNames, hother ',' (by decide), hother '(' (by decide),
        hother ')' (by decide)]
      simp [hparts, ink_space hc]
    | false =>
      rw [ink_plain hc, cutNames, cutNames]
      split
      · rw [ih]
        rfl
      · simp only [ih]
        cases cutNames _ t with
        | nil => simp [ink_plain hc]
        | cons part parts => simp [ink_plain hc]

theorem nameCount_eq (t : Text) : nameCount t = (namesOf (cutNames 0 t)).length := rfl

/-- Only whether they are blank counts. -/
theorem length_namesOf_map {f : Text → Text} (hf : ∀ p, ink (f p) = [] ↔ ink p = [])
    (parts : List Text) : (namesOf (parts.map f)).length = (namesOf parts).length := by
  induction parts with
  | nil => rfl
  | cons part parts ih =>
    have hsame : (trim (f part)).isEmpty = (trim part).isEmpty := by
      rw [Bool.eq_iff_iff, List.isEmpty_iff, List.isEmpty_iff, ← ink_eq_nil_iff, ← ink_eq_nil_iff, hf]
    have hone : (namesOf [f part]).length = (namesOf [part]).length := by
      rw [namesOf, namesOf, List.map_singleton, List.map_singleton, List.filter_singleton,
        List.filter_singleton, hsame]
      cases (trim part).isEmpty <;> rfl
    rw [List.map_cons, length_namesOf_cons, length_namesOf_cons part, ih, hone]

/-- White space does not count among names. -/
theorem nameCount_ink (t : Text) : nameCount (ink t) = nameCount t := by
  rw [nameCount_eq, nameCount_eq, cutNames_ink,
    length_namesOf_map fun p => by rw [ink_ink]]

/-! ## Statements and beads -/

theorem token_unbroken (k : Kind) : ∀ c ∈ k.token, isBreak c = false := by
  cases k <;> decide

/-- A part without breaks stands at the start of a run if it does so with a break behind the run. -/
theorem prefix_run {p w t : Text} (hp : ∀ c ∈ p, isBreak c = false)
    (ht : (t.head?).all isBreak = true) : p <+: w ++ t ↔ p <+: w := by
  refine ⟨fun h => ?_, fun h => h.trans (List.prefix_append w t)⟩
  rcases List.prefix_or_prefix_of_prefix h (List.prefix_append w t) with hw | ⟨v, rfl⟩
  · exact hw
  · rw [List.prefix_append_right_inj] at h
    cases v with
    | nil => simp
    | cons c v =>
      obtain ⟨u, rfl⟩ := h
      have hc : isBreak c = true := by simpa using ht
      rw [hp c (by simp)] at hc
      cases hc

/-- A statement does not end at a break. -/
theorem not_endsStatement_break {c : Char} (hc : isBreak c = true) (t : Text) :
    endsStatement (c :: t) = false := by
  have hcolon : c ≠ ':' := by
    rintro rfl
    exact absurd hc (by decide)
  have htoken : ∀ k : Kind, k.token.isPrefixOf (c :: t) = false := by
    intro k
    have hfree : ¬ k.token <+: ([] : Text) ++ c :: t := by
      rw [prefix_run (token_unbroken k) (by simpa using hc), List.prefix_nil]
      exact k.token_ne_nil
    rw [← Bool.not_eq_true, List.isPrefixOf_iff_prefix]
    exact hfree
  simp [endsStatement, htoken, hcolon]

/-- Whether a statement ends in a run without breaks can be told from the run. -/
theorem endsStatement_run {w t : Text} (hne : w ≠ []) (ht : (t.head?).all isBreak = true) :
    endsStatement (w ++ t) = endsStatement w := by
  have htoken : ∀ k : Kind, k.token.isPrefixOf (w ++ t) = k.token.isPrefixOf w := by
    intro k
    rw [Bool.eq_iff_iff, List.isPrefixOf_iff_prefix, List.isPrefixOf_iff_prefix,
      prefix_run (token_unbroken k) ht]
  rw [endsStatement, endsStatement, List.head?_append_of_ne_nil w hne, htoken, htoken]

theorem splitStatement_break {c : Char} (hc : isBreak c = true) (t : Text) :
    splitStatement (c :: t) = (c :: (splitStatement t).1, (splitStatement t).2) := by
  rw [splitStatement, if_neg (by rw [not_endsStatement_break hc]; decide)]

/-- A statement that does not end in a run goes on behind it. -/
theorem splitStatement_run {w t : Text} (ht : (t.head?).all isBreak = true) :
    (splitStatement (w ++ t)).1 = (splitStatement w).1 ++
      if (splitStatement w).2 = [] then (splitStatement t).1 else [] := by
  induction w with
  | nil => rw [splitStatement, if_pos rfl, List.nil_append, List.nil_append]
  | cons c w ih =>
    rw [List.cons_append, splitStatement, splitStatement, ← List.cons_append,
      endsStatement_run (List.cons_ne_nil c w) ht]
    split
    · rfl
    · simp only [ih, List.cons_append]

/-- The ink of the statement at the start of a text with the given beads. -/
def inkOfStatement : List Text → Text
  | [] => []
  | w :: ws => ink (splitStatement w).1 ++ if (splitStatement w).2 = [] then inkOfStatement ws else []

theorem ink_splitStatement (t : Text) : ink (splitStatement t).1 = inkOfStatement (beads t) := by
  induction t using bead_induction with
  | nil => rfl
  | skip c t hc ih =>
    rw [splitStatement_break hc, beads_break_cons hc]
    cases hop : isOperator c with
    | true =>
      have hsingle : splitStatement [c] = ([c], []) := splitStatement_break hc []
      rw [ink_plain (isSpace_of_isOperator hop), ih, if_pos rfl, List.singleton_append,
        inkOfStatement, hsingle, if_pos rfl, ink_plain (isSpace_of_isOperator hop)]
      rfl
    | false =>
      have hspace : isSpace c = true := by simpa [isBreak, hop] using hc
      rw [ink_space hspace, ih]
      rfl
  | run w t hne hw ht ih =>
    rw [splitStatement_run ht, beads_append (loose_of_head ht), beads_run hne hw,
      List.singleton_append, inkOfStatement, ink_append]
    split
    · rw [ih]
    · rfl

/-! ## The first Dim and beads -/

theorem DimAt.drop {u b d a : Text} (h : DimAt (u ++ b) d a) : DimAt b d a := by
  cases b with
  | nil => exact ⟨h.word, by simp [wordAt], h.behind⟩
  | cons c b =>
    have hback : DimAt ([] ++ c :: b) d a := h.exchange (List.cons_ne_nil c b)
    exact hback

theorem dim_first?_none_iff {line : Text} : dimPattern.first? line = none ↔
    ∀ b d a, line = b ++ (d ++ a) → ¬ DimAt b d a := by
  refine ⟨dimPattern_first?_none, fun h => ?_⟩
  cases hfirst : dimPattern.first? line with
  | none => rfl
  | some r =>
    obtain ⟨hline, hdim⟩ := dimPattern_first?_iff.mp hfirst
    exact absurd hdim.here (h _ _ _ hline)

/-- Behind a text in which no Dim starts the first Dim is that of the rest, if no word joins the
two. -/
theorem first?_dim_append {u t : Text}
    (hfree : ∀ b d a, u ++ t = b ++ (d ++ a) → b.length < u.length → ¬ DimAt b d a)
    (hjoin : wordAt t.head? = false ∨ (u.getLast? ≠ some '.' ∧ wordAt u.getLast? = false)) :
    dimPattern.first? (u ++ t) = (dimPattern.first? t).map fun r => (u ++ r.1, r.2) := by
  -- any Dim of the whole stands in the rest
  have hrest : ∀ b d a, u ++ t = b ++ (d ++ a) → DimAt b d a →
      ∃ b', b = u ++ b' ∧ t = b' ++ (d ++ a) ∧ DimAt b' d a := by
    intro b d a hline hat
    have hlen : u.length ≤ b.length := by
      by_contra hlt
      exact hfree b d a hline (by omega) hat
    obtain ⟨b', rfl⟩ : u <+: b :=
      List.prefix_of_prefix_length_le (List.prefix_append u t) ⟨d ++ a, hline.symm⟩ hlen
    rw [List.append_assoc] at hline
    exact ⟨b', rfl, List.append_cancel_left hline, hat.drop⟩
  cases hfirst : dimPattern.first? t with
  | none =>
    refine dim_first?_none_iff.mpr fun b d a hline hat => ?_
    obtain ⟨b', _, ht, hat'⟩ := hrest b d a hline hat
    exact dimPattern_first?_none hfirst b' d a ht hat'
  | some r =>
    obtain ⟨b, d, a⟩ := r
    obtain ⟨rfl, hdim⟩ := dimPattern_first?_iff.mp hfirst
    have hwhole : FirstDim (u ++ b) d a := by
      constructor
      · cases b with
        | nil =>
          rw [List.append_nil]
          refine ⟨hdim.here.word, hjoin.resolve_left ?_, hdim.here.behind⟩
          rw [List.nil_append, hdim.here.wordAt_head]
          simp
        | cons c b => exact hdim.here.exchange (x := []) (List.cons_ne_nil c b)
      · intro b₂ d₂ a₂ hline hat
        obtain ⟨b', rfl, ht, hat'⟩ := hrest b₂ d₂ a₂ (by rw [hline, List.append_assoc]) hat
        have hle := hdim.least b' d₂ a₂ ht.symm hat'
        rw [List.length_append, List.length_append]
        omega
    exact dimPattern_first?_iff.mpr ⟨(List.append_assoc u b _).symm, hwhole⟩

theorem first?_dim_break {c : Char} (hc : isBreak c = true) (t : Text) :
    dimPattern.first? (c :: t) = (dimPattern.first? t).map fun r => (c :: r.1, r.2) := by
  have hword := isWord_of_isBreak hc
  have hdot : c ≠ '.' := by
    rintro rfl
    exact absurd hc (by decide)
  refine first?_dim_append (u := [c]) (fun b d a hline hlen hat => ?_)
    (.inr ⟨by simpa using hdot, hword⟩)
  obtain rfl : b = [] := List.length_eq_zero_iff.mp (by simpa using hlen)
  have hhead := hat.wordAt_head a
  rw [← List.nil_append (d ++ a), ← hline] at hhead
  have : isWord c = true := hhead
  rw [hword] at this
  cases this

/-- A Dim in a text is found with another one behind it, and no Dim reaches from one into the other
if no word does so. -/
theorem first?_dim_run {w t : Text} (hword : wordAt t.head? = false) :
    dimPattern.first? (w ++ t) = match dimPattern.first? w with
      | some (b, d, a) => some (b, d, a ++ t)
      | none => (dimPattern.first? t).map fun r => (w ++ r.1, r.2) := by
  cases hfirst : dimPattern.first? w with
  | some r =>
    obtain ⟨b, d, a⟩ := r
    obtain ⟨rfl, hdim⟩ := dimPattern_first?_iff.mp hfirst
    refine dimPattern_first?_iff.mpr ⟨by simp, hdim.exchange ?_⟩
    cases a with
    | nil => exact hword
    | cons c a => exact hdim.here.behind
  | none =>
    refine first?_dim_append (fun b d a hline hlen hat => ?_) (.inl hword)
    obtain ⟨m, rfl⟩ : b <+: w :=
      List.prefix_of_prefix_length_le ⟨d ++ a, hline.symm⟩ (List.prefix_append w t) (by omega)
    rw [List.append_assoc] at hline
    obtain ⟨x, rfl, rfl⟩ := hat.clear (List.append_cancel_left hline).symm hword
    refine dimPattern_first?_none hfirst b d x rfl ⟨hat.word, hat.front, ?_⟩
    cases x with
    | nil => rfl
    | cons c x => exact hat.behind

/-- The ink of the statement behind the first Dim of a text with the given beads. -/
def inkBehindDim : List Text → Option Text
  | [] => none
  | w :: ws =>
    match dimPattern.first? w with
    | some (_, _, a) =>
      some (ink (splitStatement a).1 ++ if (splitStatement a).2 = [] then inkOfStatement ws else [])
    | none => inkBehindDim ws

theorem ink_behind_dim (t : Text) :
    (dimPattern.first? t).map (fun r => ink (splitStatement r.2.2).1) = inkBehindDim (beads t) := by
  induction t using bead_induction with
  | nil => rfl
  | skip c t hc ih =>
    rw [first?_dim_break hc, Option.map_map, Function.comp_def]
    refine ih.trans ?_
    rw [beads_break_cons hc]
    cases hop : isOperator c with
    | true =>
      have hsingle : dimPattern.first? [c] = none := first?_dim_break hc []
      rw [if_pos rfl, List.singleton_append, inkBehindDim, hsingle]
    | false => rfl
  | run w t hne hw ht ih =>
    have hword : wordAt t.head? = false := by
      cases t with
      | nil => rfl
      | cons c t => exact isWord_of_isBreak (by simpa using ht)
    rw [first?_dim_run hword, beads_append (loose_of_head ht), beads_run hne hw,
      List.singleton_append, inkBehindDim]
    cases hfirst : dimPattern.first? w with
    | none =>
      rw [← ih]
      exact Option.map_map ..
    | some r =>
      obtain ⟨b, d, a⟩ := r
      simp only [Option.map_some, splitStatement_run ht, ink_append]
      split
      · rw [ink_splitStatement t]
      · rfl

/-- The beads of a line tell how many names its first Dim declares. -/
theorem declaredCount_of_beads {s t : Text} (h : beads s = beads t) :
    declaredCount s = declaredCount t := by
  have hcount : ∀ x : Text, declaredCount x = ((inkBehindDim (beads x)).map nameCount).getD 0 := by
    intro x
    rw [← ink_behind_dim, declaredCount]
    cases dimPattern.first? x with
    | none => rfl
    | some r => simp [nameCount_ink]
  rw [hcount, h, hcount]

/-! ## Comments -/

theorem nameCount_le {s t : Text} (h : s <+: t) : nameCount s ≤ nameCount t :=
  length_namesOf_le 0 h

/-- A text without a comma goes into the last part. -/
theorem cutNames_behind {u v : Text} {c : Char} (hu : u.getLast? = some c) (hc : c ≠ ',')
    (hv : ',' ∉ v) (depth : Nat) : ∃ ps p, cutNames depth u = ps ++ [p] ∧
      cutNames depth (u ++ v) = ps ++ [p ++ v] ∧ c ∈ p := by
  have huncut : ∀ d, Uncut d v := by
    rintro d x y rfl
    simp at hv
  induction u generalizing depth with
  | nil => cases hu
  | cons e u ih =>
    rw [List.cons_append, cutNames, cutNames]
    cases u with
    | nil =>
      obtain rfl : e = c := Option.some.inj hu
      have hno : ¬ (e == ',' && depth == 0) = true := by simp [hc]
      rw [if_neg hno, if_neg hno, List.nil_append]
      simp only [cutNames_uncut (huncut _)]
      exact ⟨[], [e], rfl, rfl, List.mem_singleton_self e⟩
    | cons f u =>
      split
      · obtain ⟨ps, p, hu, huv, hmem⟩ := ih (by simpa using hu) 0
        exact ⟨[] :: ps, p, by rw [hu]; rfl, by rw [huv]; rfl, hmem⟩
      · obtain ⟨ps, p, hu, huv, hmem⟩ := ih (by simpa using hu)
          (if e == '(' then depth + 1 else if e == ')' then depth - 1 else depth)
        simp only [hu, huv]
        cases ps with
        | nil => exact ⟨[], e :: p, rfl, rfl, List.mem_cons_of_mem e hmem⟩
        | cons q ps => exact ⟨(e :: q) :: ps, p, rfl, rfl, hmem⟩

/-- Without a comma what stands behind a name adds none. -/
theorem nameCount_behind {u v : Text} {c : Char} (hu : u.getLast? = some c)
    (hspace : isSpace c = false) (hc : c ≠ ',') (hv : ',' ∉ v) :
    nameCount (u ++ v) = nameCount u := by
  obtain ⟨ps, p, hparts, hparts', hmem⟩ := cutNames_behind hu hc hv 0
  have hname : ∀ w : Text, c ∈ w → (trim w).isEmpty = false := by
    intro w hw
    rw [← Bool.not_eq_true, List.isEmpty_iff, trim_eq_nil_iff]
    intro hblank
    rw [hblank c hw] at hspace
    cases hspace
  rw [nameCount_eq, nameCount_eq, hparts, hparts']
  simp [namesOf, hname p hmem, hname (p ++ v) (List.mem_append_left v hmem)]

theorem nameCount_uncut {u : Text} (h : ',' ∉ u) : nameCount u ≤ 1 := by
  have huncut : Uncut 0 u := by
    rintro x y rfl
    simp at h
  rw [nameCount_eq, cutNames_uncut huncut]
  exact List.length_filter_le ..

theorem endsStatement_iff {t : Text} : endsStatement t = true ↔
    t.head? = some ':' ∨ ∃ k ∈ [Kind.remark, .markup], k.token <+: t := by
  simp [endsStatement, or_assoc]

/-- A text of whole tokens that a token starts with has it in front. -/
theorem token_prefix_of_sound {n : Nat} {k : Kind} {v : Text} (hv : Sound n v) (hne : v ≠ [])
    (h : v <+: k.token) : k.token <+: v := by
  cases hv with
  | nil => exact absurd rfl hne
  | char hc _ =>
    obtain ⟨w, hw⟩ := h
    rw [← List.append_nil k.token, List.cons_append] at hw
    exact absurd hw (cons_ne_token (m := .kind k) hc)
  | @token m t _ _ =>
    obtain ⟨w, hw⟩ := h
    have heq : (Mark.kind k).token ++ [] = m.token ++ (t ++ w) := by
      rw [List.append_nil, ← List.append_assoc]
      exact hw.symm
    obtain ⟨rfl, _⟩ := token_append_inj heq
    exact List.prefix_append ..

/-- What ends a statement together with the comment behind it, but not apart from that, is the
beginning of a token. -/
theorem torn_token {v : Text} (hne : v ≠ []) (hend : endsStatement (v ++ Kind.remark.token) = true)
    (hno : endsStatement (v ++ ' ' :: Kind.remark.token) ≠ true) :
    ∃ k : Kind, k.token <+: v ++ Kind.remark.token ∧ v <+: k.token ∧ ¬ k.token <+: v := by
  obtain ⟨k, hk, hprefix⟩ : ∃ k ∈ [Kind.remark, .markup], k.token <+: v ++ Kind.remark.token := by
    refine (endsStatement_iff.mp hend).resolve_left fun hcolon => ?_
    rw [List.head?_append_of_ne_nil v hne] at hcolon
    refine hno (endsStatement_iff.mpr (.inl ?_))
    rw [List.head?_append_of_ne_nil v hne, hcolon]
  have hpart : ¬ k.token <+: v := fun hin =>
    hno (endsStatement_iff.mpr (.inr ⟨k, hk, hin.trans (List.prefix_append ..)⟩))
  exact ⟨k, hprefix, (List.prefix_or_prefix_of_prefix hprefix (List.prefix_append ..)).resolve_left
    hpart, hpart⟩

/-- A text that a NUL and a name end has a letter of the name at its end. -/
theorem getLast_name (x : Text) (m : Mark) :
    ∃ c, (x ++ '\x00' :: m.name).getLast? = some c ∧ isNameChar c = true := by
  obtain ⟨w, c, hname⟩ := (List.eq_nil_or_concat m.name).resolve_left m.name_ne_nil
  rw [List.concat_eq_append] at hname
  refine ⟨c, ?_, Mark.isNameChar_of_mem (m := m) (by rw [hname]; simp)⟩
  rw [hname, ← List.cons_append, ← List.append_assoc, List.getLast?_concat]

/-- Where a statement ends at a comment, but would not if this were set apart, there is the name
of a kind in front of the comment, and a token in front of the name. -/
theorem torn_end {front list v : Text} (hs : Sound 0 (front ++ (list ++ v) ++ Kind.remark.token))
    (hne : v ≠ []) (hend : endsStatement (v ++ Kind.remark.token) = true)
    (hno : endsStatement (v ++ ' ' :: Kind.remark.token) ≠ true) :
    ',' ∉ v ∧ (list = [] ∨ ∃ c, list.getLast? = some c ∧ isSpace c = false ∧ c ≠ ',') := by
  obtain ⟨k, hprefix, hstart, hpart⟩ := torn_token hne hend hno
  have hcomma : ∀ k : Kind, ',' ∉ k.token := by
    intro k
    cases k <;> decide
  refine ⟨fun hmem => hcomma k (hstart.subset hmem), ?_⟩
  obtain ⟨y, hy⟩ := hprefix
  have hplace : front ++ (list ++ v) ++ Kind.remark.token = (front ++ list) ++ (k.token ++ y) := by
    rw [hy]
    simp
  rcases real_or_between hs hplace with hreal | ⟨x₀, m, _, _, hx₀, _, _, _⟩
  · have hv : Sound 0 v := hreal.cancel (by
      rw [List.append_assoc]
      exact sound_of_ends hs)
    exact absurd (token_prefix_of_sound hv hne hstart) hpart
  · by_cases hnil : list = []
    · exact .inl hnil
    · -- the name of a token ends where the other one starts
      obtain ⟨c, hlast, hc⟩ := getLast_name x₀ m
      rw [← hx₀, List.getLast?_append_of_ne_nil front hnil] at hlast
      refine .inr ⟨c, hlast, isSpace_nameChar hc, ?_⟩
      rintro rfl
      exact absurd hc (by decide)

/-- The statement behind a Dim does not declare more names when the comment is set apart. -/
theorem nameCount_comment {front after : Text}
    (hs : Sound 0 (front ++ after ++ Kind.remark.token))
    (h : nameCount (splitStatement (after ++ Kind.remark.token)).1 ≤ 1) :
    nameCount (splitStatement (after ++ ' ' :: Kind.remark.token)).1 ≤ 1 := by
  have hend : endsStatement Kind.remark.token = true := by decide
  have hstop := (statement_splitStatement (after ++ Kind.remark.token)).stop
  have hsplit := splitStatement_append (after ++ Kind.remark.token)
  obtain ⟨v, hv⟩ := prefix_splitStatement (.inr hend) after
  generalize (splitStatement (after ++ Kind.remark.token)).1 = list at *
  generalize (splitStatement (after ++ Kind.remark.token)).2 = rest at *
  subst hv
  obtain rfl : rest = v ++ Kind.remark.token := by
    rw [List.append_assoc] at hsplit
    exact List.append_cancel_left hsplit
  by_cases hsame : endsStatement (v ++ ' ' :: Kind.remark.token) = true
  · -- the statement ends where it did
    have hle := nameCount_le (prefix_splitStatement (.inr hsame) list)
    rw [List.append_assoc]
    exact hle.trans h
  · have hle := nameCount_le (prefix_splitStatement (.inr hend) (list ++ v ++ [' ']))
    have htext : list ++ v ++ ' ' :: Kind.remark.token = list ++ v ++ [' '] ++ Kind.remark.token := by
      simp
    rw [htext]
    refine hle.trans ?_
    rw [← nameCount_ink, ink_append, ink_of_spaces (t := [' ']) (by decide), List.append_nil,
      nameCount_ink]
    by_cases hne : v = []
    · rwa [hne, List.append_nil]
    · obtain ⟨hcomma, hlist⟩ := torn_end hs hne (hstop.resolve_left (by simp [hne])) hsame
      rcases hlist with rfl | ⟨c, hlast, hspace, hc⟩
      · exact nameCount_uncut hcomma
      · rwa [nameCount_behind hlast hspace hc hcomma]

/-- A comment that is set apart does not make a declaration of more names. -/
theorem declaredCount_comment {code : Text} (hs : Sound 0 (code ++ Kind.remark.token))
    (h : declaredCount (code ++ Kind.remark.token) ≤ 1) :
    declaredCount (code ++ ' ' :: Kind.remark.token) ≤ 1 := by
  have hnone : dimPattern.first? Kind.remark.token = none ∧
      dimPattern.first? (' ' :: Kind.remark.token) = none := by decide
  cases hfirst : dimPattern.first? code with
  | none =>
    rw [declaredCount, first?_dim_run (by decide), hfirst, hnone.2]
    exact Nat.zero_le 1
  | some r =>
    obtain ⟨before, dim, after⟩ := r
    obtain ⟨rfl, _⟩ := dimPattern_first?_iff.mp hfirst
    simp only [declaredCount, first?_dim_run (t := Kind.remark.token) (by decide), hfirst] at h
    simp only [declaredCount, first?_dim_run (t := ' ' :: Kind.remark.token) (by decide), hfirst]
    have hplace : Sound 0 ((before ++ dim) ++ after ++ Kind.remark.token) := by simpa using hs
    exact nameCount_comment hplace h

/-! ## Letter case -/

theorem sameLetter_oneCase {l : Char} (hl : l ∈ "dim".toList) (c : Char) :
    sameLetter l (oneCase c) = sameLetter l c := by
  have hascii : ∀ c : Char, c.toNat < 0x80 → ∀ l ∈ "dim".toList,
      sameLetter l c.toLower = sameLetter l c := of_ascii (by decide)
  have hkelvin : ∀ l ∈ "dim".toList, sameLetter l 'k' = sameLetter l '\u212A' := by decide
  rcases oneCase_cases c with h | ⟨hc, h⟩ | ⟨rfl, h⟩
  · rw [h]
  · rw [h, hascii c hc l hl]
  · rw [h, hkelvin l hl]

theorem dropWord?_inOneCase {w : Text} (hw : ∀ l ∈ w, l ∈ "dim".toList) (t : Text) :
    dropWord? w (inOneCase t) = (dropWord? w t).map inOneCase := by
  induction w generalizing t with
  | nil => rfl
  | cons l w ih =>
    cases t with
    | nil => rfl
    | cons c t =>
      rw [inOneCase_cons, dropWord?, dropWord?, sameLetter_oneCase (hw l List.mem_cons_self),
        ih fun m hm => hw m (List.mem_cons_of_mem l hm)]
      split <;> rfl

/-- The word Dim is found in either case. -/
theorem dimPattern_inOneCase (before : Option Char) (t : Text) :
    dimPattern (before.map oneCase) (inOneCase t) = dimPattern before t := by
  have hfront : (before.map oneCase == some '.' || wordAt (before.map oneCase)) =
      (before == some '.' || wordAt before) := by
    cases before with
    | none => rfl
    | some c =>
      have hdot : (some (oneCase c) == some '.') = (some c == some '.') :=
        beq_oneCase (d := '.') (by decide) c
      rw [Option.map_some, hdot, wordAt, wordAt]
      simp [isWord_oneCase]
  rw [dimPattern, dimPattern, hfront, dropWord?_inOneCase (fun _ h => h)]
  split
  · rfl
  · cases dropWord? "dim".toList t with
    | none => rfl
    | some rest =>
      simp only [Option.map_some, head?_inOneCase, wordAt_oneCase]

theorem first?_dim_inOneCase (t : Text) : dimPattern.first? (inOneCase t) =
    (dimPattern.first? t).map fun r => (inOneCase r.1, inOneCase r.2.1, inOneCase r.2.2) := by
  have key : ∀ before : Option Char, dimPattern.firstFrom (before.map oneCase) (inOneCase t) =
      (dimPattern.firstFrom before t).map fun r =>
        (inOneCase r.1, inOneCase r.2.1, inOneCase r.2.2) := by
    induction t with
    | nil =>
      intro before
      have hhere := dimPattern_inOneCase before []
      rw [inOneCase_nil] at hhere ⊢
      rw [Pattern.firstFrom, Pattern.firstFrom, hhere]
      cases dimPattern before [] <;> rfl
    | cons c t ih =>
      intro before
      have hhere := dimPattern_inOneCase before (c :: t)
      have hmore := ih (some c)
      rw [inOneCase_cons] at hhere ⊢
      rw [Pattern.firstFrom, Pattern.firstFrom, hhere]
      cases dimPattern before (c :: t) with
      | none =>
        simp only
        rw [Option.map_some] at hmore
        rw [hmore, Option.map_map, Option.map_map]
        rfl
      | some n =>
        rw [← inOneCase_cons]
        simp [inOneCase, List.map_take, List.map_drop]
  exact key none

theorem ink_inOneCase (t : Text) : ink (inOneCase t) = inOneCase (ink t) :=
  inOneCase_filter (fun c => by rw [isSpace_oneCase]) t

theorem cutNames_inOneCase (depth : Nat) (t : Text) :
    cutNames depth (inOneCase t) = (cutNames depth t).map inOneCase := by
  induction t generalizing depth with
  | nil => rfl
  | cons c t ih =>
    rw [inOneCase_cons, cutNames, cutNames, beq_oneCase (by decide), beq_oneCase (by decide),
      beq_oneCase (by decide)]
    split
    · rw [ih]
      rfl
    · simp only [ih]
      cases cutNames _ t with
      | nil => rfl
      | cons part parts => rfl

theorem nameCount_inOneCase (t : Text) : nameCount (inOneCase t) = nameCount t := by
  rw [nameCount_eq, nameCount_eq, cutNames_inOneCase,
    length_namesOf_map fun p => by rw [ink_inOneCase, inOneCase, List.map_eq_nil_iff]]

/-- Where a statement ends it still does when words are recased. -/
theorem endsStatement_rewrites {case : LetterCase} {x y x' y' : Text} {outs : List Text}
    (h : Rewrites case (wordRuns (x ++ y)) outs) (hout : outs.flatten = x' ++ y')
    (hx : inOneCase x' = inOneCase x) (hend : endsStatement y = true) :
    endsStatement y' = true := by
  have hcase := h.inOneCase
  rw [hout, flatten_wordRuns, inOneCase_append, inOneCase_append, hx] at hcase
  have hy := List.append_cancel_left hcase
  rw [endsStatement_iff] at hend ⊢
  rcases hend with hcolon | ⟨k, hk, z, rfl⟩
  · left
    have hhead : y'.head?.map oneCase = some ':' := by
      rw [← head?_inOneCase, hy, head?_inOneCase, hcolon]
      rfl
    obtain ⟨c, hc, hsame⟩ := Option.map_eq_some_iff.mp hhead
    have hbeq := beq_oneCase (d := ':') (by decide) c
    rw [hsame, beq_self_eq_true, eq_comm, beq_iff_eq] at hbeq
    rw [hc, hbeq]
  · right
    obtain ⟨outs₁, outs₂, h₁, _, hflat⟩ := Rewrites.token (m := .kind k) h
    have hlen : outs₁.flatten.length = x'.length := by
      have hfront := h₁.inOneCase
      rw [flatten_wordRuns, ← hx] at hfront
      have hlen := congrArg List.length hfront
      rwa [inOneCase, inOneCase, List.length_map, List.length_map] at hlen
    rw [hout] at hflat
    obtain ⟨_, hrest⟩ := List.append_inj hflat hlen.symm
    exact ⟨k, hk, by rw [hrest]; exact List.prefix_append ..⟩

/-- The statement in front of which words are recased ends behind the same names, or behind fewer. -/
theorem nameCount_rewrites {case : LetterCase} {x x' after after' : Text} {outs : List Text}
    (h : Rewrites case (wordRuns (x ++ after)) outs) (hout : outs.flatten = x' ++ after')
    (hx : inOneCase x' = inOneCase x) (hafter : inOneCase after' = inOneCase after) :
    nameCount (splitStatement after').1 ≤ nameCount (splitStatement after).1 := by
  have hjoin := splitStatement_append after
  have hstop := (statement_splitStatement after).stop
  generalize (splitStatement after).1 = list at *
  generalize (splitStatement after).2 = rest at *
  subst hjoin
  obtain ⟨list', rest', rfl, hlist, hrest⟩ :=
    List.map_eq_append_iff.mp (hafter.trans (inOneCase_append list rest))
  have hlist : inOneCase list' = inOneCase list := hlist
  have hstop' : rest' = [] ∨ endsStatement rest' = true := by
    rcases hstop with rfl | hend
    · exact .inl (List.map_eq_nil_iff.mp hrest)
    · rw [← List.append_assoc] at h hout
      refine .inr (endsStatement_rewrites h hout ?_ hend)
      rw [inOneCase_append, inOneCase_append, hx, hlist]
  calc nameCount (splitStatement (list' ++ rest')).1
      ≤ nameCount list' := nameCount_le (prefix_splitStatement hstop' list')
    _ = nameCount (inOneCase list') := (nameCount_inOneCase list').symm
    _ = nameCount list := by rw [hlist, nameCount_inOneCase]

/-- Recasing makes no declaration of more names. -/
theorem declaredCount_recaseLine {case : LetterCase} {l out : Text}
    (h : recaseLine case l = .ok out) : declaredCount out ≤ declaredCount l := by
  obtain ⟨outs, houts, rfl⟩ := recaseLine_ok h
  have hcase := houts.inOneCase
  rw [flatten_wordRuns] at hcase
  have hdims := first?_dim_inOneCase outs.flatten
  rw [hcase, first?_dim_inOneCase] at hdims
  cases hfirst' : dimPattern.first? outs.flatten with
  | none =>
    rw [declaredCount, hfirst']
    exact Nat.zero_le _
  | some r =>
    obtain ⟨before', dim', after'⟩ := r
    cases hfirst : dimPattern.first? l with
    | none =>
      rw [hfirst, hfirst'] at hdims
      cases hdims
    | some r =>
      obtain ⟨before, dim, after⟩ := r
      rw [hfirst, hfirst', Option.map_some, Option.map_some, Option.some.injEq, Prod.mk.injEq,
        Prod.mk.injEq] at hdims
      obtain ⟨hbefore, hdim, hafter⟩ := hdims
      obtain ⟨hline', _⟩ := dimPattern_first?_iff.mp hfirst'
      obtain ⟨rfl, _⟩ := dimPattern_first?_iff.mp hfirst
      simp only [declaredCount, hfirst, hfirst']
      rw [← List.append_assoc] at houts hline'
      refine nameCount_rewrites houts hline' ?_ hafter.symm
      rw [inOneCase_append, inOneCase_append, hbefore, hdim]

/-! ## All passes -/

/-- Moving white space makes no declaration of more names than one. -/
theorem Reset.declaredCount {l l' : Text} (h : Reset l l') (hs : Sound 0 l)
    (hone : VbTidy.declaredCount l ≤ 1) : VbTidy.declaredCount l' ≤ 1 := by
  cases h with
  | beads hb _ => rwa [declaredCount_of_beads hb]
  | @comment code code' hb _ =>
    have hbeads : VbTidy.beads (code' ++ ' ' :: Kind.remark.token) =
        VbTidy.beads (code ++ ' ' :: Kind.remark.token) := by
      rw [beads_append (loose_of_head rfl), beads_append (loose_of_head rfl), hb]
    rw [declaredCount_of_beads hbeads]
    exact declaredCount_comment hs hone

theorem declaredCount_spaceLine {l : Text} (hs : Sound 0 l) (hone : declaredCount l ≤ 1) :
    declaredCount (spaceLine l) ≤ 1 :=
  (reset_spaceLine l).declaredCount (sound_of_beads (beads_trim l).symm hs)
    ((reset_trim l).declaredCount hs hone)

theorem declaredCount_recase {case : LetterCase} {lines out : List Text}
    (h : recase case lines = .ok out) (hone : ∀ l ∈ lines, declaredCount l ≤ 1) :
    ∀ l ∈ out, declaredCount l ≤ 1 := by
  by_cases hcase : case = .unchanged
  · rw [hcase] at h
    rwa [← Except.ok.inj h]
  · rw [recase_eq hcase] at h
    exact forall_of_forall₂ (P := fun l => declaredCount l ≤ 1)
      (fun _ _ hl hout => (declaredCount_recaseLine hout).trans hl) (mapM_ok_forall₂ h) hone

theorem declaredCount_moves {m : Marker} (hm : m = assignmentMarker ∨ m = remarkMarker)
    {lines out : List Text} (hclear : ∀ l ∈ lines, Clear l) (h : List.Forall₂ m.Moves lines out)
    (hone : ∀ l ∈ lines, declaredCount l ≤ 1) : ∀ l ∈ out, declaredCount l ≤ 1 := by
  refine forall_of_forall₂ (P := fun l => Clear l ∧ declaredCount l ≤ 1) ?_ h
    fun l hl => ⟨hclear l hl, hone l hl⟩
  exact fun l l' ⟨hl, hone⟩ hmove => (reset_moves hm hl hmove).declaredCount hl.settled.sound hone

/-- Each statement declares one name at most. -/
theorem declaredCount_statements {style : Style} (hsplit : style.splitDeclarations = true)
    (lines : List Text) : ∀ l ∈ statements style lines, declaredCount l ≤ 1 := by
  intro l hl
  rw [statements, if_pos hsplit] at hl
  obtain ⟨line, _, hl⟩ := List.mem_flatMap.mp hl
  exact splitDeclaration_single_iff.mp (splitDeclaration_twice line l hl)

/-- Lines that declare one name at most are not split. -/
theorem statements_of_single {style : Style} {lines : List Text}
    (h : ∀ l ∈ lines, declaredCount l ≤ 1) : statements style lines = lines := by
  rw [statements]
  split
  · rw [splitDeclarations,
      List.flatMap_congr fun l hl => splitDeclaration_single_iff.mpr (h l hl),
      List.flatMap_singleton']
  · rfl

/-- The passes leave lines of which none is split. -/
theorem single_workLines {style : Style} {raw : Text} {worked : Worked} (hnul : '\x00' ∉ raw)
    (hu : ∀ c ∈ style.unit, isBlank c = true) (hclear : ¬ Astray style raw)
    (hwork : (workLines style (Lifting.result raw).shelves (Lifting.result raw).lines).outcome =
      .ok worked) : statements style worked.lines = worked.lines := by
  by_cases hsplit : style.splitDeclarations = true
  case neg => rw [statements, if_neg hsplit]
  obtain ⟨recased, assigned, hr, ha, hm⟩ := workLines_ok hwork
  obtain ⟨hlaid, hassigned, _⟩ := clear_lines hnul hu hclear hr ha hm
  have hspace : ∀ c ∈ style.unit, isSpace c = true := fun c hc => isSpace_of_isBlank (hu c hc)
  have hspaced : ∀ l ∈ spacedLines style raw, declaredCount l ≤ 1 := by
    intro l hl
    obtain ⟨line, hline, rfl⟩ := List.mem_map.mp hl
    exact declaredCount_spaceLine
      ((orderly_statements style (orderly_liftedLines hnul)).1 line hline).sound
      (declaredCount_statements hsplit _ line hline)
  have hrecased := declaredCount_recase hr hspaced
  have hindented : ∀ l ∈ layOut style.unit (nest recased), declaredCount l ≤ 1 := by
    intro l hl
    rcases of_mem_layOut hu hl with rfl | ⟨r, hr, s, hs, rfl⟩
    · exact Nat.zero_le 1
    · rw [declaredCount_of_beads (beads_indent hs)]
      exact hrecased r hr
  exact statements_of_single (declaredCount_moves (.inr rfl) hassigned (align_moves hm)
    (declaredCount_moves (.inl rfl) hlaid (align_moves ha) hindented))

end VbTidy
