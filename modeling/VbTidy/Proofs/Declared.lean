import VbTidy.Proofs.Statements

/-
A declaration of several names and the lines that become of it. A line is taken apart without a
scan: `FirstDim` says where its first Dim stands, `Statement` how far the statement behind it
reaches, and `PartsOf` which commas of it part the names. The splitter finds just these
(`splitInto`): it leaves a line as it is, or puts each name behind a Dim of its own, in order, what
stood before the Dim in front of the first and what stood behind the statement behind the last. Each
line it makes has its first Dim where it was put, with one name behind it, so the lines do not change
when they are split again (`splitDeclarations_settled`).
-/
namespace VbTidy

/-! ## The first Dim -/

/-- The word Dim, in any letter case, stands between two texts, and it is neither part of a longer
word nor the name of a member. -/
structure DimAt (before dim after : Text) : Prop where
  word : isSameWord "dim".toList dim = true
  front : before.getLast? ≠ some '.' ∧ wordAt before.getLast? = false
  behind : wordAt after.head? = false

/-- There is no Dim farther in front. -/
structure FirstDim (before dim after : Text) : Prop where
  here : DimAt before dim after
  least : ∀ b d a, b ++ (d ++ a) = before ++ (dim ++ after) → DimAt b d a → before.length ≤ b.length

theorem length_of_isSameWord {w t : Text} (h : isSameWord w t = true) : t.length = w.length :=
  (isSameWord_iff.mp h).length_eq.symm

theorem dimPattern_iff {b : Option Char} {t : Text} {n : Nat} :
    dimPattern b t = some n ↔ n = 3 ∧ ∃ dim after, t = dim ++ after ∧
      isSameWord "dim".toList dim = true ∧ (b ≠ some '.' ∧ wordAt b = false) ∧
        wordAt after.head? = false := by
  constructor
  · intro h
    unfold dimPattern at h
    split at h
    · cases h
    next hb =>
    split at h
    case h_2 => cases h
    next after hword =>
    split at h
    · cases h
    next hafter =>
    obtain ⟨dim, rfl, hdim⟩ := dropWord?_iff.mp hword
    refine ⟨(Option.some.inj h).symm, dim, after, rfl, isSameWord_iff.mpr hdim, ?_,
      by simpa using hafter⟩
    simpa [not_or] using hb
  · rintro ⟨rfl, dim, after, rfl, hdim, ⟨hdot, hb⟩, hafter⟩
    have hword : dropWord? "dim".toList (dim ++ after) = some after :=
      dropWord?_iff.mpr ⟨dim, rfl, isSameWord_iff.mp hdim⟩
    have hfront : (b == some '.' || wordAt b) = false := by simp [hdot, hb]
    rw [dimPattern, if_neg (by simp [hfront]), hword]
    simp [hafter]

theorem firstFrom_eq_none_iff {p : Pattern} {b : Option Char} {t : Text} :
    p.firstFrom b t = none ↔ ∀ x y, t = x ++ y → p (x.getLast?.or b) y = none := by
  induction t generalizing b with
  | nil =>
    rw [Pattern.firstFrom, Option.map_eq_none_iff]
    constructor
    · rintro h x y heq
      obtain ⟨rfl, rfl⟩ := List.append_eq_nil_iff.mp heq.symm
      exact h
    · exact fun h => h [] [] rfl
  | cons c t ih =>
    rw [Pattern.firstFrom]
    split
    · next n hn =>
      simp only [reduceCtorEq, false_iff]
      intro h
      rw [show p b (c :: t) = none from h [] (c :: t) rfl] at hn
      cases hn
    · next hn =>
      rw [Option.map_eq_none_iff, ih]
      constructor
      · intro h x y heq
        cases x with
        | nil => rwa [← show c :: t = y from heq]
        | cons d x =>
          obtain ⟨rfl, rfl⟩ := List.cons.inj heq
          rw [getLast?_cons_or]
          exact h x y rfl
      · rintro h x y rfl
        rw [← getLast?_cons_or]
        exact h (c :: x) y rfl

theorem firstFrom_hit {p : Pattern} {b : Option Char} {t : Text} {n : Nat} (h : p b t = some n) :
    p.firstFrom b t = some ([], t.take n, t.drop n) := by
  cases t with
  | nil => simp [Pattern.firstFrom, h]
  | cons c t => rw [Pattern.firstFrom, h]

theorem firstFrom_miss {p : Pattern} {b : Option Char} {c : Char} {t : Text}
    (h : p b (c :: t) = none) :
    p.firstFrom b (c :: t) = (p.firstFrom (some c) t).map fun r => (c :: r.1, r.2) := by
  rw [Pattern.firstFrom, h]

/-- The first match is one, and none starts farther in front. -/
theorem firstFrom_first {p : Pattern} (hlen : ∀ {b t n}, p b t = some n → n ≤ t.length)
    {b : Option Char} {t x hit y : Text} (h : p.firstFrom b t = some (x, hit, y)) :
    t = x ++ (hit ++ y) ∧ p (x.getLast?.or b) (hit ++ y) = some hit.length ∧
      ∀ u v, x = u ++ v → v ≠ [] → p (u.getLast?.or b) (v ++ (hit ++ y)) = none := by
  have hnone : ∀ {b : Option Char} {z : Text} (u v : Text), [] = u ++ v → v ≠ [] →
      p (u.getLast?.or b) (v ++ z) = none :=
    fun _ _ heq hv => absurd (List.append_eq_nil_iff.mp heq.symm).2 hv
  induction t generalizing b x with
  | nil =>
    obtain ⟨n, hn, heq⟩ := Option.map_eq_some_iff.mp h
    obtain rfl : n = 0 := Nat.le_zero.mp (hlen hn)
    cases heq
    exact ⟨rfl, hn, hnone⟩
  | cons c t ih =>
    cases hn : p b (c :: t) with
    | some n =>
      rw [firstFrom_hit hn] at h
      cases h
      refine ⟨(List.take_append_drop n _).symm, ?_, hnone⟩
      rw [List.take_append_drop, List.length_take, Nat.min_eq_left (hlen hn)]
      exact hn
    | none =>
      rw [firstFrom_miss hn] at h
      obtain ⟨⟨x', hit', y'⟩, hr, heq⟩ := Option.map_eq_some_iff.mp h
      obtain ⟨rfl, rfl, rfl⟩ : c :: x' = x ∧ hit' = hit ∧ y' = y := by simpa using heq
      obtain ⟨rfl, hhit, hfront⟩ := ih hr
      refine ⟨rfl, by rwa [getLast?_cons_or], ?_⟩
      intro u v heq hv
      cases u with
      | nil =>
        rw [← show c :: x' = v from heq]
        exact hn
      | cons d u =>
        obtain ⟨rfl, rfl⟩ := List.cons.inj heq
        rw [getLast?_cons_or]
        exact hfront u v rfl hv

/-- A match with none farther in front is the first one. -/
theorem firstFrom_append {p : Pattern} {b : Option Char} {x hit y : Text}
    (hhit : p (x.getLast?.or b) (hit ++ y) = some hit.length)
    (hfront : ∀ u v, x = u ++ v → v ≠ [] → p (u.getLast?.or b) (v ++ (hit ++ y)) = none) :
    p.firstFrom b (x ++ (hit ++ y)) = some (x, hit, y) := by
  induction x generalizing b with
  | nil =>
    have hhere : p b (hit ++ y) = some hit.length := hhit
    rw [List.nil_append, firstFrom_hit hhere, List.take_left, List.drop_left]
  | cons c x ih =>
    have hmiss : p b (c :: (x ++ (hit ++ y))) = none :=
      hfront [] (c :: x) rfl (List.cons_ne_nil c x)
    rw [getLast?_cons_or] at hhit
    have hmore := ih hhit fun u v heq hv => by
      rw [← getLast?_cons_or]
      exact hfront (c :: u) v (by rw [heq, List.cons_append]) hv
    rw [List.cons_append, firstFrom_miss hmiss, hmore]
    rfl

theorem dimPattern_none_iff {before t : Text} : dimPattern before.getLast? t = none ↔
    ∀ dim after, t = dim ++ after → ¬ DimAt before dim after := by
  constructor
  · rintro h dim after rfl hat
    rw [dimPattern_iff.mpr ⟨rfl, dim, after, rfl, hat.word, hat.front, hat.behind⟩] at h
    cases h
  · intro h
    by_contra hne
    obtain ⟨n, hn⟩ := Option.ne_none_iff_exists'.mp hne
    obtain ⟨_, dim, after, ht, hdim, hfront, hbehind⟩ := dimPattern_iff.mp hn
    exact h dim after ht ⟨hdim, hfront, hbehind⟩

theorem DimAt.length {b d a : Text} (h : DimAt b d a) : d.length = 3 :=
  length_of_isSameWord h.word

theorem dimPattern_first?_none {line : Text} (h : dimPattern.first? line = none) :
    ∀ b d a, line = b ++ (d ++ a) → ¬ DimAt b d a := by
  intro b d a hline
  have hmiss := firstFrom_eq_none_iff.mp h b (d ++ a) hline
  rw [Option.or_none] at hmiss
  exact dimPattern_none_iff.mp hmiss d a rfl

theorem dimPattern_first?_iff {line before dim after : Text} :
    dimPattern.first? line = some (before, dim, after) ↔
      line = before ++ (dim ++ after) ∧ FirstDim before dim after := by
  have hlen : ∀ {b t n}, dimPattern b t = some n → n ≤ t.length := by
    intro b t n h
    obtain ⟨rfl, d, a, rfl, hd, _⟩ := dimPattern_iff.mp h
    have hd : d.length = 3 := length_of_isSameWord hd
    rw [List.length_append]
    omega
  rw [Pattern.first?]
  constructor
  · intro h
    obtain ⟨rfl, hhit, hfront⟩ := firstFrom_first hlen h
    rw [Option.or_none] at hhit
    obtain ⟨hthree, d, a, heq, hd, hb, ha⟩ := dimPattern_iff.mp hhit
    have hd' : d.length = dim.length := (length_of_isSameWord hd).trans hthree.symm
    obtain ⟨rfl, rfl⟩ := List.append_inj heq.symm hd'
    refine ⟨rfl, ⟨⟨hd, hb, ha⟩, ?_⟩⟩
    intro b' d' a' hline hat
    by_contra hlt
    obtain ⟨v, rfl⟩ : b' <+: before :=
      List.prefix_of_prefix_length_le ⟨_, hline⟩ (List.prefix_append _ _) (by omega)
    have hv : v ≠ [] := by
      rintro rfl
      simp at hlt
    have hmiss := hfront b' v rfl hv
    rw [Option.or_none] at hmiss
    rw [List.append_assoc] at hline
    exact dimPattern_none_iff.mp hmiss d' a' (List.append_cancel_left hline).symm hat
  · rintro ⟨rfl, hat, hleast⟩
    refine firstFrom_append ?_ ?_
    · rw [Option.or_none, hat.length]
      exact dimPattern_iff.mpr ⟨rfl, dim, after, rfl, hat.word, hat.front, hat.behind⟩
    · rintro u v rfl hv
      rw [Option.or_none]
      refine dimPattern_none_iff.mpr fun d a heq hd => ?_
      have hle := hleast u d a (by rw [List.append_assoc, heq]) hd
      have hpos := List.length_pos_iff.mpr hv
      rw [List.length_append] at hle
      omega

/-- Behind the first Dim another text may stand. -/
theorem FirstDim.exchange {before dim after after' : Text} (h : FirstDim before dim after)
    (hafter : wordAt after'.head? = false) : FirstDim before dim after' := by
  refine ⟨⟨h.here.word, h.here.front, hafter⟩, ?_⟩
  intro b d a hline hat
  by_contra hlt
  -- a Dim farther in front ends before the last letter of this one
  obtain ⟨w, hw⟩ : b ++ d <+: before ++ dim := by
    have hfront : b ++ d <+: before ++ (dim ++ after') := ⟨a, by rw [List.append_assoc, hline]⟩
    have hhere : before ++ dim <+: before ++ (dim ++ after') := ⟨after', List.append_assoc ..⟩
    refine List.prefix_of_prefix_length_le hfront hhere ?_
    rw [List.length_append, List.length_append, hat.length, h.here.length]
    omega
  have hlen := congrArg List.length hw
  rw [List.length_append, List.length_append, List.length_append, hat.length,
    h.here.length] at hlen
  obtain ⟨c, w, rfl⟩ := List.exists_cons_of_length_pos (l := w) (by omega)
  have ha : a = c :: w ++ after' := by
    rw [← List.append_assoc before, ← hw] at hline
    simpa using hline
  have hold : DimAt b d (c :: w ++ after) := ⟨hat.word, hat.front, by
    have := hat.behind
    rwa [ha] at this⟩
  refine hlt (h.least b d (c :: w ++ after) ?_ hold)
  rw [← List.append_assoc before, ← hw]
  simp

/-! ## The statement -/

/-- A list of names is followed by the rest of a line, and its statement ends there and not before:
at a colon, a comment or markup, or at the end of the line. -/
structure Statement (list rest : Text) : Prop where
  stop : rest = [] ∨ endsStatement rest = true
  inside : ∀ u v, list = u ++ v → v ≠ [] → endsStatement (v ++ rest) = false

theorem statement_splitStatement (t : Text) :
    Statement (splitStatement t).1 (splitStatement t).2 := by
  induction t with
  | nil =>
    refine ⟨.inl rfl, ?_⟩
    intro u v h hv
    exact absurd (List.append_eq_nil_iff.mp h.symm).2 hv
  | cons c t ih =>
    rw [splitStatement]
    split
    · next hend =>
      refine ⟨.inr hend, ?_⟩
      intro u v h hv
      exact absurd (List.append_eq_nil_iff.mp h.symm).2 hv
    · next hend =>
      refine ⟨ih.stop, ?_⟩
      intro u v h hv
      cases u with
      | nil =>
        rw [← show c :: (splitStatement t).1 = v from h, List.cons_append, splitStatement_append]
        simpa using hend
      | cons d u => exact ih.inside u v (List.cons.inj h).2 hv

/-- A statement ends at the latest where an end stands. -/
theorem prefix_splitStatement {rest : Text} (h : rest = [] ∨ endsStatement rest = true) (x : Text) :
    (splitStatement (x ++ rest)).1 <+: x := by
  induction x with
  | nil =>
    cases rest with
    | nil => exact List.prefix_refl _
    | cons c rest =>
      have hend : endsStatement (c :: rest) = true := h.resolve_left (List.cons_ne_nil c rest)
      have hcut : splitStatement (c :: rest) = ([], c :: rest) := by
        rw [splitStatement, if_pos hend]
      exact ⟨[], by rw [List.nil_append, List.append_nil, hcut]⟩
  | cons c x ih =>
    rw [List.cons_append, splitStatement]
    split
    · exact List.nil_prefix
    · exact (List.prefix_cons_inj c).mpr ih

/-! ## The names -/

/-- The number of parentheses open behind a text; one closed too many does not count. -/
def openAfter (depth : Nat) (t : Text) : Nat :=
  t.foldl (fun d c => if c = '(' then d + 1 else if c = ')' then d - 1 else d) depth

/-- All commas of a text stand in parentheses. -/
def Uncut (depth : Nat) (t : Text) : Prop :=
  ∀ u v, t = u ++ ',' :: v → 0 < openAfter depth u

/-- The parts of a list between its commas outside parentheses. -/
structure PartsOf (list : Text) (parts : List Text) : Prop where
  joined : [','].intercalate parts = list
  inside : ∀ p ∈ parts, Uncut 0 p
  between : ∀ p ∈ parts.dropLast, openAfter 0 p = 0

/-- The names among the parts: those that are not blank, without the white space at their ends. -/
def namesOf (parts : List Text) : List Text :=
  (parts.map trim).filter (!·.isEmpty)

theorem uncut_nil (depth : Nat) : Uncut depth [] := by
  intro u v h
  simp at h

theorem openAfter_append (depth : Nat) (s t : Text) :
    openAfter depth (s ++ t) = openAfter (openAfter depth s) t :=
  List.foldl_append

theorem uncut_cons {depth : Nat} {c : Char} {t : Text} (hc : c = ',' → 0 < depth) :
    Uncut depth (c :: t) ↔ Uncut (openAfter depth [c]) t := by
  constructor
  · rintro h u v rfl
    exact h (c :: u) v rfl
  · intro h u v heq
    cases u with
    | nil => exact hc (List.cons.inj heq).1
    | cons d u =>
      obtain ⟨rfl, rfl⟩ := List.cons.inj heq
      exact h u v rfl

theorem Uncut.front {depth : Nat} {s t : Text} (h : Uncut depth t) (hs : s <+: t) :
    Uncut depth s := by
  obtain ⟨w, rfl⟩ := hs
  rintro u v rfl
  exact h u (v ++ w) (by simp)

/-- The cut at commas, from a place inside parentheses on. -/
theorem cutNames_parts (depth : Nat) (t : Text) : ∃ p ps, cutNames depth t = p :: ps ∧
    Uncut depth p ∧ (∀ q ∈ ps, Uncut 0 q) ∧ (ps ≠ [] → openAfter depth p = 0) ∧
      ∀ q ∈ ps.dropLast, openAfter 0 q = 0 := by
  induction t generalizing depth with
  | nil => exact ⟨[], [], rfl, uncut_nil depth, by simp, by simp, by simp⟩
  | cons c t ih =>
    rw [cutNames]
    split
    · next hc =>
      simp only [Bool.and_eq_true, beq_iff_eq] at hc
      obtain ⟨rfl, rfl⟩ := hc
      obtain ⟨p, ps, hcut, hp, hps, hopen, hbetween⟩ := ih 0
      refine ⟨[], cutNames 0 t, rfl, uncut_nil 0, ?_, fun _ => rfl, ?_⟩
      · rw [hcut]
        exact List.forall_mem_cons.mpr ⟨hp, hps⟩
      · rw [hcut]
        cases ps with
        | nil => simp
        | cons q ps =>
          rw [List.dropLast_cons_cons]
          exact List.forall_mem_cons.mpr ⟨hopen (List.cons_ne_nil q ps), hbetween⟩
    · next hc =>
      have hcomma : c = ',' → 0 < depth := by
        rintro rfl
        simp only [beq_self_eq_true, Bool.true_and, beq_iff_eq] at hc
        omega
      have hdepth : (if (c == '(') = true then depth + 1 else if (c == ')') = true then depth - 1
          else depth) = openAfter depth [c] := by simp [openAfter]
      obtain ⟨p, ps, hcut, hp, hrest⟩ := ih (openAfter depth [c])
      simp only [hdepth, hcut]
      exact ⟨c :: p, ps, rfl, (uncut_cons hcomma).mpr hp, hrest⟩

theorem partsOf_cutNames (list : Text) : PartsOf list (cutNames 0 list) := by
  obtain ⟨p, ps, hcut, hp, hps, hopen, hbetween⟩ := cutNames_parts 0 list
  refine ⟨intercalate_cutNames 0 list, ?_, ?_⟩
  · rw [hcut]
    exact List.forall_mem_cons.mpr ⟨hp, hps⟩
  · rw [hcut]
    cases ps with
    | nil => simp
    | cons q ps =>
      rw [List.dropLast_cons_cons]
      exact List.forall_mem_cons.mpr ⟨hopen (List.cons_ne_nil q ps), hbetween⟩

/-- Where all commas stand in parentheses there is one part. -/
theorem cutNames_uncut {depth : Nat} {t : Text} (h : Uncut depth t) : cutNames depth t = [t] := by
  induction t generalizing depth with
  | nil => rfl
  | cons c t ih =>
    have hcomma : c = ',' → 0 < depth := by
      rintro rfl
      exact h [] t rfl
    rw [cutNames, if_neg]
    · have hdepth : (if (c == '(') = true then depth + 1 else if (c == ')') = true then depth - 1
          else depth) = openAfter depth [c] := by simp [openAfter]
      simp only [hdepth, ih ((uncut_cons hcomma).mp h)]
    · simp only [Bool.and_eq_true, beq_iff_eq, not_and]
      intro hc
      have := hcomma hc
      omega

theorem openAfter_spaces {s : Text} (h : ∀ c ∈ s, isSpace c = true) (depth : Nat) :
    openAfter depth s = depth := by
  induction s with
  | nil => rfl
  | cons c s ih =>
    rw [List.forall_mem_cons] at h
    have hc : c ≠ '(' ∧ c ≠ ')' := by
      constructor <;> rintro rfl <;> exact absurd h.1 (by decide)
    rw [← List.singleton_append, openAfter_append, show openAfter depth [c] = depth by
      simp [openAfter, hc.1, hc.2], ih h.2]

theorem Uncut.trim {p : Text} (h : Uncut 0 p) : Uncut 0 (trim p) := by
  obtain ⟨s₁, s₂, hp, hs₁, _⟩ := trim_split p
  intro u v hv
  rw [hv] at hp
  have hopen := h (s₁ ++ u) (v ++ s₂) (by rw [hp]; simp)
  rwa [openAfter_append, openAfter_spaces hs₁] at hopen

/-- One name at most is declared by the statement behind a Dim if the text up to an end of the
statement has no comma outside parentheses. -/
theorem length_declared_le_one {x rest : Text} (hx : Uncut 0 x)
    (hrest : rest = [] ∨ endsStatement rest = true) :
    (declaredNames (splitStatement (x ++ rest)).1).length ≤ 1 := by
  rw [declaredNames, cutNames_uncut (hx.front (prefix_splitStatement hrest x))]
  exact Nat.le_trans (List.length_filter_le _ _) (by simp)

/-! ## The lines -/

/-- A line taken apart at its first Dim: what stands before it, the list of names behind it up to
the end of its statement, and the rest. -/
structure Declaration (line : Text) where
  before : Text
  dim : Text
  list : Text
  rest : Text
  parts : List Text
  eq : line = before ++ (dim ++ (list ++ rest))
  first : FirstDim before dim (list ++ rest)
  statement : Statement list rest
  listed : PartsOf list parts

/-- The names that the first Dim of a line declares. -/
def Declaration.names {line : Text} (d : Declaration line) : List Text :=
  namesOf d.parts

/-- What becomes of a line: a line that declares fewer than two names behind its first Dim stays as
it is, and of any other become as many lines as it declares names, each with the Dim and one name.
What stands before the Dim is in front of the first, what stands behind the statement is behind the
last. -/
inductive SplitInto (line : Text) : List Text → Prop
  | plain (h : ∀ b d a, line = b ++ (d ++ a) → ¬ DimAt b d a) : SplitInto line [line]
  | few (d : Declaration line) (h : d.names.length < 2) : SplitInto line [line]
  | each (d : Declaration line) (first : Text) (mid : List Text) (last : Text)
      (h : d.names = first :: (mid ++ [last])) :
      SplitInto line ((d.before ++ (d.dim ++ ' ' :: first)) ::
        (mid.map (fun n => d.dim ++ ' ' :: n) ++ [d.dim ++ ' ' :: (last ++ d.rest)]))

/-- The splitter at the first Dim of a line. -/
theorem splitDeclaration_cases {before dim after : Text} (h : FirstDim before dim after) :
    ((declaredNames (splitStatement after).1).length ≤ 1 ∧
      splitDeclaration (before ++ (dim ++ after)) = [before ++ (dim ++ after)]) ∨
    ∃ first mid last, declaredNames (splitStatement after).1 = first :: (mid ++ [last]) ∧
      splitDeclaration (before ++ (dim ++ after)) = (before ++ (dim ++ ' ' :: first)) ::
        (mid.map (fun n => dim ++ ' ' :: n) ++
          [dim ++ ' ' :: (last ++ (splitStatement after).2)]) := by
  rw [splitDeclaration, dimPattern_first?_iff.mpr ⟨rfl, h⟩]
  simp only
  split
  · next first second names hnames =>
    obtain ⟨mid, last, hlast⟩ := (List.eq_nil_or_concat' (second :: names)).resolve_left (by simp)
    refine .inr ⟨first, mid, last, by rw [hnames, hlast], ?_⟩
    rw [hlast, List.map_append, List.map_singleton, ← List.cons_append, appendToLast_concat]
    simp
  · next hfew =>
    refine .inl ⟨?_, rfl⟩
    cases hnames : declaredNames (splitStatement after).1 with
    | nil => exact Nat.zero_le 1
    | cons first names =>
      cases names with
      | nil => exact Nat.le_refl 1
      | cons second names => exact absurd hnames (hfew first second names)

theorem splitInto (line : Text) : SplitInto line (splitDeclaration line) := by
  cases hfirst : dimPattern.first? line with
  | none =>
    have hsame : splitDeclaration line = [line] := by rw [splitDeclaration, hfirst]
    rw [hsame]
    exact .plain (dimPattern_first?_none hfirst)
  | some r =>
    obtain ⟨before, dim, after⟩ := r
    obtain ⟨hline, hdim⟩ := dimPattern_first?_iff.mp hfirst
    have hafter := splitStatement_append after
    let d : Declaration line := {
      before, dim
      list := (splitStatement after).1
      rest := (splitStatement after).2
      parts := cutNames 0 (splitStatement after).1
      eq := by rw [hafter, hline]
      first := by rwa [hafter]
      statement := statement_splitStatement after
      listed := partsOf_cutNames _ }
    have hcases := splitDeclaration_cases hdim
    rw [← hline] at hcases
    rcases hcases with ⟨hone, hsplit⟩ | ⟨first, mid, last, hnames, hsplit⟩
    · rw [hsplit]
      exact .few d (Nat.lt_succ_of_le hone)
    · rw [hsplit]
      exact .each d first mid last hnames

/-! ## Split again -/

/-- A line with one name at most behind its first Dim stays as it is. -/
theorem splitDeclaration_one {before dim x rest : Text} (h : FirstDim before dim (x ++ rest))
    (hx : Uncut 0 x) (hrest : rest = [] ∨ endsStatement rest = true) :
    splitDeclaration (before ++ (dim ++ (x ++ rest))) = [before ++ (dim ++ (x ++ rest))] := by
  have hone := length_declared_le_one hx hrest
  rcases splitDeclaration_cases h with ⟨_, hsplit⟩ | ⟨first, mid, last, hnames, _⟩
  · exact hsplit
  · rw [hnames] at hone
    simp at hone

/-- A space in front of a name parts nothing. -/
theorem Uncut.behind_space {n : Text} (h : Uncut 0 n) : Uncut 0 (' ' :: n) :=
  (uncut_cons (by decide)).mpr h

theorem Declaration.uncut {line : Text} (d : Declaration line) : ∀ n ∈ d.names, Uncut 0 n := by
  intro n hn
  obtain ⟨p, hp, rfl⟩ := List.mem_map.mp (List.mem_of_mem_filter hn)
  exact (d.listed.inside p hp).trim

/-- A Dim that a line starts with is its first. -/
theorem FirstDim.at_start {before dim after after' : Text} (h : FirstDim before dim after)
    (hafter : wordAt after'.head? = false) : FirstDim [] dim after' :=
  ⟨⟨h.here.word, by simp [wordAt], hafter⟩, fun _ _ _ _ _ => Nat.zero_le _⟩

section
variable {line : Text} (D : Declaration line)
include D

theorem Declaration.stop_of_tail {tail : Text} (h : tail = [] ∨ tail = D.rest) :
    tail = [] ∨ endsStatement tail = true := by
  rcases h with rfl | rfl
  · exact .inl rfl
  · exact D.statement.stop

/-- In each line that comes out the Dim is the first, and one name stands behind it, in the last line
with the rest of the line behind it. -/
theorem Declaration.line_cases {first last : Text} {mid : List Text}
    (hnames : D.names = first :: (mid ++ [last])) {out : Text}
    (hout : out ∈ (D.before ++ (D.dim ++ ' ' :: first)) ::
      (mid.map (fun n => D.dim ++ ' ' :: n) ++ [D.dim ++ ' ' :: (last ++ D.rest)])) :
    ∃ pre n tail, out = pre ++ (D.dim ++ ' ' :: (n ++ tail)) ∧ n ∈ D.names ∧
      (tail = [] ∨ tail = D.rest) ∧ FirstDim pre D.dim (' ' :: (n ++ tail)) := by
  have hspace : ∀ x : Text, wordAt (' ' :: x).head? = false := fun _ => by
    rw [List.head?_cons]
    decide
  rw [hnames]
  rcases List.mem_cons.mp hout with rfl | hout
  · refine ⟨D.before, first, [], ?_, by simp, .inl rfl, D.first.exchange (hspace _)⟩
    rw [List.append_nil]
  · rcases List.mem_append.mp hout with hout | hout
    · obtain ⟨n, hn, rfl⟩ := List.mem_map.mp hout
      refine ⟨[], n, [], ?_, by simp [hn], .inl rfl, D.first.at_start (hspace _)⟩
      rw [List.append_nil, List.nil_append]
    · obtain rfl := List.mem_singleton.mp hout
      exact ⟨[], last, D.rest, rfl, by simp, .inr rfl, D.first.at_start (hspace _)⟩

end

theorem splitDeclaration_twice (line : Text) :
    ∀ l ∈ splitDeclaration line, splitDeclaration l = [l] := by
  have hinto := splitInto line
  generalize hls : splitDeclaration line = lines at hinto ⊢
  have hsame : lines = [line] → ∀ l ∈ lines, splitDeclaration l = [l] := by
    rintro rfl l hl
    obtain rfl := List.mem_singleton.mp hl
    exact hls
  cases hinto with
  | plain _ => exact hsame rfl
  | few d _ => exact hsame rfl
  | each d first mid last hnames =>
    intro l hl
    obtain ⟨pre, n, tail, rfl, hn, htail, hfirst⟩ := d.line_cases hnames hl
    exact splitDeclaration_one (x := ' ' :: n) hfirst (d.uncut n hn).behind_space
      (d.stop_of_tail htail)

/-- A line is left as it is or becomes one line for each name that its first Dim declares, and
nothing else of it is lost; lines that were split stay as they are when they are split again, and
none of them counts as split. -/
theorem splitDeclarations_settled :
    (∀ line, SplitInto line (splitDeclaration line)) ∧
      ∀ lines, splitDeclarations (splitDeclarations lines) = splitDeclarations lines ∧
        countSplit (splitDeclarations lines) = 0 := by
  refine ⟨splitInto, fun lines => ?_⟩
  have hstays : ∀ l ∈ splitDeclarations lines, splitDeclaration l = [l] := by
    intro l hl
    obtain ⟨line, _, hl⟩ := List.mem_flatMap.mp hl
    exact splitDeclaration_twice line l hl
  generalize splitDeclarations lines = out at hstays
  constructor
  · calc out.flatMap splitDeclaration
        = out.flatMap ([·]) := List.flatMap_congr hstays
      _ = out := List.flatMap_singleton' out
  · rw [countSplit, List.countP_eq_zero]
    intro l hl
    simp [hstays l hl]

example : splitDeclarations ["x = 1: Dim a, b(2, 3), c: y = 2".toList] =
    ["x = 1: Dim a", "Dim b(2, 3)", "Dim c: y = 2"].map String.toList := by
  decide

end VbTidy
