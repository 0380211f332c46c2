import Mathlib.Data.List.DropRight
import VbTidy.Proofs.OneName
import VbTidy.Proofs.Respaced

/-
Padding that spacing takes back. Aligning puts blanks in front of an equals sign and of a comment.
Spacing sets an equals sign and a comment where they stand without these blanks
(`spaceLine_equals`, `spaceLine_comment`).
-/
namespace VbTidy

/-! ## Blanks before an equals sign -/

/-- An equals sign is set as an operator between two operands. -/
theorem settingOf_equals (back k after : Text) : settingOf back ('=' :: k) after = .binary := by
  have hplus : isPlusOrMinus ('=' :: k) = false := by
    simp [isPlusOrMinus]
  have hand : (('=' :: k : Text) == ['&']) = false := by
    simp
  rw [settingOf_eq, hplus, hand]
  rfl

theorem setOperators_cons (back hit after : Text) (more : List (Text × Text)) :
    setOperators back ((hit, after) :: more) =
      setOperators ((after.dropWhile isBlank).reverse ++
        setOperator back (bare hit).reverse (settingOf back (bare hit) after)) more := rfl

theorem ahead_binary_congr {back back' : Text}
    (h : back.dropWhile isBlank = back'.dropWhile isBlank) :
    Setting.binary.ahead back = Setting.binary.ahead back' := by
  rw [Setting.ahead, Setting.ahead, h, if_neg (by decide), if_neg (by decide)]

/-- Blanks in front of an equals sign do not count. -/
theorem setOperators_equals {back back' : Text} (k after : Text) (more : List (Text × Text))
    (h : back.dropWhile isBlank = back'.dropWhile isBlank) :
    setOperators back (('=' :: k, after) :: more) =
      setOperators back' (('=' :: k, after) :: more) := by
  have hbare : bare ('=' :: k) = '=' :: bare k := bare_plain rfl k
  rw [setOperators_cons, setOperators_cons, hbare, settingOf_equals, settingOf_equals,
    setOperator_eq, setOperator_eq, ahead_binary_congr h]

/-- The pieces of two cuts at operators that differ in blanks before one equals sign. -/
inductive BeforeEquals (s : Text) : List (Text × Text) → List (Text × Text) → Prop
  | within (h k after : Text) (more : List (Text × Text)) :
      BeforeEquals s ((h ++ '=' :: k, after) :: more) ((h ++ (s ++ '=' :: k), after) :: more)
  | gap (h g k after : Text) (more : List (Text × Text)) :
      BeforeEquals s ((h, g) :: ('=' :: k, after) :: more) ((h, g ++ s) :: ('=' :: k, after) :: more)
  | later (p : Text × Text) {rest rest' : List (Text × Text)} (h : BeforeEquals s rest rest') :
      BeforeEquals s (p :: rest) (p :: rest')

section
variable {s : Text} (hs : ∀ c ∈ s, isBlank c = true)
include hs

theorem dropBlanks_behind (g back : Text) :
    (((g ++ s).dropWhile isBlank).reverse ++ back).dropWhile isBlank =
      ((g.dropWhile isBlank).reverse ++ back).dropWhile isBlank := by
  cases hcore : g.dropWhile isBlank with
  | nil =>
    have hall : ∀ c ∈ g ++ s, isBlank c = true := by
      intro c hc
      rcases List.mem_append.mp hc with hc | hc
      · exact blanks_of_dropBlanks hcore c hc
      · exact hs c hc
    have hnil : (g ++ s).dropWhile isBlank = [] := by
      rw [← List.append_nil (g ++ s), dropBlanks_append hall]
      rfl
    rw [hnil]
  | cons c core =>
    have hdrop : (g ++ s).dropWhile isBlank = g.dropWhile isBlank ++ s := by
      rw [List.dropWhile_append, hcore]
      rfl
    rw [hdrop, hcore, List.reverse_append, List.append_assoc, dropBlanks_append]
    exact fun d hd => hs d (List.mem_reverse.mp hd)

theorem BeforeEquals.setOperators_eq {rest rest' : List (Text × Text)}
    (h : BeforeEquals s rest rest') (back : Text) :
    setOperators back rest' = setOperators back rest := by
  induction h generalizing back with
  | within h k after more =>
    have hbare : bare (h ++ (s ++ '=' :: k)) = bare (h ++ '=' :: k) := by
      rw [bare_append, bare_append, bare_of_blanks hs, List.nil_append, bare_append]
    rw [setOperators_cons, setOperators_cons, hbare]
  | gap h g k after more =>
    have hset : settingOf back (bare h) (g ++ s) = settingOf back (bare h) g := by
      apply settingOf_congr rfl (fun _ => rfl)
      exact fun _ => startsRadix_append (fun c hc => hs c (List.mem_of_mem_head? hc)) g
    rw [setOperators_cons, setOperators_cons back h g, hset]
    exact setOperators_equals k after more (dropBlanks_behind hs g _)
  | later p _ ih =>
    obtain ⟨hit, after⟩ := p
    rw [setOperators_cons, setOperators_cons, ih]

theorem BeforeEquals.bare_eq {rest rest' : List (Text × Text)} (h : BeforeEquals s rest rest') :
    rest'.map (fun p => (bare p.1, bare p.2)) = rest.map fun p => (bare p.1, bare p.2) := by
  induction h with
  | within h k after more => simp [bare_of_blanks hs]
  | gap h g k after more => simp [bare_of_blanks hs]
  | later p _ ih => rw [List.map_cons, List.map_cons, ih]

end

theorem Edged.spread {h k : Text} (s : Text) (hne : h ≠ []) (hedged : Edged (h ++ '=' :: k)) :
    Edged (h ++ (s ++ '=' :: k)) := by
  obtain ⟨c, h, rfl⟩ := List.exists_cons_of_ne_nil hne
  refine ⟨hedged.1, ?_⟩
  have hlast : ∀ x : Text, (x ++ '=' :: k).getLast? = ('=' :: k : Text).getLast? := by
    intro x
    rw [List.getLast?_append, List.getLast?_cons]
    rfl
  rw [← List.append_assoc, hlast, ← hlast (c :: h)]
  exact hedged.2

/-- No gap between operators has an equals sign. -/
theorem equals_not_mem_gaps (t : Text) : ∀ g ∈ (operatorPattern.weave t).gaps, '=' ∉ g := by
  induction t using operator_induction with
  | nil =>
    rw [weave_operator_nil]
    simp [Weave.gaps]
  | miss c t h ih =>
    rw [weave_operator_miss h]
    intro g hg
    rcases List.mem_cons.mp hg with rfl | hg
    · have hc : '=' ≠ c := by
        rintro rfl
        rw [dropOperator?_cons] at h
        split at h
        · split at h <;> cases h
        · cases h
      rw [Weave.push, List.mem_cons, not_or]
      exact ⟨hc, ih _ List.mem_cons_self⟩
    · exact ih g (List.mem_cons_of_mem _ hg)
  | hit op rest hedged h ih =>
    rw [weave_operator_hit hedged.ne_nil h]
    intro g hg
    rcases List.mem_cons.mp hg with rfl | hg
    · simp [Weave.pushHit]
    · exact ih g hg

theorem source_cons (head hit after : Text) (more : List (Text × Text)) :
    (Weave.mk head ((hit, after) :: more)).source = head ++ (hit ++ (Weave.mk after more).source) := by
  simp [Weave.source]

/-- A character of two texts in a row stands in the first or in the second. -/
theorem append_eq_place {p q a b : Text} {c : Char} (h : p ++ q = a ++ c :: b) :
    (∃ z, p = a ++ c :: z ∧ b = z ++ q) ∨ ∃ y, a = p ++ y ∧ q = y ++ c :: b := by
  rcases List.append_eq_append_iff.mp h with ⟨y, rfl, hy⟩ | ⟨y, rfl, hy⟩
  · exact .inr ⟨y, rfl, hy⟩
  · cases y with
    | nil => exact .inr ⟨[], by simp, by simpa using hy.symm⟩
    | cons d y =>
      obtain ⟨rfl, rfl⟩ := List.cons.inj hy
      exact .inl ⟨y, rfl, rfl⟩

/-- An equals sign of a text stands in an operator: at the start of the first one, or farther
behind. -/
theorem equals_cases {head : Text} {rest : List (Text × Text)} (s : Text)
    (hedged : ∀ p ∈ rest, Edged p.1) (hgaps : ∀ g ∈ (Weave.mk head rest).gaps, '=' ∉ g) {a b : Text}
    (h : (Weave.mk head rest).source = a ++ '=' :: b) :
    (head = a ∧ ∃ k after more, rest = ('=' :: k, after) :: more) ∨
      ∃ rest', BeforeEquals s rest rest' ∧ (∀ p ∈ rest', Edged p.1) ∧
        (Weave.mk head rest').source = a ++ (s ++ '=' :: b) := by
  have hfree : ∀ z : Text, head ≠ a ++ '=' :: z := by
    rintro z rfl
    exact hgaps _ List.mem_cons_self (List.mem_append_right a List.mem_cons_self)
  induction rest generalizing head a with
  | nil =>
    refine absurd ?_ (hfree b)
    simpa [Weave.source] using h
  | cons p rest ih =>
    obtain ⟨hit, after⟩ := p
    have hhit : Edged hit := hedged _ List.mem_cons_self
    have hmore : ∀ p ∈ rest, Edged p.1 := fun p hp => hedged p (List.mem_cons_of_mem _ hp)
    rw [source_cons] at h
    rcases append_eq_place h with ⟨z, hz, _⟩ | ⟨x, rfl, hx⟩
    · exact absurd hz (hfree z)
    rcases append_eq_place hx with ⟨k, rfl, rfl⟩ | ⟨y, rfl, hy⟩
    · cases x with
      | nil => exact .inl ⟨(List.append_nil head).symm, k, after, rest, rfl⟩
      | cons d x =>
        refine .inr ⟨_, .within (d :: x) k after rest, ?_, by simp [source_cons]⟩
        exact List.forall_mem_cons.mpr ⟨hhit.spread s (List.cons_ne_nil d x), hmore⟩
    · have hafter : ∀ z : Text, after ≠ y ++ '=' :: z := by
        rintro z rfl
        exact hgaps _ (List.mem_cons_of_mem _ List.mem_cons_self)
          (List.mem_append_right y List.mem_cons_self)
      rcases ih hmore (fun g hg => hgaps g (List.mem_cons_of_mem _ hg)) hy hafter with
        ⟨rfl, k, after', more, rfl⟩ | ⟨rest', hrest', hedged', hsource⟩
      · refine .inr ⟨_, .gap hit after k after' more, List.forall_mem_cons.mpr ⟨hhit, hmore⟩, ?_⟩
        rw [source_cons] at hy
        rw [source_cons, source_cons, List.append_assoc, List.append_cancel_left hy]
        simp
      · refine .inr ⟨_, .later _ hrest', List.forall_mem_cons.mpr ⟨hhit, hedged'⟩, ?_⟩
        rw [source_cons, hsource]
        simp

/-- Blanks in front of an equals sign are not kept. -/
theorem spaceOperators_equals {s : Text} (hs : ∀ c ∈ s, isBlank c = true) (a b : Text) :
    spaceOperators (a ++ (s ++ '=' :: b)) = spaceOperators (a ++ '=' :: b) := by
  have hbare : bare (a ++ (s ++ '=' :: b)) = bare (a ++ '=' :: b) := by
    rw [bare_append, bare_append, bare_of_blanks hs, List.nil_append, bare_append]
  have hsource : (operatorPattern.weave (a ++ '=' :: b)).source = a ++ '=' :: b :=
    Pattern.source_weave operatorPattern _
  have hedged := edged_hits (a ++ '=' :: b)
  have hgaps := equals_not_mem_gaps (a ++ '=' :: b)
  have hcut : ∀ w : Weave, w.source = a ++ (s ++ '=' :: b) → (∀ p ∈ w.rest, Edged p.1) →
      w.bare = (operatorPattern.weave (a ++ '=' :: b)).bare →
      operatorPattern.weave (a ++ (s ++ '=' :: b)) = w := by
    intro w hw hedged hsame
    rw [← hw]
    exact weave_of_bare (by rw [hw, hbare]) hsame hedged
  rw [spaceOperators, spaceOperators]
  generalize operatorPattern.weave (a ++ '=' :: b) = w at hsource hedged hgaps hcut ⊢
  obtain ⟨head, rest⟩ := w
  rcases equals_cases s hedged hgaps hsource with
    ⟨rfl, k, after, more, rfl⟩ | ⟨rest', hrest, hedged', hsource'⟩
  · have hw := hcut ⟨head ++ s, ('=' :: k, after) :: more⟩ (by
      rw [source_cons] at hsource ⊢
      rw [List.append_assoc, List.append_cancel_left hsource]) hedged (by
        simp [Weave.bare, bare_of_blanks hs])
    have hdrop : (head ++ s).reverse.dropWhile isBlank = head.reverse.dropWhile isBlank := by
      rw [List.reverse_append, dropBlanks_append fun c hc => hs c (List.mem_reverse.mp hc)]
    rw [hw]
    exact congrArg (fun t => (List.dropWhile isBlank t).reverse)
      (setOperators_equals k after more hdrop)
  · rw [hcut _ hsource' hedged' (by rw [Weave.bare, Weave.bare, hrest.bare_eq hs])]
    exact congrArg (fun t => (List.dropWhile isBlank t).reverse) (hrest.setOperators_eq hs _)

/-! ## Lines -/

theorem isSpace_equals : isSpace '=' = false := by decide

theorem trim_place {c : Char} (hc : isSpace c = false) (a b : Text) :
    trim (a ++ c :: b) = a.dropWhile isSpace ++ c :: dropEnd isSpace b := by
  rw [trim, trimBy, dropWhile_cut hc, dropEnd_cut hc]

/-- What is left in front of a character of blanks behind a text. -/
theorem dropSpaces_blanks {s : Text} (hs : ∀ c ∈ s, isBlank c = true) (a : Text) :
    ∃ s', (∀ c ∈ s', isBlank c = true) ∧
      (a ++ s).dropWhile isSpace = a.dropWhile isSpace ++ s' := by
  rw [List.dropWhile_append]
  split
  · next h =>
    have hnil : s.dropWhile isSpace = [] := by
      rw [← List.append_nil s, List.dropWhile_append_of_pos fun c hc => isSpace_of_isBlank (hs c hc)]
      rfl
    exact ⟨[], by simp, by rw [hnil, List.isEmpty_iff.mp h, List.append_nil]⟩
  · exact ⟨s, hs, rfl⟩

section
variable {s : Text} (hs : ∀ c ∈ s, isBlank c = true) (a b : Text)
include hs

theorem respaced_equals :
    respaced (trim (a ++ (s ++ '=' :: b))) = respaced (trim (a ++ '=' :: b)) := by
  obtain ⟨s', hs', h⟩ := dropSpaces_blanks hs a
  rw [← List.append_assoc, trim_place isSpace_equals, trim_place isSpace_equals, h,
    List.append_assoc, respaced, spaceOperators_equals hs']
  rfl

/-- Spacing takes blanks in front of an equals sign back. -/
theorem spaceLine_equals : spaceLine (a ++ (s ++ '=' :: b)) = spaceLine (a ++ '=' :: b) := by
  obtain ⟨s', hs', h⟩ := dropSpaces_blanks hs a
  have hline : trim (a ++ '=' :: b) = a.dropWhile isSpace ++ '=' :: dropEnd isSpace b :=
    trim_place isSpace_equals a b
  have hpadded : trim (a ++ (s ++ '=' :: b)) =
      a.dropWhile isSpace ++ (s' ++ '=' :: dropEnd isSpace b) := by
    rw [← List.append_assoc, trim_place isSpace_equals, h, List.append_assoc]
  have hne : ∀ x y : Text, x ++ '=' :: y ≠ [] := by simp
  have htoken : '=' ∉ Kind.remark.token := by decide
  -- a comment stands behind the equals sign
  have hplace : ∀ {x y u : Text}, x ++ '=' :: y = u ++ Kind.remark.token →
      ∃ z, u = x ++ '=' :: z ∧ y = z ++ Kind.remark.token := by
    intro x y u hu
    rcases append_eq_place hu.symm with ⟨z, hz, hy⟩ | ⟨z, _, hz⟩
    · exact ⟨z, hz, hy⟩
    · rw [hz] at htoken
      simp at htoken
  by_cases hmark : Kind.remark.token <:+ trim (a ++ '=' :: b)
  · obtain ⟨x, hx⟩ := hmark
    rw [hline] at hx
    obtain ⟨z, rfl, hb⟩ := hplace hx.symm
    have hx' : trim (a ++ (s ++ '=' :: b)) =
        (a.dropWhile isSpace ++ (s' ++ '=' :: z)) ++ Kind.remark.token := by
      rw [hpadded, hb]
      simp
    rw [spaceLine_remark hx' (by simp), spaceLine_remark (hline.trans hx.symm) (hne _ _),
      respaced_equals hs']
  · have hmark' : ¬ Kind.remark.token <:+ trim (a ++ (s ++ '=' :: b)) := by
      rintro ⟨x, hx⟩
      rw [hpadded, ← List.append_assoc] at hx
      obtain ⟨z, _, hb⟩ := hplace hx.symm
      apply hmark
      rw [hline, hb]
      exact ⟨a.dropWhile isSpace ++ '=' :: z, by simp⟩
    rw [spaceLine_code (by rw [hpadded]; simp) hmark',
      spaceLine_code (by rw [hline]; simp) hmark, respaced_equals hs]

end

theorem trim_dropSpaces (t : Text) : trim (t.dropWhile isSpace) = trim t := by
  rw [trim, trimBy, List.dropWhile_idempotent]
  rfl

theorem trim_append_spaces {s : Text} (hs : ∀ c ∈ s, isSpace c = true) (x : Text) :
    trim (x ++ s) = trim x := by
  rw [trim, trimBy, List.dropWhile_append]
  split
  · next h =>
    have hnil : s.dropWhile isSpace = [] := by
      rw [← List.append_nil s, List.dropWhile_append_of_pos hs]
      rfl
    rw [hnil, trim, trimBy, List.isEmpty_iff.mp h]
  · rw [dropEnd_append_all hs]
    rfl

theorem trim_dropEnd (x : Text) : trim (dropEnd isSpace x) = trim x := by
  obtain ⟨s, hx, hs⟩ := dropEnd_append isSpace x
  conv_rhs => rw [hx, trim_append_spaces hs]

theorem trim_comment (x : Text) :
    trim (x ++ Kind.remark.token) = x.dropWhile isSpace ++ Kind.remark.token :=
  trim_place (by decide) x _

/-- Spacing takes white space in front of a comment back. -/
theorem spaceLine_comment {s : Text} (hs : ∀ c ∈ s, isSpace c = true) (x : Text) :
    spaceLine (dropEnd isSpace x ++ (s ++ Kind.remark.token)) =
      spaceLine (x ++ Kind.remark.token) := by
  have hsame : trim ((dropEnd isSpace x ++ s).dropWhile isSpace) = trim (x.dropWhile isSpace) := by
    rw [trim_dropSpaces, trim_dropSpaces, trim_append_spaces hs, trim_dropEnd]
  rw [← List.append_assoc]
  by_cases hx : trim x = []
  · have hnil : ∀ {y : Text}, trim (y.dropWhile isSpace) = [] → y.dropWhile isSpace = [] := by
      intro y hy
      rw [trim_dropSpaces] at hy
      exact List.dropWhile_eq_nil_iff.mpr (trim_eq_nil_iff.mp hy)
    have hline := trim_comment x
    have hline' := trim_comment (dropEnd isSpace x ++ s)
    rw [hnil (by rwa [trim_dropSpaces])] at hline
    rw [hnil (by rwa [hsame, trim_dropSpaces])] at hline'
    rw [spaceLine_bare (.inl hline), spaceLine_bare (.inl hline'), hline, hline']
  · have hne : ∀ {y : Text}, trim y ≠ [] → y ≠ [] := by
      rintro _ h rfl
      exact h rfl
    rw [spaceLine_remark (trim_comment x) (hne (by rwa [trim_dropSpaces])),
      spaceLine_remark (trim_comment _) (hne (by rwa [hsame, trim_dropSpaces])), hsame]

end VbTidy
