import VbTidy.Proofs.Filled

/-
Runs of host markup. A fence stands right behind the end of a tag or right before the start of one,
so no boundary token meets a letter (`bordered_fenceScripts`). A run of markup starts where the
document starts or with a closing delimiter, and ends where it ends or with an opening one; hence
each run starts hard and ends hard, like the other literals.
-/
namespace VbTidy

/-! ## Fences -/

/-- Each boundary token in a text behind `before` has the end of a tag or of a delimiter before it,
and the start of one behind it. -/
def Bordered (before : Option Char) (t : Text) : Prop :=
  ∀ x y, Occurs .fence x y t → (x.getLast?).or before = some '>' ∧ y.head? = some '<'

namespace Bordered
variable {before : Option Char} {t : Text}

theorem nil : Bordered before [] := by
  intro x y h
  simpa [Mark.token, tokenOf] using h.eq

theorem char {c : Char} (hc : c ≠ '\x00') (h : Bordered (some c) t) : Bordered before (c :: t) := by
  intro x y hocc
  obtain ⟨x', hocc', rfl⟩ := Occurs.of_nul_free_append (a := [c]) (by simpa using hc.symm) hocc
  obtain ⟨hlast, hhead⟩ := h x' y hocc'
  refine ⟨?_, hhead⟩
  rw [← hlast, List.singleton_append, List.getLast?_cons]
  cases x'.getLast? <;> rfl

theorem token (hbefore : before = some '>') (hhead : t.head? = some '<')
    (h : Bordered (some '\x00') t) : Bordered before (Mark.fence.token ++ t) := by
  intro x y hocc
  rcases hocc.of_token with ⟨_, rfl, rfl⟩ | ⟨x', hocc', rfl⟩
  · exact ⟨by simpa using hbefore, hhead⟩
  · obtain ⟨hlast, hhead⟩ := h x' y hocc'
    refine ⟨?_, hhead⟩
    rw [List.getLast?_append, ← hlast]
    cases hx : x'.getLast? with
    | none =>
      rw [hx] at hlast
      cases hlast
    | some c => rfl

end Bordered

theorem suffix_dropWord? {w t rest : Text} (h : dropWord? w t = some rest) : rest <:+ t := by
  obtain ⟨s, rfl, _⟩ := dropWord?_iff.mp h
  exact List.suffix_append s rest

/-- A tag that opens a block ends with its bracket. -/
theorem dropOpenTag?_eq_some {c : Char} {t rest : Text} (h : dropOpenTag? (c :: t) = some rest) :
    ∃ u, t = u ++ '>' :: rest := by
  unfold dropOpenTag? at h
  split at h
  · rename_i t' heq
    obtain ⟨rfl, rfl⟩ := List.cons.inj heq
    split at h
    · cases h
    · rename_i after hword
      split at h
      · cases h
      · split at h
        · cases h
        · rename_i d behind hbracket
          split at h
          · cases h
            have hd : d = '>' := by
              have := List.head?_dropWhile_not (· != '>') after
              rw [hbracket] at this
              simpa using this
            have hsuffix : '>' :: rest <:+ t := by
              rw [← hd, ← hbracket]
              exact (List.dropWhile_suffix _).trans
                ((suffix_dropWord? hword).trans (List.dropWhile_suffix _))
            obtain ⟨u, hu⟩ := hsuffix
            exact ⟨u, hu.symm⟩
          · cases h
  · cases h

theorem dropCloseTag?_eq_some {c : Char} {t rest : Text} (h : dropCloseTag? (c :: t) = some rest) :
    c = '<' := by
  unfold dropCloseTag? at h
  split at h
  · rename_i t' heq
    exact (List.cons.inj heq).1
  · cases h

/-- No fence is next to anything but a tag. `hdue` says where the opening tag ends that a fence is
due for. -/
theorem bordered_fenceFrom {inBlock quoted due : Bool} {skip : Nat} {t : Text} (ht : '\x00' ∉ t)
    (hdue : due = true → ∀ n, skip = n + 1 → t[n]? = some '>') (before : Option Char) :
    Bordered before ((fenceFrom inBlock quoted due skip t).flatMap Fenced.written) := by
  induction t generalizing inBlock quoted due skip before with
  | nil =>
    rw [fenceFrom]
    exact .nil
  | cons c t ih =>
    rw [List.mem_cons, not_or] at ht
    have hc : c ≠ '\x00' := fun h => ht.1 h.symm
    have hfree : ∀ {inBlock quoted : Bool} {skip : Nat} {before : Option Char},
        Bordered before ((fenceFrom inBlock quoted false skip t).flatMap Fenced.written) :=
      ih ht.2 (by simp) _
    cases skip with
    | succ skip =>
      rw [fenceFrom, List.flatMap_cons]
      refine .char hc ?_
      rw [List.flatMap_append]
      split
      · next h =>
        -- The last character of an opening tag: here the fence stands.
        simp only [Bool.and_eq_true, beq_iff_eq] at h
        obtain ⟨hd, rfl⟩ := h
        obtain rfl : c = '>' := by simpa using hdue hd 0 rfl
        show Bordered (some '>') (Mark.fence.token ++ ('<' :: '%' :: _))
        exact .token rfl rfl (.char (by decide) (.char (by decide) (ih ht.2 (by simp) _)))
      · rw [List.flatMap_nil, List.nil_append]
        refine ih ht.2 (fun hd n hn => ?_) _
        have := hdue hd (n + 1) (by omega)
        simpa using this
    | zero =>
      rw [fenceFrom]
      split
      · exact .char hc hfree
      · rename_i rest hrest
        simp only
        split
        · exact .char hc hfree
        · split
          · -- A fence before a closing tag.
            rename_i hblock
            rw [if_pos hblock] at hrest
            obtain rfl := dropCloseTag?_eq_some hrest
            show Bordered before ('%' :: '>' :: (Mark.fence.token ++ ('<' :: _)))
            exact .char (by decide) (.char (by decide) (.token rfl rfl (.char (by decide) hfree)))
          · rename_i hblock
            rw [if_neg hblock] at hrest
            obtain ⟨u, rfl⟩ := dropOpenTag?_eq_some hrest
            refine .char hc (ih ht.2 (fun _ n hn => ?_) _)
            have hlen : n = u.length := by
              rw [List.length_append, List.length_cons] at hn
              omega
            simp [hlen]

theorem bordered_fenceScripts {raw : Text} (hnul : '\x00' ∉ raw) :
    Bordered none (fenceScripts raw) :=
  bordered_fenceFrom hnul (by simp) none

/-! ## Runs of markup -/

/-- A run of markup in a document. -/
structure HostIn (t h u v : Text) : Prop where
  eq : t = u ++ (h ++ v)
  start : u = [] ∨ ['%', '>'] <+: h
  stop : v = [] ∨ ['<', '%'] <:+ h
  delimited : '%' ∈ h

theorem HostIn.behind {t h u v : Text} (s : Text) (hin : HostIn t h u v)
    (hstart : ['%', '>'] <+: h) : HostIn (s ++ t) h (s ++ u) v where
  eq := by rw [hin.eq, List.append_assoc]
  start := .inr hstart
  stop := hin.stop
  delimited := hin.delimited

theorem hosts_code_host (t : Text) :
    (∀ h ∈ (cutCode t).hits, ['%', '>'] <+: h ∧ ∃ u v, HostIn t h u v) ∧
    (∀ h ∈ (cutHost t).2.hits, ['%', '>'] <+: h ∧ ∃ u v, HostIn t h u v) ∧
    ((cutHost t).1 = t ∨ ['<', '%'] <:+ (cutHost t).1) := by
  induction hlen : t.length using Nat.strongRecOn generalizing t with
  | ind len ih =>
    cases t with
    | nil => exact ⟨by simp [cutCode, Weave.hits], by simp [cutHost, Weave.hits], .inl rfl⟩
    | cons c t =>
      have step := ih t.length (by simp at hlen; omega) t rfl
      have behind : ∀ {t h : Text} (s : Text), (['%', '>'] <+: h ∧ ∃ u v, HostIn t h u v) →
          ['%', '>'] <+: h ∧ ∃ u v, HostIn (s ++ t) h u v := by
        rintro t h s ⟨hstart, u, v, hin⟩
        exact ⟨hstart, s ++ u, v, hin.behind s hstart⟩
      refine ⟨?_, ?_⟩
      · by_cases hp : ∃ u, c :: t = '%' :: '>' :: u
        · obtain ⟨u, hu⟩ := hp
          obtain ⟨rfl, rfl⟩ := List.cons.inj hu
          have hsource := (source_code_host u).2
          obtain ⟨_, hhits, hend⟩ := ih u.length (by simp at hlen; omega) u rfl
          rw [cutCode, Weave.hits_pushHit]
          intro h hh
          rcases List.mem_cons.mp hh with rfl | hh
          · refine ⟨⟨(cutHost u).1, rfl⟩, [], (cutHost u).2.source, ?_, .inl rfl, ?_, by simp⟩
            · simp [hsource]
            · refine hend.imp (fun hall => ?_) fun hsuffix => ?_
              · rw [hall] at hsource
                simpa using hsource
              · exact hsuffix.trans (List.suffix_append ['%', '>'] _)
          · exact behind ['%', '>'] (hhits h hh)
        · have : cutCode (c :: t) = (cutCode t).push c := by
            rw [cutCode]
            rintro u rfl rfl
            exact hp ⟨u, rfl⟩
          rw [this, Weave.hits_push]
          exact fun h hh => behind [c] (step.1 h hh)
      · by_cases hp : ∃ u, c :: t = '<' :: '%' :: u
        · obtain ⟨u, hu⟩ := hp
          obtain ⟨rfl, rfl⟩ := List.cons.inj hu
          have hu := ih u.length (by simp at hlen; omega) u rfl
          rw [cutHost]
          exact ⟨fun h hh => behind ['<', '%'] (hu.1 h hh), .inr (List.suffix_refl _)⟩
        · have : cutHost (c :: t) = (c :: (cutHost t).1, (cutHost t).2) := by
            rw [cutHost]
            rintro u rfl rfl
            exact hp ⟨u, rfl⟩
          rw [this]
          refine ⟨fun h hh => behind [c] (step.2.1 h hh), ?_⟩
          exact step.2.2.imp (fun h => by rw [h]) fun h => h.trans (List.suffix_cons c _)

theorem mem_of_startsInMarkup {t : Text} (h : startsInMarkup t = true) : '%' ∈ t := by
  fun_induction startsInMarkup t with
  | case1 => cases h
  | case2 => simp
  | case3 => simp
  | case4 c t _ _ ih => exact List.mem_cons_of_mem _ (ih h)

theorem host_in_markup {t h : Text} (hh : h ∈ (cutMarkup t).hits) : ∃ u v, HostIn t h u v := by
  obtain ⟨hcode, hhost, hend⟩ := hosts_code_host t
  rw [cutMarkup] at hh
  split at hh
  · rename_i hstarts
    rcases List.mem_cons.mp hh with rfl | hh
    · have hsource := (source_code_host t).2
      refine ⟨[], (cutHost t).2.source, by rw [List.nil_append, hsource], .inl rfl, ?_, ?_⟩
      · refine hend.imp_left fun hall => ?_
        rw [hall] at hsource
        simpa using hsource
      · rcases hend with hall | hsuffix
        · rw [hall]
          exact mem_of_startsInMarkup hstarts
        · exact hsuffix.subset (by simp)
    · exact (hhost h hh).2
  · exact (hcode h hh).2

/-- The first and the last token in a text that has one. -/
theorem Sound.occurs_ends {n : Nat} {t : Text} (h : Sound n t) (hnul : '\x00' ∈ t) :
    (∃ m y, Occurs m (firstPart t) y t ∧ n ≤ m.turn) ∧
      ∃ m x, Occurs m x (lastPart t) t ∧ n ≤ m.turn := by
  induction h with
  | nil => cases hnul
  | @char c t hc ht ih =>
    obtain ⟨⟨m, y, hfirst, hm⟩, m', x, hlast, hm'⟩ :=
      ih (by simpa [hc.symm] using hnul)
    have hfree : '\x00' ∉ [c] := by simpa using hc.symm
    refine ⟨⟨m, y, ?_, hm⟩, m', c :: x, ?_, hm'⟩
    · have hpart : firstPart (c :: t) = [c] ++ firstPart t := firstPart_append hfree t
      rw [hpart]
      exact hfirst.append_left (.of_nul_free hfree)
    · have hpart : lastPart (c :: t) = lastPart t := by
        obtain ⟨p, u, rfl, hp⟩ := List.eq_append_cons_of_mem (by simpa [hc.symm] using hnul :
          '\x00' ∈ t)
        rw [← List.cons_append, lastPart_nul, lastPart_nul]
      rw [hpart]
      exact hlast.append_left (a := [c]) (.of_nul_free hfree)
  | @token m t hm ht ih =>
    have hfirst : firstPart (m.token ++ t) = [] := by
      rw [m.token_append]
      exact firstPart_nul (p := []) (by simp) _
    refine ⟨⟨m, t, ?_, hm⟩, ?_⟩
    · rw [hfirst]
      exact ⟨rfl, .nil⟩
    · have hlast : lastPart (m.token ++ t) = lastPart t := by
        rw [m.token_append, ← List.nil_append ('\x00' :: _), lastPart_nul, lastPart_nul]
      rw [hlast]
      by_cases hfree : '\x00' ∈ t
      · obtain ⟨_, m', x, hocc, hm'⟩ := ih hfree
        exact ⟨m', m.token ++ x, hocc.append_left (.mark (Nat.zero_le _)), hm'⟩
      · rw [lastPart_free hfree]
        exact ⟨m, [], ⟨rfl, .nil⟩, hm⟩

theorem Mark.eq_fence {m : Mark} (h : 5 ≤ m.turn) : m = .fence := by
  cases m with
  | fence => rfl
  | kind k => cases k <;> exact absurd h (by decide)

/-- Runs of markup start hard and end hard. -/
theorem hard_markup {raw h : Text} (hnul : '\x00' ∉ raw)
    (hh : h ∈ (Lifting.result raw).shelves.get .markup) :
    Hard (firstPart h) ∧ Hard (lastPart h) := by
  rw [shelves_eq, if_neg (by decide)] at hh
  have hsound : Sound 5 h := (soundCut_lift hnul .markup).hits h hh
  obtain ⟨u, v, heq, hstart, hstop, hmem⟩ := host_in_markup hh
  by_cases hfree : '\x00' ∈ h
  case neg =>
    rw [firstPart_free hfree, lastPart_free hfree]
    exact ⟨hard_of_mem hmem (by decide), hard_of_mem hmem (by decide)⟩
  case pos =>
    have hbordered := bordered_fenceScripts hnul
    have hu : Sound 0 u := by
      rcases hstart with rfl | ⟨h', rfl⟩
      · exact .nil
      · have hall := sound_fenceScripts hnul
        rw [heq] at hall
        exact (Sound.split (Sound.clean_cons (by decide) (by decide)) hall).1.mono (by omega)
    have hborder : ∀ x y, Occurs .fence x y h → '>' ∈ x ∧ '<' ∈ y := by
      intro x y hocc
      have hin : Occurs .fence (u ++ x) (y ++ v) (fenceScripts raw) := by
        rw [heq]
        exact (hocc.append_right v).append_left hu
      obtain ⟨hlast, hhead⟩ := hbordered _ _ hin
      rw [Option.or_none] at hlast
      have hxne : x ≠ [] := by
        rintro rfl
        rcases hstart with rfl | ⟨h', rfl⟩
        · simp at hlast
        · exact absurd hocc.eq (by simp [Mark.token, tokenOf])
      have hyne : y ≠ [] := by
        rintro rfl
        rcases hstop with rfl | ⟨h', rfl⟩
        · simp at hhead
        · have hend : h' ++ ['<', '%'] = (x ++ '\x00' :: Mark.fence.name) ++ ['\x00'] := by
            simpa [Mark.token, tokenOf] using hocc.eq
          have hlast := congrArg List.getLast? hend
          rw [List.getLast?_concat] at hlast
          simp at hlast
      refine ⟨List.mem_of_getLast? ?_, List.mem_of_head? ?_⟩
      · rwa [List.getLast?_append_of_ne_nil _ hxne] at hlast
      · rwa [List.head?_append_of_ne_nil _ hyne] at hhead
    obtain ⟨⟨m, y, hfirst, hm⟩, m', x, hlast, hm'⟩ := hsound.occurs_ends hfree
    obtain rfl := Mark.eq_fence hm
    obtain rfl := Mark.eq_fence hm'
    exact ⟨hard_of_mem (hborder _ _ hfirst).1 (by decide),
      hard_of_mem (hborder _ _ hlast).2 (by decide)⟩

end VbTidy
