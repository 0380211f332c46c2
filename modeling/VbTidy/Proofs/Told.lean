import VbTidy.Proofs.Bookkeeping

/-
What a run tells. The events of computations in a row are those of the first and, if it does not
fail, those of the next. The lines that indentation leaves are told exactly if keywords could be
recased, and they are the layout of the recased lines (`told_indented`).
-/
namespace VbTidy

namespace Traced

variable {α β : Type} {e : Event}

theorem mem_events_bind {x : Traced α} {f : α → Traced β} :
    e ∈ (x >>= f).events ↔ e ∈ x.events ∨ ∃ a, x.outcome = .ok a ∧ e ∈ (f a).events := by
  change e ∈ (andThen x f).events ↔ _
  unfold andThen
  cases h : x.outcome with
  | error f => simp
  | ok a => simp

theorem mem_events_tell {e' : Event} {f : Unit → Traced β} :
    e ∈ (tell e' >>= f).events ↔ e = e' ∨ e ∈ (f ()).events := by
  rw [mem_events_bind]
  constructor
  · rintro (h | ⟨_, _, h⟩)
    · exact .inl (List.mem_singleton.mp h)
    · exact .inr h
  · rintro (h | h)
    · exact .inl (List.mem_singleton.mpr h)
    · exact .inr ⟨(), rfl, h⟩

theorem mem_events_monadLift {x : Except Fault α} {f : α → Traced β} :
    e ∈ ((monadLift x : Traced α) >>= f).events ↔ ∃ a, x = .ok a ∧ e ∈ (f a).events := by
  rw [mem_events_bind]
  constructor
  · rintro (h | h)
    · cases h
    · exact h
  · exact .inr

theorem mem_events_ite {c : Prop} [Decidable c] {x y : Traced α} :
    e ∈ (if c then x else y).events ↔ if c then e ∈ x.events else e ∈ y.events := by
  split <;> rfl

theorem mem_events_pure {a : α} : e ∈ (pure a : Traced α).events ↔ False := by
  simp [pure]

end Traced

variable {ls : List Text}

theorem not_told_lift (raw : Text) :
    .finished .indent (.lines ls) ∉ (liftLiterals raw).events := by
  simp only [liftLiterals, Traced.note, Traced.finished, Traced.finishedLines,
    Traced.mem_events_tell, Traced.mem_events_monadLift, Traced.mem_events_pure, reduceCtorEq,
    Event.finished.injEq, Draft.lines.injEq, false_and, and_false, or_false, exists_false,
    not_false_eq_true]

theorem not_told_back (s : Shelves) (newline t : Text) :
    .finished .indent (.lines ls) ∉ (putBackLiterals s newline t).events := by
  simp only [putBackLiterals, Traced.note, Traced.finished, Traced.mem_events_tell,
    Traced.mem_events_monadLift, Traced.mem_events_pure, reduceCtorEq, Event.finished.injEq,
    and_false, or_false, exists_false, not_false_eq_true]

theorem told_work {style : Style} {shelves : Shelves} {lines : List Text} :
    .finished .indent (.lines ls) ∈ (workLines style shelves lines).events ↔
      ∃ recased, recase style.letterCase ((statements style lines).map spaceLine) = .ok recased ∧
        ls = layOut style.unit (nest recased) := by
  -- the notes on the way stand in conditionals whose two branches tell the same lines
  simp only [workLines, Traced.note, Traced.finishedLines, Traced.mem_events_ite,
    Traced.mem_events_tell, Traced.mem_events_monadLift, Traced.mem_events_pure, ite_self,
    reduceCtorEq, Event.finished.injEq, Draft.lines.injEq, false_or, false_and, true_and,
    or_false, exists_false, and_false, statements]

/-- The lines that a run tells after indentation. -/
theorem told_indented {settings : Settings} {style : Style} {raw : Text}
    (hstyle : settings.style = .ok style) :
    .finished .indent (.lines ls) ∈ (formatTraced settings raw).events ↔
      (Lifting.delimiter raw).rest.length % 2 = 0 ∧
        ∃ recased, recase style.letterCase (spacedLines style raw) = .ok recased ∧
          ls = layOut style.unit (nest recased) := by
  rw [formatTraced, Traced.mem_events_monadLift]
  constructor
  · rintro ⟨style', hstyle', h⟩
    obtain rfl : style' = style := Except.ok.inj (hstyle'.symm.trans hstyle)
    rcases Traced.mem_events_bind.mp h with h | ⟨lifted, hlifted, h⟩
    · exact absurd h (not_told_lift raw)
    · rw [liftLiterals_outcome] at hlifted
      split at hlifted
      · next heven =>
        obtain rfl := Except.ok.inj hlifted
        refine ⟨heven, ?_⟩
        rcases Traced.mem_events_bind.mp h with h | ⟨worked, _, h⟩
        · exact told_work.mp h
        · rcases Traced.mem_events_bind.mp h with h | ⟨_, _, h⟩
          · exact absurd h (not_told_back _ _ _)
          · exact absurd h (Traced.mem_events_pure.mp)
      · cases hlifted
  · rintro ⟨heven, h⟩
    refine ⟨style, hstyle, Traced.mem_events_bind.mpr (.inr ⟨Lifting.result raw, ?_, ?_⟩)⟩
    · rw [liftLiterals_outcome, if_pos heven]
    · exact Traced.mem_events_bind.mpr (.inl (told_work.mpr h))

end VbTidy
