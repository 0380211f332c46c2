import VbTidy.Fault

/-
Computations that may fail and that tell what they do on the way. What was told before a failure is
kept.
-/
namespace VbTidy

/-- A part of the program that tells something. -/
inductive Speaker where
  | formatter
  | indenter
deriving Repr, DecidableEq

/-- The passes over a document, by what they do. -/
inductive Pass where
  | fenceScripts
  | liftMarkup
  | liftDelimiters
  | liftStrings
  | liftRemarks
  | liftResume
  | splitDeclarations
  | spaceLines
  | recase
  | indent
  | alignAssignments
  | alignRemarks
  | putBack
  | putBackMarkup
  | unfenceScripts
deriving Repr, DecidableEq

/-- A document between two passes. -/
inductive Draft where
  | text (t : Text)
  | lines (ls : List Text)
deriving Repr, DecidableEq

/-- Something told on the way. -/
inductive Event where
  /-- A note on progress. -/
  | note (speaker : Speaker) (t : Text)
  /-- A pass is over and has left a draft. -/
  | finished (pass : Pass) (draft : Draft)
deriving Repr, DecidableEq

/-- An outcome with the events on the way to it. -/
structure Traced (α : Type) where
  events : List Event
  outcome : Except Fault α

namespace Traced

variable {α β : Type}

/-- An outcome without events. -/
def lift (x : Except Fault α) : Traced α :=
  ⟨[], x⟩

/-- Goes on with a value; a failure ends it. -/
def andThen (x : Traced α) (f : α → Traced β) : Traced β :=
  match x.outcome with
  | .error e => ⟨x.events, .error e⟩
  | .ok a => ⟨x.events ++ (f a).events, (f a).outcome⟩

instance : Monad Traced where
  pure a := ⟨[], .ok a⟩
  bind := andThen

instance : MonadLift (Except Fault) Traced where
  monadLift := lift

/-- Tells one event. -/
def tell (e : Event) : Traced Unit :=
  ⟨[e], .ok ()⟩

/-- Tells a note on progress. -/
def note (t : Text) : Traced Unit :=
  tell (.note .formatter t)

/-- Tells that a pass has left a text. -/
def finished (pass : Pass) (t : Text) : Traced Unit :=
  tell (.finished pass (.text t))

/-- Tells that a pass has left lines. -/
def finishedLines (pass : Pass) (ls : List Text) : Traced Unit :=
  tell (.finished pass (.lines ls))

@[simp] theorem outcome_pure (a : α) : (pure a : Traced α).outcome = .ok a := rfl

@[simp] theorem outcome_lift (x : Except Fault α) : (lift x).outcome = x := rfl

@[simp] theorem outcome_monadLift (x : Except Fault α) :
    (monadLift x : Traced α).outcome = x := rfl

@[simp] theorem outcome_tell (e : Event) : (tell e).outcome = .ok () := rfl

/-- The outcome of two computations in a row is that of their outcomes in a row. -/
@[simp] theorem outcome_bind (x : Traced α) (f : α → Traced β) :
    (x >>= f).outcome = x.outcome >>= fun a => (f a).outcome := by
  change (andThen x f).outcome = _
  unfold andThen
  cases x.outcome <;> rfl

end Traced

end VbTidy
