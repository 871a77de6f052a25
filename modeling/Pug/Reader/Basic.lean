/-
# Readers

A reader takes tokens from a cursor under some options. Its run ends in one of
three ways, and leaves events behind whichever way it ends:

* `done`: a value was read, and a cursor stands before the rest;
* `failed`: the tokens violate the grammar;
* `exhausted`: the bound on the rounds of a loop or on the depth of nesting was
  too small. No verdict on the tokens is given.

Readers form a monad. In a sequence the second reader starts where the first one
ends and its events come after the first one's; a reader that does not end in
`done` ends the sequence.
-/

import Pug.Options
import Pug.Report.Event
import Pug.Report.Fault
import Pug.Token.Cursor

namespace Pug

/-- How a run ends. -/
inductive Outcome (α : Type) where
  | done (value : α) (rest : Cursor)
  | failed (error : ParseError)
  | exhausted
  deriving DecidableEq

/-- The end of a run and the events on the way. -/
structure Run (α : Type) where
  outcome : Outcome α
  events : List Event
  deriving DecidableEq

namespace Run

/-- The warnings raised in a run, in order. -/
def warnings {α : Type} (r : Run α) : List Warning := r.events.filterMap Event.warning?

/-- The log of a run. -/
def log {α : Type} (r : Run α) : List Record := r.events.filterMap Event.record?

/-- The run `r` with events before its own. -/
def after {α : Type} (events : List Event) (r : Run α) : Run α :=
  ⟨r.outcome, events ++ r.events⟩

/-- A run that goes on with the value and the rest of `r`, if `r` is done. -/
def andThen {α β : Type} (r : Run α) (next : α → Cursor → Run β) : Run β :=
  match r with
  | ⟨.done value rest, events⟩ => (next value rest).after events
  | ⟨.failed error, events⟩ => ⟨.failed error, events⟩
  | ⟨.exhausted, events⟩ => ⟨.exhausted, events⟩

variable {α β : Type}

@[simp] theorem after_nil (r : Run α) : r.after [] = r := rfl

@[simp] theorem after_after (events more : List Event) (r : Run α) :
    (r.after more).after events = r.after (events ++ more) := by
  simp [after]

@[simp] theorem andThen_done (a : α) (c : Cursor) (events : List Event)
    (next : α → Cursor → Run β) :
    andThen ⟨.done a c, events⟩ next = (next a c).after events := rfl

@[simp] theorem andThen_failed (e : ParseError) (events : List Event)
    (next : α → Cursor → Run β) : andThen ⟨.failed e, events⟩ next = ⟨.failed e, events⟩ := rfl

@[simp] theorem andThen_exhausted (events : List Event) (next : α → Cursor → Run β) :
    andThen ⟨.exhausted, events⟩ next = ⟨.exhausted, events⟩ := rfl

@[simp] theorem andThen_after (events : List Event) (r : Run α) (next : α → Cursor → Run β) :
    (r.after events).andThen next = (r.andThen next).after events := by
  obtain ⟨_ | _ | _, _⟩ := r <;> simp [after]

/-- **Going on with a run's own value is that run.** -/
@[simp] theorem andThen_done_self (r : Run α) :
    (r.andThen fun a c => ⟨.done a c, []⟩) = r := by
  obtain ⟨_ | _ | _, _⟩ := r <;> simp [after]

/-- A run that puts its value under `some` gives no `none`. -/
theorem andThen_some_ne_none (r : Run α) (f : α → β) (rest : Cursor) (events : List Event) :
    (r.andThen fun a c => ⟨.done (some (f a)) c, []⟩) ≠ ⟨.done none rest, events⟩ := by
  obtain ⟨_ | _ | _, _⟩ := r <;> simp [after]

/-- **Going on is associative.** -/
theorem andThen_andThen {γ : Type} (r : Run α) (f : α → Cursor → Run β)
    (g : β → Cursor → Run γ) :
    (r.andThen f).andThen g = r.andThen fun a c => (f a c).andThen g := by
  obtain ⟨_ | _ | _, _⟩ := r <;> simp

end Run

/-- A reader of tokens. -/
@[ext] structure Reader (α : Type) where
  run : Options → Cursor → Run α

namespace Reader

instance : Monad Reader where
  pure a := ⟨fun _ c => ⟨.done a c, []⟩⟩
  bind r next := ⟨fun o c => (r.run o c).andThen fun a rest => (next a).run o rest⟩

@[simp] theorem run_pure {α : Type} (a : α) (o : Options) (c : Cursor) :
    (pure a : Reader α).run o c = ⟨.done a c, []⟩ := rfl

@[simp] theorem run_bind {α β : Type} (r : Reader α) (next : α → Reader β) (o : Options)
    (c : Cursor) :
    (r >>= next).run o c = (r.run o c).andThen fun a rest => (next a).run o rest := rfl

@[simp] theorem run_map {α β : Type} (f : α → β) (r : Reader α) (o : Options) (c : Cursor) :
    (f <$> r).run o c = (r.run o c).andThen fun a rest => ⟨.done (f a) rest, []⟩ := rfl

instance : LawfulMonad Reader := LawfulMonad.mk' Reader
  (fun r => Reader.ext (funext fun o => funext fun c => Run.andThen_done_self (r.run o c)))
  (fun _ _ => rfl)
  (fun r f g => Reader.ext (funext fun o => funext fun c => Run.andThen_andThen (r.run o c) _ _))

end Reader
end Pug
