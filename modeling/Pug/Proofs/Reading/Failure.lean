/-
# What a reader fails in front of

`Fails o m ts e events`: in front of `ts`, `m` fails with `e` and leaves `events` behind. As with
`Takes` there is one rule for each way to make a reader: a sequence fails where its first
reader does, or where the second one does behind what the first one takes.
-/

import Pug.Proofs.Reading.Basic

namespace Pug

namespace Reader

variable {α β : Type} {o : Options} {t : Token} {ts us : List Token} {a : α} {e : ParseError}
  {events more : List Event}

/-- In front of `ts`, `m` fails with `e`, and leaves `events` behind. -/
def Fails (o : Options) (m : Reader α) (ts : List Token) (e : ParseError)
    (events : List Event) : Prop :=
  ∀ finish, m.run o (.before finish ts) = ⟨.failed e, events⟩

namespace Fails

/-- **A sequence fails as its first reader does.** -/
theorem bind {m : Reader α} {k : α → Reader β} (h : m.Fails o ts e events) :
    (m >>= k).Fails o ts e events := by
  intro finish
  rw [run_bind, h finish, Run.andThen_failed]

/-- **A sequence fails as its second reader does** behind what the first one takes. -/
theorem behind {m : Reader α} {k : α → Reader β} (hm : m.Takes o us ts a more)
    (hk : (k a).Fails o ts e events) : (m >>= k).Fails o (us ++ ts) e (more ++ events) := by
  intro finish
  rw [run_bind, hm finish, Run.andThen_done, hk finish]
  rfl

theorem peek_bind {k : Token → Reader β} (hk : (k t).Fails o (t :: ts) e events) :
    (peek >>= k).Fails o (t :: ts) e events := fun finish => hk finish

theorem locate_bind {pos : Position} {k : Location → Reader β}
    (hk : (k (o.place pos)).Fails o ts e events) : (locate pos >>= k).Fails o ts e events :=
  fun finish => hk finish

theorem skip_bind {k : Unit → Reader β} (hk : (k ()).Fails o ts e events) :
    (skip >>= k).Fails o (t :: ts) e events := fun finish => hk finish

theorem options_bind {k : Options → Reader β} (hk : (k o).Fails o ts e events) :
    (options >>= k).Fails o ts e events := fun finish => hk finish

theorem emit_bind {event : Event} {k : Unit → Reader β} (hk : (k ()).Fails o ts e events) :
    (emit event >>= k).Fails o ts e (event :: events) := by
  intro finish
  rw [run_bind, run_emit, Run.andThen_done, hk finish]
  rfl

theorem emitIf_bind {condition : Bool} {event : Event} {k : Unit → Reader β}
    (hk : (k ()).Fails o ts e events) :
    (emitIf condition event >>= k).Fails o ts e
      ((if condition then [event] else []) ++ events) := by
  intro finish
  rw [run_bind, run_emitIf, Run.andThen_done, hk finish]
  rfl

end Fails
end Reader
end Pug
