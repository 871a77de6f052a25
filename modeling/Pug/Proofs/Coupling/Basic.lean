/-
# Two readings side by side

Two readings are compared step by step: one of some tokens, the other of tokens that differ from
these in a known way. How they differ is a `Coupling`. It says how the tokens ahead of the second
reading follow from those ahead of the first one, and where the second reading finds each
token. It has to account for each single token that is gone past (`Coupling.Sound`):

* most tokens are gone past by both readings;
* at a line break outside of every verbatim region the first reading may have one more to go past
  than the second one;
* at an include or the name of an element the readings may go apart, if they come together again
  behind the production, or if the second one is refused in it.

`k.Agrees Q run run'`: both runs are done, and `Q` holds of the value and the cursors; or both fail
with one error. The second value is the first one moved, and so are the error and the warnings.
Nothing is said of runs that are exhausted. The second run may also be refused with an error for
which the coupling allows.
-/

import Pug.Proofs.Coupling.Cursor
import Pug.Proofs.Tree.Relocation

namespace Pug

/-- Whether readings may go apart at a token of this terminal. -/
def Terminal.parting : Terminal → Bool
  | .include => true
  | .tag => true
  | .interpolation => true
  | .call => true
  | _ => false

/-- Whether both readings go past a token of this terminal wherever they do. -/
def Terminal.ordinary : Terminal → Bool
  | .newline => false
  | .startPipelessText => false
  | .endPipelessText => false
  | .eos => false
  | terminal => !terminal.parting

theorem Terminal.parting_of_ordinary {terminal : Terminal} (h : terminal.ordinary = true) :
    terminal.parting = false := by
  cases terminal <;> first | rfl | cases h

theorem Token.lexeme_ne_of_parting {t : Token} {l : Lexeme} (ht : t.terminal.parting = true)
    (hl : l.terminal.parting = false) : t.lexeme ≠ l := by
  rintro rfl
  exact Bool.false_ne_true (hl.symm.trans ht)

/-- How a second reading differs from a first one. -/
structure Coupling where
  /-- Where the second reading finds what the first one finds. -/
  places : Relocation
  /-- Whether the second reading raises the warnings of the first one. -/
  heeds : Prop
  /-- The errors with which the second reading may be refused where the first one is not. -/
  refuses : ParseError → Prop
  /-- The tokens ahead of both readings, in a production with so many verbatim regions around
  it. -/
  tokens : Nat → List Token → List Token → Prop

namespace Coupling

open Reader

variable {α β σ : Type} [Movable α] [Movable β] [Movable σ]

/-- Two cursors stand at corresponding places of the readings. -/
def Meets (k : Coupling) (depth : Nat) (c c' : Cursor) : Prop :=
  k.tokens depth c.ahead c'.ahead ∧ c'.stop = k.places.move c.stop

/-- Besides, the current token of the first reading is `t`. -/
def At (k : Coupling) (depth : Nat) (t : Token) (c c' : Cursor) : Prop :=
  k.Meets depth c c' ∧ c.peek = t

/-- Besides, the current token of the first reading is of a terminal. -/
def Stops (k : Coupling) (depth : Nat) (terminal : Terminal) (c c' : Cursor) : Prop :=
  k.Meets depth c c' ∧ c.peek.terminal = terminal

/-- Besides, the cursors behind the current tokens meet too. -/
def Goes (k : Coupling) (depth : Nat) (t : Token) (c c' : Cursor) : Prop :=
  k.At depth t c c' ∧ k.Meets depth c.advance c'.advance

/-- Besides, `t` is the first token of the first reading that is no line break. -/
def Past (k : Coupling) (depth : Nat) (t : Token) (c c' : Cursor) : Prop :=
  k.Meets depth c c' ∧ c.peekPastNewlines = t

/-- The second reading raises the warnings of the first one, if this is asked of it. -/
def Heard (k : Coupling) (events events' : List Event) : Prop :=
  k.heeds → events'.filterMap Event.warning? = k.places.move (events.filterMap Event.warning?)

/-- Both runs are done at cursors of which `Q` holds, or fail. -/
inductive Agrees (k : Coupling) (Q : α → Cursor → Cursor → Prop) : Run α → Run α → Prop where
  | done {a : α} {c c' : Cursor} {events events' : List Event} (hc : Q a c c')
      (hevents : k.Heard events events') :
      Agrees k Q ⟨.done a c, events⟩ ⟨.done (k.places.move a) c', events'⟩
  | failed {e : ParseError} {events events' : List Event} (hevents : k.Heard events events') :
      Agrees k Q ⟨.failed e, events⟩ ⟨.failed (k.places.move e), events'⟩
  | exhausted {events : List Event} {run' : Run α} : Agrees k Q ⟨.exhausted, events⟩ run'
  | exhausted' {run : Run α} {events' : List Event} : Agrees k Q run ⟨.exhausted, events'⟩
  | refused {run : Run α} {e : ParseError} {events' : List Event} (he : k.refuses e) :
      Agrees k Q run ⟨.failed e, events'⟩

/-- The coupling accounts for each token that a reading goes past. -/
structure Sound (k : Coupling) (o : Options) : Prop where
  nil : ∀ {depth ts'}, k.tokens depth [] ts' → ts' = []
  cons : ∀ {depth t us ts'}, k.tokens depth (t :: us) ts' → ∃ us', ts' = k.places.move t :: us'
  step : ∀ {depth t us t' us'}, k.tokens depth (t :: us) (t' :: us') →
    t.terminal.ordinary = true → k.tokens depth us us'
  newline : ∀ {depth t us t' us'}, k.tokens depth (t :: us) (t' :: us') → t.lexeme = .newline →
    k.tokens depth us us' ∨ depth = 0 ∧ k.tokens depth us (t' :: us')
  enter : ∀ {depth t us t' us'}, k.tokens depth (t :: us) (t' :: us') →
    t.lexeme = .startPipelessText → k.tokens (depth + 1) us us'
  leave : ∀ {depth t us t' us'}, k.tokens (depth + 1) (t :: us) (t' :: us') →
    t.lexeme = .endPipelessText → k.tokens depth us us'
  part : ∀ {depth t us t' us'}, k.tokens depth (t :: us) (t' :: us') →
    t.terminal.parting = true → k.tokens depth us us' ∨
      ∀ n n' scope c c', c.ahead = t :: us → c'.ahead = t' :: us' →
        c'.stop = k.places.move c.stop →
        k.Agrees (fun _ => k.Meets depth) ((Grammar.expr (.ofDepth n) scope).run o c)
          ((Grammar.expr (.ofDepth n') scope).run (k.places.options o) c')

variable {k : Coupling} {o : Options} {depth : Nat} {c c' : Cursor} {t : Token}

theorem heard_nil : k.Heard [] [] := fun _ => rfl

/-- Of events that are no warnings nothing is asked. -/
theorem heard_silent {events events' : List Event} (h : events.filterMap Event.warning? = [])
    (h' : events'.filterMap Event.warning? = []) : k.Heard events events' := by
  intro _
  rw [h, h']
  rfl

theorem Heard.append {events events' more more' : List Event} (h : k.Heard events events')
    (hmore : k.Heard more more') : k.Heard (events ++ more) (events' ++ more') := by
  intro hheeds
  rw [List.filterMap_append, List.filterMap_append, h hheeds, hmore hheeds, move_append]

/-- A token that is put back is ahead as before. -/
theorem meets_putBack (h : k.Meets depth c c') : k.Meets depth c.putBack c'.putBack := by
  unfold Meets
  rw [Cursor.ahead_putBack, Cursor.ahead_putBack, Cursor.stop_putBack, Cursor.stop_putBack]
  exact h

/-- Where what is behind the current tokens corresponds, the cursors behind them meet. -/
theorem meets_behind {t' : Token} {us us' : List Token} (hahead : c.ahead = t :: us)
    (hahead' : c'.ahead = t' :: us') (hstop : c'.stop = k.places.move c.stop)
    (htokens : k.tokens depth us us') : k.Meets depth c.advance c'.advance := by
  refine ⟨?_, ?_⟩
  · rwa [Cursor.ahead_advance hahead, Cursor.ahead_advance hahead']
  · rwa [Cursor.stop_advance hahead, Cursor.stop_advance hahead']

namespace Agrees

variable {Q Q' : α → Cursor → Cursor → Prop} {run run' : Run α}

theorem mono (h : k.Agrees Q run run') (hQ : ∀ a c c', Q a c c' → Q' a c c') :
    k.Agrees Q' run run' := by
  cases h with
  | done hc hevents => exact .done (hQ _ _ _ hc) hevents
  | failed hevents => exact .failed hevents
  | exhausted => exact .exhausted
  | exhausted' => exact .exhausted'
  | refused he => exact .refused he

theorem after {events events' : List Event} (h : k.Agrees Q run run')
    (hevents : k.Heard events events') : k.Agrees Q (run.after events) (run'.after events') := by
  cases h with
  | done hc hmore => exact .done hc (hevents.append hmore)
  | failed hmore => exact .failed (hevents.append hmore)
  | exhausted => exact .exhausted
  | exhausted' => exact .exhausted'
  | refused he => exact .refused he

/-- **What goes on behind runs that agree agrees,** if it does from where they end. -/
theorem andThen {R : β → Cursor → Cursor → Prop} {next next' : α → Cursor → Run β}
    (h : k.Agrees Q run run')
    (hnext : ∀ a c c', Q a c c' → k.Agrees R (next a c) (next' (k.places.move a) c')) :
    k.Agrees R (run.andThen next) (run'.andThen next') := by
  cases h with
  | done hc hevents => exact (hnext _ _ _ hc).after hevents
  | failed hevents => exact .failed hevents
  | exhausted => exact .exhausted
  | exhausted' => exact .exhausted'
  | refused he => exact .refused he

end Agrees

namespace Sound

variable (hk : k.Sound o)
include hk

/-- **The current tokens correspond.** -/
theorem peek_eq (h : k.Meets depth c c') : c'.peek = k.places.move c.peek := by
  rcases h with ⟨htokens, hstop⟩
  cases hahead : c.ahead with
  | nil =>
    rw [hahead] at htokens
    rw [Cursor.peek_of_ahead_nil hahead, Cursor.peek_of_ahead_nil (hk.nil htokens), hstop]
  | cons t us =>
    rw [hahead] at htokens
    obtain ⟨us', hahead'⟩ := hk.cons htokens
    rw [Cursor.peek_of_ahead hahead, Cursor.peek_of_ahead hahead']

/-- Where the current token is not the end of the stream, it is ahead of both cursors. -/
theorem exists_ahead (h : k.At depth t c c') (ht : t.lexeme ≠ .eos) :
    ∃ us us', c.ahead = t :: us ∧ c'.ahead = k.places.move t :: us' ∧
      k.tokens depth (t :: us) (k.places.move t :: us') := by
  rcases h with ⟨⟨htokens, hstop⟩, rfl⟩
  obtain ⟨us, hahead⟩ := Cursor.exists_ahead ht
  rw [hahead] at htokens
  obtain ⟨us', hahead'⟩ := hk.cons htokens
  rw [hahead'] at htokens
  exact ⟨us, us', hahead, hahead', htokens⟩

/-- Cursors meet behind the current tokens if what is ahead of them there corresponds. -/
theorem meets_advance {depth' : Nat} (h : k.At depth t c c') (ht : t.lexeme ≠ .eos)
    (hstep : ∀ us us', k.tokens depth (t :: us) (k.places.move t :: us') →
      k.tokens depth' us us') :
    k.Meets depth' c.advance c'.advance := by
  obtain ⟨us, us', hahead, hahead', htokens⟩ := hk.exists_ahead h ht
  exact meets_behind hahead hahead' h.1.2 (hstep us us' htokens)

/-- **At a line break both readings go past it, or the first one alone does.** -/
theorem meets_newline (h : k.At depth t c c') (ht : t.lexeme = .newline) :
    k.Meets depth c.advance c'.advance ∨ depth = 0 ∧ k.Meets depth c.advance c' := by
  have hne : t.lexeme ≠ .eos := by
    rw [ht]
    exact nofun
  obtain ⟨us, us', hahead, hahead', htokens⟩ := hk.exists_ahead h hne
  rcases hk.newline htokens ht with hboth | ⟨hdepth, hone⟩
  · exact .inl (meets_behind hahead hahead' h.1.2 hboth)
  · refine .inr ⟨hdepth, ?_, ?_⟩
    · rwa [Cursor.ahead_advance hahead, hahead']
    · rw [Cursor.stop_advance hahead, h.1.2]

/-- A token that the first reading alone goes past has one with the same lexeme behind it. -/
theorem lexeme_peek_advance (h : k.At depth t c c') (hone : k.Meets depth c.advance c') :
    c.advance.peek.lexeme = t.lexeme := by
  have hmoved : k.places.move c.advance.peek = k.places.move t := by
    rw [← hk.peek_eq hone, hk.peek_eq h.1, h.2]
  have hlexeme : (k.places.move c.advance.peek).lexeme = (k.places.move t).lexeme := by rw [hmoved]
  exact hlexeme

theorem tokens_dropWhile {ts ts' : List Token} (h : k.tokens depth ts ts') :
    k.tokens depth (ts.dropWhile Token.isNewline) (ts'.dropWhile Token.isNewline) := by
  induction ts generalizing ts' with
  | nil =>
    obtain rfl := hk.nil h
    exact h
  | cons t us ih =>
    obtain ⟨us', rfl⟩ := hk.cons h
    by_cases ht : t.isNewline = true
    · have hnewline : t.lexeme = .newline := Lexeme.eq_of_terminal (of_decide_eq_true ht) rfl
      have hmoved : (k.places.move t).isNewline = true := ht
      rw [List.dropWhile_cons_of_pos ht, List.dropWhile_cons_of_pos hmoved]
      rcases hk.newline h hnewline with hboth | ⟨-, hone⟩
      · exact ih hboth
      · have hdrop := ih hone
        rwa [List.dropWhile_cons_of_pos hmoved] at hdrop
    · have hmoved : ¬ (k.places.move t).isNewline = true := ht
      rwa [List.dropWhile_cons_of_neg ht, List.dropWhile_cons_of_neg hmoved]

/-- **Past all line breaks the readings meet again.** -/
theorem meets_skipNewlines (h : k.Meets depth c c') :
    k.Meets depth c.skipNewlines c'.skipNewlines := by
  refine ⟨?_, ?_⟩
  · rw [Cursor.ahead_skipNewlines, Cursor.ahead_skipNewlines]
    exact hk.tokens_dropWhile h.1
  · rw [Cursor.stop_skipNewlines, Cursor.stop_skipNewlines, h.2]

end Sound
end Coupling
end Pug
