/-
# What a reader takes from a list of tokens

Between productions no token is put back, and a cursor is the list of the tokens
before it (`Cursor.before`). A reader is then described from two sides.

* `Takes o m ts rest a events`: in front of `ts ++ rest`, `m` is done with `a`, has
  gone past `ts`, and leaves `events` behind. `Inner.Covers o inner size` says that
  the readers `inner` so take every derivation with fewer than `size` tokens.
* `Ensures m ts Q`: if `m` is done in front of `ts`, then `Q` holds of its value and
  of the tokens that it leaves. `Inner.Sound inner` says that what the readers
  `inner` take has a derivation.

Both are shown production by production, for whatever is nested in a production,
and the knot is tied in `Pug.Proofs.Reading.Document`.
-/

import Pug.Proofs.Derivation.Greedy
import Pug.Proofs.Derivation.Meaning
import Pug.Reader.Loop

namespace Pug

namespace Cursor

/-- The cursor before tokens of which none was put back. -/
def before (finish : Position) (ts : List Token) : Cursor := ⟨[], ts, finish⟩

@[simp] theorem peek_before_cons (finish : Position) (t : Token) (ts : List Token) :
    (before finish (t :: ts)).peek = t := rfl

@[simp] theorem peek_before_nil (finish : Position) :
    (before finish []).peek = ⟨.eos, finish⟩ := rfl

@[simp] theorem advance_before_cons (finish : Position) (t : Token) (ts : List Token) :
    (before finish (t :: ts)).advance = before finish ts := rfl

@[simp] theorem skipNewlines_before (finish : Position) (ts : List Token) :
    (before finish ts).skipNewlines = before finish (ts.dropWhile Token.isNewline) := rfl

@[simp] theorem peek_put_back (t : Token) (ts : List Token) (finish : Position) :
    (⟨[t], ts, finish⟩ : Cursor).peek = t := rfl

@[simp] theorem advance_put_back (t : Token) (ts : List Token) (finish : Position) :
    (⟨[t], ts, finish⟩ : Cursor).advance = before finish ts := rfl

/-- **The current token is what is seen first.** -/
@[simp] theorem terminal_peek_before (finish : Position) (ts : List Token) :
    (before finish ts).peek.terminal = (Lookahead.of ts).next := by
  cases ts <;> rfl

/-- **Past the line breaks is what is seen past them.** -/
theorem terminal_peekPastNewlines_before (finish : Position) (ts : List Token) :
    (before finish ts).peekPastNewlines.terminal = (Lookahead.of ts).pastNewlines := by
  induction ts with
  | nil => rfl
  | cons t ts ih =>
    unfold peekPastNewlines at ih ⊢
    rw [skipNewlines_before] at ih ⊢
    by_cases h : t.isNewline
    · rw [List.dropWhile_cons_of_pos h, ih]
      simp [Lookahead.of, h]
    · rw [List.dropWhile_cons_of_neg h]
      simp [Lookahead.of, h]

end Cursor

/-- **Tokens begin with line breaks,** behind which none comes. -/
theorem exists_newlineTokens (ts : List Token) : ∃ newlines,
    ts = newlineTokens newlines ++ ts.dropWhile Token.isNewline ∧
      (Lookahead.of (ts.dropWhile Token.isNewline)).next ≠ .newline := by
  induction ts with
  | nil => exact ⟨[], rfl, by decide⟩
  | cons t ts ih =>
    rcases t with ⟨l, pos⟩
    by_cases h : Token.isNewline ⟨l, pos⟩
    · rcases ih with ⟨newlines, hts, hnext⟩
      rw [List.dropWhile_cons_of_pos h]
      obtain rfl : l = .newline := Lexeme.eq_of_terminal (of_decide_eq_true h) rfl
      exact ⟨pos :: newlines, congrArg _ hts, hnext⟩
    · rw [List.dropWhile_cons_of_neg h]
      exact ⟨[], rfl, fun hl => h (decide_eq_true hl)⟩

@[simp] theorem dropWhile_newlineTokens (newlines : List Position) {l : Lexeme}
    (hl : l.terminal ≠ .newline) (pos : Position) (us : List Token) :
    (newlineTokens newlines ++ ⟨l, pos⟩ :: us).dropWhile Token.isNewline = ⟨l, pos⟩ :: us := by
  induction newlines with
  | nil =>
    have h : Token.isNewline ⟨l, pos⟩ = false := decide_eq_false hl
    exact List.dropWhile_cons_of_neg (by simp [h])
  | cons place newlines ih => exact ih

theorem dropWhile_newlineTokens_append (newlines : List Position) {us : List Token}
    (hus : (Lookahead.of us).next ≠ .newline) :
    (newlineTokens newlines ++ us).dropWhile Token.isNewline = us := by
  induction newlines with
  | nil =>
    cases us with
    | nil => rfl
    | cons t us =>
      exact List.dropWhile_cons_of_neg (by simpa [Lookahead.of, Token.isNewline] using hus)
  | cons pos newlines ih => exact ih

theorem pastNewlines_newlineTokens (newlines : List Position) (us : List Token) :
    (Lookahead.of (newlineTokens newlines ++ us)).pastNewlines =
      (Lookahead.of us).pastNewlines := by
  induction newlines with
  | nil => rfl
  | cons place newlines ih => exact ih

/-- The tokens `ts` are those of a derivation of `s`, greedy and lawful where it
stands, and then `rest`. -/
def Derives (s : Symbol) (scope : Grammar.Scope) (ts rest : List Token) : Prop :=
  ∃ d : Derivation s, ts = d.tokens ++ rest ∧ d.Greedy (.of rest) ∧ d.Lawful scope

namespace Reader

variable {α β σ : Type}

/-- In front of `ts ++ rest`, `m` is done with `a`, has gone past `ts`, and leaves
`events` behind. -/
def Takes (o : Options) (m : Reader α) (ts rest : List Token) (a : α) (events : List Event) :
    Prop :=
  ∀ finish, m.run o (.before finish (ts ++ rest)) = ⟨.done a (.before finish rest), events⟩

namespace Takes

variable {o : Options} {ts us rest : List Token} {a : α} {b : β} {events more : List Event}

theorem pure : (Pure.pure a : Reader α).Takes o [] rest a [] := fun _ => rfl

/-- **A sequence takes what its readers take one after the other.** -/
theorem bind {m : Reader α} {k : α → Reader β} (hm : m.Takes o ts (us ++ rest) a events)
    (hk : (k a).Takes o us rest b more) :
    (m >>= k).Takes o (ts ++ us) rest b (events ++ more) := by
  intro finish
  rw [List.append_assoc, run_bind, hm finish, Run.andThen_done, hk finish]
  rfl

/-- A sequence in which the second reader leaves no events behind. -/
theorem bind_silent {m : Reader α} {k : α → Reader β} (hm : m.Takes o ts (us ++ rest) a events)
    (hk : (k a).Takes o us rest b []) : (m >>= k).Takes o (ts ++ us) rest b events := by
  simpa using hm.bind hk

/-- A sequence in which the second reader stays in place. -/
theorem bind_stay {m : Reader α} {k : α → Reader β} (hm : m.Takes o ts rest a events)
    (hk : (k a).Takes o [] rest b []) : (m >>= k).Takes o ts rest b events := by
  have h := @bind _ _ o ts [] rest a b events [] m k hm hk
  rwa [List.append_nil, List.append_nil] at h

/-- A sequence in which the first reader leaves no events behind. -/
theorem silent_bind {m : Reader α} {k : α → Reader β} (hm : m.Takes o ts (us ++ rest) a [])
    (hk : (k a).Takes o us rest b events) : (m >>= k).Takes o (ts ++ us) rest b events :=
  hm.bind hk

/-- A reader whose value is all that is wanted of it. -/
theorem bind_pure {m : Reader α} {f : α → β} (hm : m.Takes o ts rest a events) :
    (m >>= fun a => Pure.pure (f a)).Takes o ts rest (f a) events := by
  intro finish
  rw [run_bind, hm finish, Run.andThen_done, run_pure]
  exact congrArg (Run.mk _) (List.append_nil events)

theorem options_bind {k : Options → Reader β} (hk : (k o).Takes o ts rest b events) :
    (options >>= k).Takes o ts rest b events := fun finish => hk finish

theorem locate_bind {pos : Position} {k : Location → Reader β}
    (hk : (k (o.place pos)).Takes o ts rest b events) :
    (locate pos >>= k).Takes o ts rest b events := fun finish => hk finish

theorem emit_bind {e : Event} {k : Unit → Reader β} (hk : (k ()).Takes o ts rest b events) :
    (emit e >>= k).Takes o ts rest b (e :: events) := by
  intro finish
  rw [run_bind, run_emit, Run.andThen_done, hk finish]
  rfl

theorem emitIf_bind {condition : Bool} {e : Event} {k : Unit → Reader β}
    (hk : (k ()).Takes o ts rest b events) :
    (emitIf condition e >>= k).Takes o ts rest b
      ((if condition then [e] else []) ++ events) := by
  intro finish
  rw [run_bind, run_emitIf, Run.andThen_done, hk finish]
  rfl

/-- The current token is the first one. -/
theorem peek_bind {t : Token} {k : Token → Reader β}
    (hk : (k t).Takes o (t :: ts) rest b events) :
    (peek >>= k).Takes o (t :: ts) rest b events := fun finish => hk finish

/-- Whatever the current token is, its terminal is what is seen first. -/
theorem next_bind {k : Token → Reader β}
    (hk : ∀ t, t.terminal = (Lookahead.of (ts ++ rest)).next →
      (k t).Takes o ts rest b events) :
    (peek >>= k).Takes o ts rest b events :=
  fun finish => hk _ (Cursor.terminal_peek_before finish (ts ++ rest)) finish

/-- Whatever stands past the line breaks, its terminal is what is seen there. -/
theorem pastNewlines_bind {k : Token → Reader β}
    (hk : ∀ t, t.terminal = (Lookahead.of (ts ++ rest)).pastNewlines →
      (k t).Takes o ts rest b events) :
    (peekPastNewlines >>= k).Takes o ts rest b events :=
  fun finish => hk _ (Cursor.terminal_peekPastNewlines_before finish (ts ++ rest)) finish

/-- Past line breaks comes the token behind them. -/
theorem past_bind {newlines : List Position} {t : Token} (ht : t.isNewline = false)
    {k : Token → Reader β}
    (hk : (k t).Takes o (newlineTokens newlines ++ t :: ts) rest b events) :
    (peekPastNewlines >>= k).Takes o (newlineTokens newlines ++ t :: ts) rest b events := by
  intro finish
  rcases t with ⟨l, pos⟩
  have hdrop := dropWhile_newlineTokens newlines (of_decide_eq_false ht) pos
    (ts ++ rest)
  have hpeek : (Cursor.before finish
      ((newlineTokens newlines ++ ⟨l, pos⟩ :: ts) ++ rest)).peekPastNewlines = ⟨l, pos⟩ := by
    rw [Cursor.peekPastNewlines, Cursor.skipNewlines_before, List.append_assoc,
      List.cons_append, hdrop]
    rfl
  rw [run_bind, run_peekPastNewlines, hpeek]
  exact hk finish

theorem skip_bind {t : Token} {k : Unit → Reader β} (hk : (k ()).Takes o ts rest b events) :
    (skip >>= k).Takes o (t :: ts) rest b events := fun finish => hk finish

/-- A terminal that comes next is seen. -/
theorem see_bind {t : Token} {terminal : Terminal} (ht : t.terminal = terminal)
    {k : Bool → Reader β} (hk : (k true).Takes o (t :: ts) rest b events) :
    (lookingAt terminal >>= k).Takes o (t :: ts) rest b events := by
  intro finish
  rw [run_bind, run_lookingAt, decide_eq_true (by exact ht)]
  exact hk finish

/-- A terminal that does not come next is not seen. -/
theorem overlook_bind {terminal : Terminal}
    (hnext : (Lookahead.of (ts ++ rest)).next ≠ terminal) {k : Bool → Reader β}
    (hk : (k false).Takes o ts rest b events) :
    (lookingAt terminal >>= k).Takes o ts rest b events := by
  intro finish
  rw [run_bind, run_lookingAt, decide_eq_false (by simpa using hnext)]
  exact hk finish

theorem skipNewlines_bind {newlines : List Position}
    (hnext : (Lookahead.of (ts ++ rest)).next ≠ .newline) {k : Unit → Reader β}
    (hk : (k ()).Takes o ts rest b events) :
    (skipNewlines >>= k).Takes o (newlineTokens newlines ++ ts) rest b events := by
  have hskip := dropWhile_newlineTokens_append newlines hnext
  intro finish
  rw [List.append_assoc, run_bind, run_skipNewlines, Cursor.skipNewlines_before, hskip]
  exact hk finish

/-- A terminal that comes next is accepted. -/
theorem accept_bind {t : Token} {terminal : Terminal} (ht : t.terminal = terminal)
    {k : Bool → Reader β} (hk : (k true).Takes o ts rest b events) :
    (accept terminal >>= k).Takes o (t :: ts) rest b events := by
  intro finish
  rw [run_bind, run_accept, if_pos (by exact ht)]
  exact hk finish

/-- A terminal that does not come next is not accepted. -/
theorem refuse_bind {terminal : Terminal}
    (hnext : (Lookahead.of (ts ++ rest)).next ≠ terminal) {k : Bool → Reader β}
    (hk : (k false).Takes o ts rest b events) :
    (accept terminal >>= k).Takes o ts rest b events := by
  intro finish
  rw [run_bind, run_accept, if_neg (by simpa using hnext)]
  exact hk finish

theorem expect_bind {t : Token} {terminal : Terminal} (ht : t.terminal = terminal)
    {k : Token → Reader β} (hk : (k t).Takes o ts rest b events) :
    (expect terminal >>= k).Takes o (t :: ts) rest b events := by
  intro finish
  rw [run_bind, run_expect, if_pos (by exact ht)]
  exact hk finish

/-- A loop ends with the round that declines. -/
theorem many_none {item : Reader (Option α)} {rounds : Nat} (hr : 0 < rounds)
    (h : item.Takes o ts rest none events) : (many item rounds).Takes o ts rest [] events := by
  obtain ⟨rounds, rfl⟩ := Nat.exists_eq_succ_of_ne_zero (Nat.pos_iff_ne_zero.1 hr)
  intro finish
  simp [many, h finish, Run.after]

/-- A loop goes on behind a round that gives a value. -/
theorem many_some {item : Reader (Option α)} {rounds : Nat} (hr : 0 < rounds) {as : List α}
    (h : item.Takes o ts (us ++ rest) (some a) events)
    (hmore : (many item (rounds - 1)).Takes o us rest as more) :
    (many item rounds).Takes o (ts ++ us) rest (a :: as) (events ++ more) := by
  obtain ⟨rounds, rfl⟩ := Nat.exists_eq_succ_of_ne_zero (Nat.pos_iff_ne_zero.1 hr)
  exact h.bind hmore.bind_pure

/-- A loop with a state ends with the round that declines. -/
theorem iterate_none {step : σ → Reader (Option σ)} {rounds : Nat} (hr : 0 < rounds) {s : σ}
    (h : (step s).Takes o ts rest none events) :
    (iterate step rounds s).Takes o ts rest s events := by
  obtain ⟨rounds, rfl⟩ := Nat.exists_eq_succ_of_ne_zero (Nat.pos_iff_ne_zero.1 hr)
  intro finish
  simp [iterate, h finish, Run.after]

/-- A loop with a state goes on behind a round that gives a state. -/
theorem iterate_some {step : σ → Reader (Option σ)} {rounds : Nat} (hr : 0 < rounds)
    {s s' s'' : σ} (h : (step s).Takes o ts (us ++ rest) (some s') events)
    (hmore : (iterate step (rounds - 1) s').Takes o us rest s'' more) :
    (iterate step rounds s).Takes o (ts ++ us) rest s'' (events ++ more) := by
  obtain ⟨rounds, rfl⟩ := Nat.exists_eq_succ_of_ne_zero (Nat.pos_iff_ne_zero.1 hr)
  exact h.bind hmore

end Takes

/-- If `m` is done in front of `ts`, then `Q` holds of its value and of the tokens
that it leaves. -/
def Ensures (m : Reader α) (ts : List Token) (Q : α → List Token → Prop) : Prop :=
  ∀ o finish a c events, m.run o (.before finish ts) = ⟨.done a c, events⟩ →
    ∃ rest, c = .before finish rest ∧ Q a rest

/-- What a round of a loop is to ensure, if the whole loop is to ensure `P`: the round
that declines ensures `P`, and any other one hands it on. -/
def Round (P : List Token → List Token → Prop) (ts : List Token) :
    Option α → List Token → Prop
  | none, mid => P ts mid
  | some _, mid => ∀ rest, P mid rest → P ts rest

namespace Ensures

variable {ts : List Token} {Q : β → List Token → Prop}

theorem mono {m : Reader α} {P P' : α → List Token → Prop} (h : m.Ensures ts P)
    (hP : ∀ a rest, P a rest → P' a rest) : m.Ensures ts P' := by
  intro o finish a c events hrun
  obtain ⟨rest, hc, ha⟩ := h o finish a c events hrun
  exact ⟨rest, hc, hP a rest ha⟩

theorem pure {b : β} (h : Q b ts) : (Pure.pure b : Reader β).Ensures ts Q := by
  intro o finish a c events hrun
  simp only [run_pure, Run.mk.injEq, Outcome.done.injEq] at hrun
  rcases hrun with ⟨⟨rfl, rfl⟩, -⟩
  exact ⟨ts, rfl, h⟩

/-- **In a sequence the second reader starts where the first one ends.** -/
theorem bind {m : Reader α} {k : α → Reader β} {P : α → List Token → Prop}
    (hm : m.Ensures ts P) (hk : ∀ a mid, P a mid → (k a).Ensures mid Q) :
    (m >>= k).Ensures ts Q := by
  intro o finish b c events hrun
  rw [run_bind] at hrun
  match h : m.run o (.before finish ts) with
  | ⟨.done a mid, first⟩ =>
    obtain ⟨rest, rfl, ha⟩ := hm o finish a mid first h
    rw [h, Run.andThen_done] at hrun
    match hr : (k a).run o (.before finish rest) with
    | ⟨outcome, second⟩ =>
      rw [hr, Run.after, Run.mk.injEq] at hrun
      rcases hrun with ⟨rfl, -⟩
      exact hk a rest ha o finish b c second hr
  | ⟨.failed e, first⟩ => simp [h] at hrun
  | ⟨.exhausted, first⟩ => simp [h] at hrun

/-- A reader that does what another one does, but for events in front, ensures the same. -/
theorem of_after {m m' : Reader β} {before : List Event}
    (h : ∀ o finish, m.run o (.before finish ts) = (m'.run o (.before finish ts)).after before)
    (hm : m'.Ensures ts Q) : m.Ensures ts Q := by
  intro o finish b c events hrun
  rw [h, Run.after, Run.mk.injEq] at hrun
  exact hm o finish b c _ (congrArg (Run.mk · _) hrun.1)

theorem exhausted : (Reader.exhausted : Reader β).Ensures ts Q := by
  intro o finish a c events hrun
  simp at hrun

theorem reject {fault : Fault} {pos : Position} :
    (Reader.reject fault pos : Reader β).Ensures ts Q := by
  intro o finish a c events hrun
  simp at hrun

theorem unexpected {t : Token} {expected : List Terminal} :
    (Reader.unexpected t expected : Reader β).Ensures ts Q := reject

/-- A step that stays in place and gives whatever it gives. -/
theorem stay_bind {m : Reader α} {k : α → Reader β}
    (hm : ∀ o c, ∃ a events, m.run o c = ⟨.done a c, events⟩)
    (hk : ∀ a, (k a).Ensures ts Q) : (m >>= k).Ensures ts Q := by
  refine bind (P := fun _ mid => mid = ts) ?_ fun a mid h => h ▸ hk a
  intro o finish a c events hrun
  obtain ⟨b, more, hb⟩ := hm o (.before finish ts)
  rw [hb, Run.mk.injEq, Outcome.done.injEq] at hrun
  exact ⟨ts, hrun.1.2.symm, rfl⟩

theorem options_bind {k : Options → Reader β} (hk : ∀ o, (k o).Ensures ts Q) :
    (options >>= k).Ensures ts Q := stay_bind (fun _ _ => ⟨_, _, rfl⟩) hk

theorem locate_bind {pos : Position} {k : Location → Reader β}
    (hk : ∀ loc, (k loc).Ensures ts Q) : (locate pos >>= k).Ensures ts Q :=
  stay_bind (fun _ _ => ⟨_, _, rfl⟩) hk

theorem emit_bind {e : Event} {k : Unit → Reader β} (hk : (k ()).Ensures ts Q) :
    (emit e >>= k).Ensures ts Q := stay_bind (fun _ _ => ⟨_, _, rfl⟩) fun _ => hk

theorem emitIf_bind {condition : Bool} {e : Event} {k : Unit → Reader β}
    (hk : (k ()).Ensures ts Q) : (emitIf condition e >>= k).Ensures ts Q :=
  stay_bind (fun o c => ⟨_, _, run_emitIf o c condition e⟩) fun _ => hk

/-- **The current token is the first one,** or the end of the input. -/
theorem peek_bind {k : Token → Reader β} (hnil : ts = [] → ∀ pos, (k ⟨.eos, pos⟩).Ensures [] Q)
    (hcons : ∀ l pos us, ts = ⟨l, pos⟩ :: us → (k ⟨l, pos⟩).Ensures (⟨l, pos⟩ :: us) Q) :
    (peek >>= k).Ensures ts Q := by
  intro o finish b c events hrun
  cases ts with
  | nil => exact hnil rfl finish o finish b c events (by simpa using hrun)
  | cons t us => exact hcons _ _ us rfl o finish b c events (by simpa using hrun)

theorem skip_bind {t : Token} {us : List Token} {k : Unit → Reader β}
    (hk : (k ()).Ensures us Q) : (skip >>= k).Ensures (t :: us) Q := by
  intro o finish b c events hrun
  exact hk o finish b c events (by simpa using hrun)

theorem skipNewlines_bind {k : Unit → Reader β}
    (hk : ∀ newlines us, ts = newlineTokens newlines ++ us → (Lookahead.of us).next ≠ .newline →
      (k ()).Ensures us Q) : (skipNewlines >>= k).Ensures ts Q := by
  obtain ⟨newlines, hts, hnext⟩ := exists_newlineTokens ts
  intro o finish b c events hrun
  exact hk newlines _ hts hnext o finish b c events (by simpa using hrun)

/-- **Past the line breaks comes the first token that is none,** or the end of the
input. -/
theorem past_bind {k : Token → Reader β}
    (hnil : ∀ newlines pos, ts = newlineTokens newlines → (k ⟨.eos, pos⟩).Ensures ts Q)
    (hcons : ∀ newlines l pos us, ts = newlineTokens newlines ++ ⟨l, pos⟩ :: us →
      l.terminal ≠ .newline → (k ⟨l, pos⟩).Ensures ts Q) :
    (peekPastNewlines >>= k).Ensures ts Q := by
  intro o finish b c events hrun
  obtain ⟨newlines, hts, hnext⟩ := exists_newlineTokens ts
  rw [run_bind, run_peekPastNewlines, Run.andThen_done, Run.after_nil, Cursor.peekPastNewlines,
    Cursor.skipNewlines_before] at hrun
  cases h : ts.dropWhile Token.isNewline with
  | nil =>
    rw [h] at hts hrun
    exact hnil newlines finish (hts.trans (List.append_nil _)) o finish b c events hrun
  | cons t us =>
    rw [h] at hts hrun hnext
    exact hcons newlines t.lexeme t.pos us hts hnext o finish b c events hrun

theorem skipNewlines_cons {newlines : List Position} {l : Lexeme} {pos : Position}
    {us : List Token} {k : Unit → Reader β} (hl : l.terminal ≠ .newline)
    (hk : (k ()).Ensures (⟨l, pos⟩ :: us) Q) :
    (skipNewlines >>= k).Ensures (newlineTokens newlines ++ ⟨l, pos⟩ :: us) Q := by
  intro o finish b c events hrun
  rw [run_bind, run_skipNewlines, Run.andThen_done, Run.after_nil, Cursor.skipNewlines_before,
    dropWhile_newlineTokens newlines hl] at hrun
  exact hk o finish b c events hrun

theorem lookingAt_bind {terminal : Terminal} {k : Bool → Reader β}
    (hk : (k ((Lookahead.of ts).next = terminal)).Ensures ts Q) :
    (lookingAt terminal >>= k).Ensures ts Q := by
  intro o finish b c events hrun
  exact hk o finish b c events (by simpa using hrun)

theorem expect_bind {terminal : Terminal} (hne : terminal ≠ .eos) {k : Token → Reader β}
    (hk : ∀ t us, ts = t :: us → t.terminal = terminal → (k t).Ensures us Q) :
    (expect terminal >>= k).Ensures ts Q := by
  have hrefuse : ∀ t us, ((Reader.unexpected t [terminal] : Reader Token) >>= k).Ensures us Q :=
    fun _ _ => bind (P := fun _ _ => False) unexpected fun _ _ h => h.elim
  rw [expect, bind_assoc]
  refine peek_bind (fun _ pos => ?_) fun l pos us hts => ?_
  · have h : ¬(⟨.eos, pos⟩ : Token).terminal = terminal := fun h => hne h.symm
    simp only [if_neg h]
    exact hrefuse _ _
  · by_cases h : (⟨l, pos⟩ : Token).terminal = terminal
    · simp only [if_pos h, bind_assoc]
      refine skip_bind ?_
      rw [pure_bind]
      exact hk _ _ hts h
    · simp only [if_neg h]
      exact hrefuse _ _

/-- A terminal is accepted exactly when it comes next. -/
theorem accept_bind {terminal : Terminal} (hne : terminal ≠ .eos) {k : Bool → Reader β}
    (hsome : ∀ t us, ts = t :: us → t.terminal = terminal → (k true).Ensures us Q)
    (hnone : (Lookahead.of ts).next ≠ terminal → (k false).Ensures ts Q) :
    (accept terminal >>= k).Ensures ts Q := by
  rw [accept, bind_assoc]
  refine lookingAt_bind ?_
  cases ts with
  | nil =>
    have hnext : (Lookahead.of []).next ≠ terminal := fun h => hne h.symm
    rw [decide_eq_false hnext]
    exact hnone hnext
  | cons t us =>
    by_cases h : (Lookahead.of (t :: us)).next = terminal
    · rw [decide_eq_true h, if_pos rfl, bind_assoc]
      refine skip_bind ?_
      rw [pure_bind]
      exact hsome t us rfl h
    · rw [decide_eq_false h]
      exact hnone h

/-- **What a loop ensures,** if each round hands it on. -/
theorem many {item : Reader (Option α)} {P : List Token → List Token → Prop}
    (hitem : ∀ ts, item.Ensures ts (Round P ts)) (rounds : Nat) (ts : List Token) :
    (Reader.many item rounds).Ensures ts fun _ rest => P ts rest := by
  induction rounds generalizing ts with
  | zero => exact exhausted
  | succ rounds ih =>
    refine bind (hitem ts) fun x mid hx => ?_
    cases x with
    | none => exact pure hx
    | some a => exact bind (ih mid) fun _ rest hrest => pure (hx rest hrest)

/-- **What a loop with a state ensures,** if each round hands it on. -/
theorem iterate {step : σ → Reader (Option σ)} {P : σ → List Token → σ → List Token → Prop}
    (hstep : ∀ s ts, (step s).Ensures ts fun x mid =>
      match x with
      | none => P s ts s mid
      | some s' => ∀ s'' rest, P s' mid s'' rest → P s ts s'' rest) (rounds : Nat) (s : σ)
    (ts : List Token) : (Reader.iterate step rounds s).Ensures ts (P s ts) := by
  induction rounds generalizing s ts with
  | zero => exact exhausted
  | succ rounds ih =>
    refine bind (hstep s ts) fun x mid hx => ?_
    cases x with
    | none => exact pure hx
    | some s' => exact (ih s' mid).mono fun s'' rest h => hx s'' rest h

end Ensures

end Reader

namespace Grammar.Inner

/-- The readers of an `Inner` take every derivation of fewer than `size` tokens, with
its meaning and its trail. -/
structure Covers (o : Options) (inner : Inner) (size : Nat) : Prop where
  rounds : size < inner.rounds
  expr : ∀ (e : Derivation .expr) scope rest, e.tokens.length < size → e.Greedy (.of rest) →
    e.Lawful scope → (inner.expr scope).Takes o e.tokens rest (e.meaning o) (e.trail o)
  block : ∀ (b : Derivation .block) scope rest, b.tokens.length < size → b.Greedy (.of rest) →
    b.Lawful scope → (inner.block scope).Takes o b.tokens rest (b.meaning o) (b.trail o)

/-- Whenever the readers of an `Inner` are done, what they took has a derivation. -/
structure Sound (inner : Inner) : Prop where
  expr : ∀ scope ts, (inner.expr scope).Ensures ts fun _ rest => Derives .expr scope ts rest
  block : ∀ scope ts, (inner.block scope).Ensures ts fun _ rest => Derives .block scope ts rest

end Grammar.Inner
end Pug
