/-
# A reading of more tokens

What a reader does in front of some tokens it does in front of more tokens too, unless
it has come to the end of the first ones. A reader can come to their end without failing.
It can even do so without going there, since it may look past line breaks for an
alternate of a conditional. From then on the two runs have nothing to do with each other.
But all that is left to read is line breaks, and what a reader can complain about there is
one of these, or the end.

The tokens may also come to stand in the body of a mixin. Then the second run goes on where
the first one complains about the place of a mixin's block. What stands behind the tokens,
and the mixin around them, are their *frame*.

* `Dry frame ts finish run`: a run in front of `ts` has spent them, or fails with an error
  that the frame explains.
* `Repeats frame ts finish finish' run run'`: the run `run'`, in front of `ts` in the frame,
  ends as the run `run` in front of `ts`, unless that is dry.
* `Firm frame o m m' ts`: the run of `m'` in the frame repeats the run of `m`.
* `Steady frame o m m' ts`: besides, the run of `m` is dry if `ts` is spent. So a steady
  reader can be put behind any other one.

The second reader differs from the first one only in its scope and in the bounds on its
loops and on its depth, since these depend on the number of tokens.
-/

import Pug.Proofs.Reading.Basic

namespace Pug

/-- The terminal that a complaint is about, if it names one. No other complaint is about a
line break or about the end of the input: a name that is repeated is shown by a shorthand
or an attribute, and a block that has no place by its first token. -/
def Fault.found? : Fault → Option Terminal
  | .unexpected found _ => some found
  | .malformedVerbatim found => some found
  | _ => none

/-- The last of the tokens is a line break. -/
def endsInNewline (ts : List Token) : Bool := ts.getLast?.any Token.isNewline

theorem endsInNewline_of_suffix {rest ts : List Token} (hrest : rest <:+ ts)
    (h : endsInNewline rest = true) : endsInNewline ts = true := by
  rcases hrest with ⟨us, rfl⟩
  cases rest with
  | nil => cases h
  | cons t rest =>
    unfold endsInNewline at h ⊢
    rw [List.getLast?_append]
    cases hlast : (t :: rest).getLast? with
    | none => simp [hlast] at h
    | some last => rwa [hlast] at h

/-- All tokens are line breaks. -/
def Drained (ts : List Token) : Prop := ∀ t ∈ ts, t.isNewline = true

theorem drained_nil : Drained [] := by
  simp [Drained]

theorem Drained.suffix {rest ts : List Token} (h : Drained ts) (hrest : rest <:+ ts) :
    Drained rest := fun t ht => h t (hrest.subset ht)

theorem drained_of_dropWhile {ts : List Token} (h : ts.dropWhile Token.isNewline = []) :
    Drained ts := by
  obtain ⟨newlines, hts, -⟩ := exists_newlineTokens ts
  rw [h, List.append_nil] at hts
  intro t ht
  rw [hts] at ht
  obtain ⟨pos, -, rfl⟩ := List.mem_map.1 ht
  rfl

theorem Drained.endsInNewline {t : Token} {ts : List Token} (h : Drained (t :: ts)) :
    endsInNewline (t :: ts) = true := by
  unfold Pug.endsInNewline
  rw [List.getLast?_eq_some_getLast (List.cons_ne_nil t ts), Option.any_some]
  exact h _ (List.getLast_mem _)

/-- What stands around tokens where they are read once more. -/
structure Frame where
  /-- The tokens behind them. -/
  more : List Token
  /-- Whether they come to stand in the body of a mixin. -/
  inMixin : Bool

namespace Frame

variable {frame : Frame} {rest ts : List Token} {e : ParseError}

/-- The scope that a production has in the frame. -/
def scope (frame : Frame) (scope : Grammar.Scope) : Grammar.Scope :=
  ⟨scope.inMixin || frame.inMixin⟩

/-- Behind the tokens an alternate of a conditional comes next. -/
def Alternates (frame : Frame) : Prop :=
  (Lookahead.of frame.more).pastNewlines ∈ [.elseIf, .else]

/-- A reader in front of the tokens has come to their end, as far as the frame is concerned. -/
def Spent (frame : Frame) (ts : List Token) : Prop := ts = [] ∨ Drained ts ∧ frame.Alternates

theorem spent_nil : frame.Spent [] := .inl rfl

theorem Spent.drained (h : frame.Spent ts) : Drained ts := by
  rcases h with rfl | ⟨h, -⟩
  · exact drained_nil
  · exact h

theorem Spent.suffix (h : frame.Spent ts) (hrest : rest <:+ ts) : frame.Spent rest := by
  rcases h with rfl | ⟨h, halternates⟩
  · exact .inl (List.suffix_nil.1 hrest)
  · exact .inr ⟨h.suffix hrest, halternates⟩

/-- The frame explains why the tokens may be refused with an error only outside of it. The
error is about the end of the input; or about a line break, where the tokens end in one and
an alternate comes behind; or about the place of a mixin's block. -/
def Explains (frame : Frame) (ts : List Token) (e : ParseError) : Prop :=
  e.fault.found? = some .eos ∨
    (e.fault.found? = some .newline ∧ endsInNewline ts = true ∧ frame.Alternates) ∨
    e.fault = .blockOutsideMixin ∧ frame.inMixin = true

theorem Explains.of_suffix (h : frame.Explains rest e) (hrest : rest <:+ ts) :
    frame.Explains ts e := by
  rcases h with h | ⟨h, hend, halternates⟩ | h
  · exact .inl h
  · exact .inr (.inl ⟨h, endsInNewline_of_suffix hrest hend, halternates⟩)
  · exact .inr (.inr h)

/-- The complaint about the first of the tokens, if they are spent. -/
theorem Spent.explains {t : Token} (h : frame.Spent (t :: ts))
    (hfound : e.fault.found? = some t.terminal) : frame.Explains (t :: ts) e := by
  rcases h with h | ⟨h, halternates⟩
  · cases h
  · refine .inr (.inl ⟨?_, h.endsInNewline, halternates⟩)
    rw [hfound, of_decide_eq_true (h t List.mem_cons_self)]

end Frame

namespace Reader

variable {α β σ : Type}

/-- The run in front of `ts` has spent them, or fails with an error that the frame explains. -/
inductive Dry (frame : Frame) (ts : List Token) (finish : Position) : Run α → Prop where
  | done {a : α} {rest : List Token} {events : List Event} (hrest : rest <:+ ts)
      (h : frame.Spent rest) : Dry frame ts finish ⟨.done a (.before finish rest), events⟩
  | failed {e : ParseError} {events : List Event} (h : frame.Explains ts e) :
      Dry frame ts finish ⟨.failed e, events⟩
  | exhausted {events : List Event} : Dry frame ts finish ⟨.exhausted, events⟩

/-- The second run, in the frame, ends as the first one does, unless the first one is dry. -/
inductive Repeats (frame : Frame) (ts : List Token) (finish finish' : Position) :
    Run α → Run α → Prop where
  | dry {run run' : Run α} (h : Dry frame ts finish run) :
      Repeats frame ts finish finish' run run'
  | done {a : α} {rest : List Token} {events : List Event} (hrest : rest <:+ ts) :
      Repeats frame ts finish finish' ⟨.done a (.before finish rest), events⟩
        ⟨.done a (.before finish' (rest ++ frame.more)), events⟩
  | failed {e : ParseError} {events : List Event} :
      Repeats frame ts finish finish' ⟨.failed e, events⟩ ⟨.failed e, events⟩

/-- In the frame, `m'` repeats the run of `m` in front of `ts`. -/
def Firm (frame : Frame) (o : Options) (m m' : Reader α) (ts : List Token) : Prop :=
  ∀ finish finish', Repeats frame ts finish finish' (m.run o (.before finish ts))
    (m'.run o (.before finish' (ts ++ frame.more)))

/-- Besides, the run of `m` is dry if `ts` is spent. -/
structure Steady (frame : Frame) (o : Options) (m m' : Reader α) (ts : List Token) : Prop where
  firm : Firm frame o m m' ts
  dry : frame.Spent ts → ∀ finish, Dry frame ts finish (m.run o (.before finish ts))

variable {frame : Frame} {o : Options} {ts us : List Token} {finish finish' : Position}

theorem Dry.of_suffix {run : Run α} (h : Dry frame us finish run) (hus : us <:+ ts) :
    Dry frame ts finish run := by
  cases h with
  | done hrest h => exact .done (hrest.trans hus) h
  | failed h => exact .failed (h.of_suffix hus)
  | exhausted => exact .exhausted

theorem Dry.after {run : Run α} (h : Dry frame ts finish run) (events : List Event) :
    Dry frame ts finish (run.after events) := by
  cases h with
  | done hrest h => exact .done hrest h
  | failed h => exact .failed h
  | exhausted => exact .exhausted

theorem Repeats.of_suffix {run run' : Run α} (h : Repeats frame us finish finish' run run')
    (hus : us <:+ ts) : Repeats frame ts finish finish' run run' := by
  cases h with
  | dry h => exact .dry (h.of_suffix hus)
  | done hrest => exact .done (hrest.trans hus)
  | failed => exact .failed

theorem Repeats.after {run run' : Run α} (h : Repeats frame ts finish finish' run run')
    (events : List Event) :
    Repeats frame ts finish finish' (run.after events) (run'.after events) := by
  cases h with
  | dry h => exact .dry (h.after events)
  | done hrest => exact .done hrest
  | failed => exact .failed

/-- **What goes on behind a dry run is dry**, if it is steady. -/
theorem Dry.andThen {run : Run α} {k k' : α → Reader β} (h : Dry frame ts finish run)
    (hk : ∀ a rest, Steady frame o (k a) (k' a) rest) :
    Dry frame ts finish (run.andThen fun a rest => (k a).run o rest) := by
  cases h with
  | done hrest h => exact (((hk _ _).dry h finish).of_suffix hrest).after _
  | failed h => exact .failed h
  | exhausted => exact .exhausted

/-- **What goes on behind a run is repeated** if the run is, and if it is steady. -/
theorem Repeats.andThen {run run' : Run α} {k k' : α → Reader β}
    (h : Repeats frame ts finish finish' run run')
    (hk : ∀ a rest, Steady frame o (k a) (k' a) rest) :
    Repeats frame ts finish finish' (run.andThen fun a rest => (k a).run o rest)
      (run'.andThen fun a rest => (k' a).run o rest) := by
  cases h with
  | dry h => exact .dry (h.andThen hk)
  | done hrest => exact (((hk _ _).firm finish finish').of_suffix hrest).after _
  | failed => exact .failed

namespace Firm

/-- **A steady reader behind a firm one is firm.** -/
theorem bind {m m' : Reader α} {k k' : α → Reader β} (hm : Firm frame o m m' ts)
    (hk : ∀ a rest, Steady frame o (k a) (k' a) rest) : Firm frame o (m >>= k) (m' >>= k') ts :=
  fun finish finish' => (hm finish finish').andThen hk

theorem reject {fault : Fault} {pos : Position} :
    Firm frame o (Reader.reject fault pos : Reader α) (Reader.reject fault pos) ts :=
  fun _ _ => .failed

/-- A reader that does what a firm one does, behind some events, is firm. -/
theorem of_after {m m' n n' : Reader α} {events : List Event} (h : Firm frame o n n' ts)
    (hm : ∀ finish, m.run o (.before finish ts) = (n.run o (.before finish ts)).after events)
    (hm' : ∀ finish, m'.run o (.before finish (ts ++ frame.more)) =
      (n'.run o (.before finish (ts ++ frame.more))).after events) : Firm frame o m m' ts := by
  intro finish finish'
  rw [hm, hm']
  exact (h finish finish').after events

theorem skip_bind {t : Token} {k k' : Unit → Reader β} (hk : Firm frame o (k ()) (k' ()) us) :
    Firm frame o (skip >>= k) (skip >>= k') (t :: us) := by
  intro finish finish'
  exact (hk finish finish').of_suffix (List.suffix_cons t us)

theorem locate_bind {pos : Position} {k k' : Location → Reader β}
    (hk : Firm frame o (k (o.place pos)) (k' (o.place pos)) ts) :
    Firm frame o (locate pos >>= k) (locate pos >>= k') ts := hk

end Firm

namespace Steady

/-- In front of a token that is no line break it is enough to be firm. -/
theorem of_token {m m' : Reader α} {l : Lexeme} {pos : Position} (hl : l.terminal ≠ .newline)
    (h : Firm frame o m m' (⟨l, pos⟩ :: us)) : Steady frame o m m' (⟨l, pos⟩ :: us) :=
  ⟨h, fun hd => absurd (of_decide_eq_true (hd.drained _ List.mem_cons_self)) hl⟩

theorem bind {m m' : Reader α} {k k' : α → Reader β} (hm : Steady frame o m m' ts)
    (hk : ∀ a rest, Steady frame o (k a) (k' a) rest) : Steady frame o (m >>= k) (m' >>= k') ts :=
  ⟨hm.firm.bind hk, fun hd finish => (hm.dry hd finish).andThen hk⟩

theorem pure {a : α} : Steady frame o (Pure.pure a) (Pure.pure a) ts :=
  ⟨fun _ _ => .done List.suffix_rfl, fun hd _ => .done List.suffix_rfl hd⟩

theorem exhausted {m' : Reader α} : Steady frame o Reader.exhausted m' ts :=
  ⟨fun _ _ => .dry .exhausted, fun _ _ => .exhausted⟩

/-- The end of the input explains the complaint about it, whatever another reader does. -/
theorem of_end {fault : Fault} {pos : Position} {m' : Reader α}
    (hfault : fault.found? = some .eos) : Steady frame o (Reader.reject fault pos) m' ts :=
  ⟨fun _ _ => .dry (.failed (.inl hfault)), fun _ _ => .failed (.inl hfault)⟩

/-- The complaint about the current token. -/
theorem reject {fault : Fault} {t : Token} {pos : Position}
    (hfault : fault.found? = some t.terminal) :
    Steady frame o (Reader.reject fault pos : Reader α) (Reader.reject fault pos) (t :: us) :=
  ⟨fun _ _ => .failed, fun hd _ => .failed (hd.explains hfault)⟩

theorem unexpected {t : Token} {expected : List Terminal} :
    Steady frame o (Reader.unexpected t expected : Reader α) (Reader.unexpected t expected)
      (t :: us) :=
  reject rfl

theorem options_bind {k k' : Options → Reader β} (hk : Steady frame o (k o) (k' o) ts) :
    Steady frame o (options >>= k) (options >>= k') ts := ⟨hk.firm, hk.dry⟩

theorem locate_bind {pos : Position} {k k' : Location → Reader β}
    (hk : Steady frame o (k (o.place pos)) (k' (o.place pos)) ts) :
    Steady frame o (locate pos >>= k) (locate pos >>= k') ts := ⟨hk.firm, hk.dry⟩

theorem emit {e : Event} : Steady frame o (Reader.emit e) (Reader.emit e) ts :=
  ⟨fun _ _ => .done List.suffix_rfl, fun hd _ => .done List.suffix_rfl hd⟩

theorem emitIf {condition : Bool} {e : Event} :
    Steady frame o (Reader.emitIf condition e) (Reader.emitIf condition e) ts := by
  cases condition with
  | false => exact pure
  | true => exact emit

/-- **The current token is the same in front of more tokens**, unless there is none. -/
theorem peek_bind {k k' : Token → Reader β}
    (hnil : ts = [] → ∀ pos, Steady frame o (k ⟨.eos, pos⟩) (k' ⟨.eos, pos⟩) [])
    (hcons : ∀ l pos us, ts = ⟨l, pos⟩ :: us →
      Steady frame o (k ⟨l, pos⟩) (k' ⟨l, pos⟩) (⟨l, pos⟩ :: us)) :
    Steady frame o (peek >>= k) (peek >>= k') ts := by
  cases ts with
  | nil =>
    have hdry : ∀ finish, Dry frame [] finish ((peek >>= k).run o (.before finish [])) :=
      fun finish => (hnil rfl finish).dry Frame.spent_nil finish
    exact ⟨fun finish _ => .dry (hdry finish), fun _ => hdry⟩
  | cons t us => exact ⟨(hcons _ _ us rfl).firm, (hcons _ _ us rfl).dry⟩

/-- Whatever the current token is, what comes behind it is steady. -/
theorem any_bind {k k' : Token → Reader β} (hk : ∀ t, Steady frame o (k t) (k' t) ts) :
    Steady frame o (peek >>= k) (peek >>= k') ts :=
  peek_bind (fun hts _ => hts ▸ hk _) fun _ _ _ hts => hts ▸ hk _

theorem skip : Steady frame o Reader.skip Reader.skip ts := by
  cases ts with
  | nil =>
    have hdry : ∀ finish, Dry frame [] finish (Reader.skip.run o (.before finish [])) :=
      fun _ => .done List.suffix_rfl Frame.spent_nil
    exact ⟨fun finish _ => .dry (hdry finish), fun _ => hdry⟩
  | cons t us =>
    have hus : us <:+ t :: us := List.suffix_cons t us
    exact ⟨fun _ _ => .done hus, fun hd _ => .done hus (hd.suffix hus)⟩

/-- A token that is no line break is taken, and what comes behind it has to be firm only. -/
theorem take_bind {l : Lexeme} (hl : l.terminal ≠ .newline) {pos : Position}
    {k k' : Unit → Reader β} (hk : Firm frame o (k ()) (k' ()) us) :
    Steady frame o (Reader.skip >>= k) (Reader.skip >>= k') (⟨l, pos⟩ :: us) :=
  of_token hl hk.skip_bind

theorem skip_bind {k k' : Unit → Reader β} (hk : ∀ rest, Steady frame o (k ()) (k' ()) rest) :
    Steady frame o (Reader.skip >>= k) (Reader.skip >>= k') ts := skip.bind fun _ => hk

theorem skipNewlines : Steady frame o Reader.skipNewlines Reader.skipNewlines ts := by
  have hrest : ts.dropWhile Token.isNewline <:+ ts := List.dropWhile_suffix _
  refine ⟨fun finish finish' => ?_, fun hd finish => .done hrest (hd.suffix hrest)⟩
  by_cases hnil : ts.dropWhile Token.isNewline = []
  · exact .dry (.done hrest (.inl hnil))
  · rw [run_skipNewlines, run_skipNewlines, Cursor.skipNewlines_before,
      Cursor.skipNewlines_before, List.dropWhile_append, if_neg (by simpa using hnil)]
    exact .done hrest

/-- **What stands past the line breaks is the same in the frame**, unless there are line breaks
alone. Even then a reader that looks for an alternate finds none, unless the frame goes on
with one. -/
theorem past_bind {k k' : Token → Reader β} (b : β)
    (hk : ∀ t, Steady frame o (k t) (k' t) ts)
    (hother : ∀ t, t.terminal ∉ [.elseIf, .else] → k t = Pure.pure b ∧ k' t = Pure.pure b) :
    Steady frame o (peekPastNewlines >>= k) (peekPastNewlines >>= k') ts := by
  refine ⟨fun finish finish' => ?_, fun hd finish => (hk _).dry hd finish⟩
  rw [run_bind, run_bind, run_peekPastNewlines, run_peekPastNewlines]
  obtain ⟨newlines, hts, -⟩ := exists_newlineTokens ts
  cases hdrop : ts.dropWhile Token.isNewline with
  | cons t us =>
    have hsame : (Cursor.before finish' (ts ++ frame.more)).peekPastNewlines =
        (Cursor.before finish ts).peekPastNewlines := by
      unfold Cursor.peekPastNewlines
      rw [Cursor.skipNewlines_before, Cursor.skipNewlines_before, List.dropWhile_append, hdrop]
      rfl
    rw [hsame]
    exact (hk _).firm finish finish'
  | nil =>
    by_cases halternates : frame.Alternates
    · exact .dry ((hk _).dry (.inr ⟨drained_of_dropWhile hdrop, halternates⟩) finish)
    · rw [hdrop] at hts
      have hfirst : (Cursor.before finish ts).peekPastNewlines.terminal ∉ [.elseIf, .else] := by
        rw [Cursor.terminal_peekPastNewlines_before, hts, pastNewlines_newlineTokens]
        decide
      have hsecond : (Cursor.before finish' (ts ++ frame.more)).peekPastNewlines.terminal ∉
          [.elseIf, .else] := by
        rw [Cursor.terminal_peekPastNewlines_before, hts, List.append_nil,
          pastNewlines_newlineTokens]
        exact halternates
      rw [Run.andThen_done, Run.andThen_done, (hother _ hfirst).1, (hother _ hsecond).2]
      exact .done List.suffix_rfl

theorem lookingAt {terminal : Terminal} :
    Steady frame o (Reader.lookingAt terminal) (Reader.lookingAt terminal) ts :=
  any_bind fun _ => pure

theorem accept {terminal : Terminal} :
    Steady frame o (Reader.accept terminal) (Reader.accept terminal) ts := by
  refine lookingAt.bind fun found rest => ?_
  cases found with
  | false => exact pure
  | true => exact skip_bind fun _ => pure

theorem expect {terminal : Terminal} :
    Steady frame o (Reader.expect terminal) (Reader.expect terminal) ts := by
  refine peek_bind (fun _ pos => ?_) fun l pos us _ => ?_
  · split
    · exact skip_bind fun _ => pure
    · exact of_end rfl
  · split
    · exact skip_bind fun _ => pure
    · exact unexpected

/-- **A loop is steady if each of its rounds is**, under any greater bound. -/
theorem many {item item' : Reader (Option α)} (hitem : ∀ ts, Steady frame o item item' ts)
    {rounds rounds' : Nat} (h : rounds ≤ rounds') (ts : List Token) :
    Steady frame o (Reader.many item rounds) (Reader.many item' rounds') ts := by
  induction rounds generalizing rounds' ts with
  | zero => exact exhausted
  | succ rounds ih =>
    obtain ⟨rounds', rfl⟩ := Nat.exists_eq_succ_of_ne_zero (Nat.ne_zero_of_lt h)
    refine (hitem ts).bind fun x rest => ?_
    cases x with
    | none => exact pure
    | some a => exact (ih (Nat.le_of_succ_le_succ h) rest).bind fun _ _ => pure

/-- **A loop with a state is steady if each of its rounds is**, under any greater bound. -/
theorem iterate {step step' : σ → Reader (Option σ)}
    (hstep : ∀ s ts, Steady frame o (step s) (step' s) ts) {rounds rounds' : Nat}
    (h : rounds ≤ rounds') (s : σ) (ts : List Token) :
    Steady frame o (Reader.iterate step rounds s) (Reader.iterate step' rounds' s) ts := by
  induction rounds generalizing rounds' s ts with
  | zero => exact exhausted
  | succ rounds ih =>
    obtain ⟨rounds', rfl⟩ := Nat.exists_eq_succ_of_ne_zero (Nat.ne_zero_of_lt h)
    refine (hstep s ts).bind fun x rest => ?_
    cases x with
    | none => exact pure
    | some s' => exact ih (Nat.le_of_succ_le_succ h) s' rest

end Steady
end Reader

namespace Grammar.Inner

/-- The readers of `inner'` read on in the frame where those of `inner` do, under greater
bounds. -/
structure Steady (frame : Frame) (o : Options) (inner inner' : Inner) : Prop where
  rounds : inner.rounds ≤ inner'.rounds
  expr : ∀ scope ts,
    Reader.Steady frame o (inner.expr scope) (inner'.expr (frame.scope scope)) ts
  block : ∀ scope ts,
    Reader.Steady frame o (inner.block scope) (inner'.block (frame.scope scope)) ts

end Grammar.Inner
end Pug
