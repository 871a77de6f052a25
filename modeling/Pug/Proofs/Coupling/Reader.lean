/-
# Readers side by side

`Coupled k o P m m' Q`: the runs of `m` and `m'` agree from any two cursors of which `P` holds. Each
way to make a reader from others has its rule here: sequences, values, looking at the current token,
going past it, and loops. In a loop the first reading may have rounds without a node which the second
one does not have (`Lags`).
-/

import Pug.Proofs.Coupling.Basic

namespace Pug

namespace Reader

open Coupling

variable {α β σ : Type} [Movable α] [Movable β] [Movable σ]

/-- From cursors of which `P` holds, the runs of `m` and `m'` agree. -/
def Coupled (k : Coupling) (o : Options) (P : Cursor → Cursor → Prop) (m m' : Reader α)
    (Q : α → Cursor → Cursor → Prop) : Prop :=
  ∀ c c', P c c' → k.Agrees Q (m.run o c) (m'.run (k.places.options o) c')

/-- What a round of a loop leaves: `P` if it is not the last one, and `Q` if it is. -/
def Leaves (P Q : Cursor → Cursor → Prop) : Option α → Cursor → Cursor → Prop
  | none => Q
  | some _ => P

variable {k : Coupling} {o : Options} {depth : Nat} {P P' : Cursor → Cursor → Prop}
  {R : β → Cursor → Cursor → Prop} {t : Token}

namespace Coupled

section Basic

variable {m m' : Reader α} {f f' : α → Reader β} {Q Q' : α → Cursor → Cursor → Prop}

theorem mono (h : Coupled k o P m m' Q) (hP : ∀ c c', P' c c' → P c c')
    (hQ : ∀ a c c', Q a c c' → Q' a c c') : Coupled k o P' m m' Q' :=
  fun c c' hc => (h c c' (hP c c' hc)).mono hQ

/-- What is known of the current token need not be used. -/
theorem of_at (h : Coupled k o (k.Meets depth) m m' Q) : Coupled k o (k.At depth t) m m' Q :=
  fun c c' hc => h c c' hc.1

theorem of_past (h : Coupled k o (k.Meets depth) m m' Q) : Coupled k o (k.Past depth t) m m' Q :=
  fun c c' hc => h c c' hc.1

/-- A condition that holds in both readings or in none of them. -/
theorem ite {p : Prop} [Decidable p] {n n' : Reader α} (h : p → Coupled k o P m m' Q)
    (h' : ¬ p → Coupled k o P n n' Q) :
    Coupled k o P (if p then m else n) (if p then m' else n') Q := by
  by_cases hp : p
  · rw [if_pos hp, if_pos hp]
    exact h hp
  · rw [if_neg hp, if_neg hp]
    exact h' hp

/-- **A sequence is coupled** if its readers are, one after the other. -/
theorem bind (hm : Coupled k o P m m' Q)
    (hf : ∀ a, Coupled k o (Q a) (f a) (f' (k.places.move a)) R) :
    Coupled k o P (m >>= f) (m' >>= f') R :=
  fun c c' hc => (hm c c' hc).andThen fun a rest rest' hrest => hf a rest rest' hrest

/-- A value that is found at another place. -/
theorem pure {a : α} :
    Coupled k o P (Pure.pure a) (Pure.pure (k.places.move a)) fun _ => P :=
  fun _ _ hc => .done hc heard_nil

theorem pure_eq {a a' : α} (h : k.places.move a = a') :
    Coupled k o P (Pure.pure a) (Pure.pure a') fun _ => P :=
  h ▸ pure

theorem map {g : α → β} {g' : α → β} (hm : Coupled k o P m m' fun _ => P')
    (hg : ∀ a, k.places.move (g a) = g' (k.places.move a)) :
    Coupled k o P (g <$> m) (g' <$> m') fun _ => P' := by
  rw [map_eq_pure_bind, map_eq_pure_bind]
  exact hm.bind fun a => pure_eq (hg a)

/-- The value with which a loop ends. -/
theorem stop : Coupled k o P' (Pure.pure (none : Option α)) (Pure.pure none) (Leaves P P') :=
  fun _ _ hc => @Agrees.done _ _ k (Leaves P P') none _ _ _ _ hc heard_nil

/-- A loop ends in front of a token of a terminal. -/
theorem stop_at {terminal : Terminal} (ht : t.terminal = terminal) :
    Coupled k o (k.At depth t) (Pure.pure (none : Option α)) (Pure.pure none)
      (Leaves P (k.Stops depth terminal)) :=
  stop.mono (fun _ _ hc => ⟨hc.1, hc.2 ▸ ht⟩) fun _ _ _ h => h

/-- A value with which a loop goes on. -/
theorem round {a : α} :
    Coupled k o P (Pure.pure (some a)) (Pure.pure (some (k.places.move a))) (Leaves P P') :=
  fun _ _ hc => @Agrees.done _ _ k (Leaves P P') (some a) _ _ _ _ hc heard_nil

theorem round_eq {a a' : α} (h : k.places.move a = a') :
    Coupled k o P (Pure.pure (some a)) (Pure.pure (some a')) (Leaves P P') :=
  h ▸ round

theorem exhausted : Coupled k o P Reader.exhausted m' Q := fun _ _ _ => .exhausted

theorem exhausted' : Coupled k o P m Reader.exhausted Q := fun _ _ _ => .exhausted'

theorem reject {fault : Fault} {pos : Position} :
    Coupled k o P (Reader.reject fault pos : Reader α) (Reader.reject fault (k.places.pos pos)) Q :=
  fun _ _ _ => .failed heard_nil

theorem unexpected {expected : List Terminal} :
    Coupled k o P (Reader.unexpected t expected : Reader α)
      (Reader.unexpected (k.places.move t) expected) Q :=
  fun _ _ _ => .failed heard_nil

theorem options_bind {g g' : Options → Reader β}
    (h : Coupled k o P (g o) (g' (k.places.options o)) R) :
    Coupled k o P (options >>= g) (options >>= g') R := fun c c' hc => h c c' hc

theorem locate_bind {pos : Position} {g g' : Location → Reader β}
    (h : ∀ loc, Coupled k o P (g loc) (g' (k.places.move loc)) R) :
    Coupled k o P (locate pos >>= g) (locate (k.places.pos pos) >>= g') R :=
  fun c c' hc => h ⟨pos, o.filename⟩ c c' hc

/-- The second reading raises the same warning at the place that corresponds. -/
theorem warn {advice : Advice} {loc : Location} :
    Coupled k o P (Reader.warn advice loc) (Reader.warn advice (k.places.move loc)) fun _ => P :=
  fun _ _ hc => @Agrees.done _ _ k _ () _ _ _ _ hc fun _ => rfl

/-- A warning that is raised under a condition on which the readings agree. -/
theorem warnIf {condition : Bool} {advice : Advice} {loc : Location} :
    Coupled k o P (Reader.emitIf condition (.warned ⟨advice, loc⟩))
      (Reader.emitIf condition (.warned ⟨advice, k.places.move loc⟩)) fun _ => P := by
  cases condition with
  | false => exact pure
  | true => exact warn

/-- An event that is no warning may be another one in the second reading. -/
theorem emit {e e' : Event} (he : e.warning? = none) (he' : e'.warning? = none) :
    Coupled k o P (Reader.emit e) (Reader.emit e') fun _ => P :=
  fun _ _ hc => @Agrees.done _ _ k _ () _ _ _ _ hc (heard_silent (by simp [he]) (by simp [he']))

/-- Cursors behind whose tokens the readings meet are gone past. -/
theorem go_bind {g g' : Unit → Reader β} (h : Coupled k o (k.Meets depth) (g ()) (g' ()) R) :
    Coupled k o (k.Goes depth t) (skip >>= g) (skip >>= g') R :=
  fun c c' hc => h c.advance c'.advance hc.2

/-- Nor need both readings have such an event. -/
theorem emitIf {condition condition' : Bool} {e e' : Event} (he : e.warning? = none)
    (he' : e'.warning? = none) :
    Coupled k o P (Reader.emitIf condition e) (Reader.emitIf condition' e') fun _ => P := by
  have hsilent : ∀ (b : Bool) (e : Event), e.warning? = none →
      (if b then [e] else []).filterMap Event.warning? = [] := by
    intro b e he
    cases b <;> simp [he]
  intro c c' hc
  rw [run_emitIf, run_emitIf]
  exact @Agrees.done _ _ k _ () _ _ _ _ hc
    (heard_silent (hsilent condition e he) (hsilent condition' e' he'))

/-- A token that is put back and taken at once is of no account. -/
theorem defer_skip_bind {t' : Token} {g g' : Unit → Reader β}
    (h : Coupled k o P (g ()) (g' ()) R) :
    Coupled k o P (defer t >>= fun _ => skip >>= g) (defer t' >>= fun _ => skip >>= g') R := by
  intro c c' hc
  simp only [run_bind, run_defer, run_skip, Run.andThen_done, Run.after_nil]
  exact (h c c' hc).after (heard_silent rfl rfl)

end Basic

section Steps

variable (hk : k.Sound o) {f f' : Token → Reader β} {g g' : Unit → Reader β}
include hk

/-- A current token that is known is seen by both readings. -/
theorem at_bind (h : Coupled k o (k.At depth t) (f t) (f' (k.places.move t)) R) :
    Coupled k o (k.At depth t) (peek >>= f) (peek >>= f') R := by
  rintro c c' ⟨hc, rfl⟩
  rw [run_bind, run_bind, run_peek, run_peek, hk.peek_eq hc]
  exact h c c' ⟨hc, rfl⟩

/-- **The current tokens correspond.** -/
theorem peek_bind
    (h : ∀ l pos, Coupled k o (k.At depth ⟨l, pos⟩) (f ⟨l, pos⟩) (f' ⟨l, k.places.pos pos⟩) R) :
    Coupled k o (k.Meets depth) (peek >>= f) (peek >>= f') R :=
  fun c c' hc => at_bind hk (h c.peek.lexeme c.peek.pos) c c' ⟨hc, rfl⟩

/-- The same where it is known besides that the cursors behind the tokens meet. -/
theorem goes_bind (h : Coupled k o (k.Goes depth t) (f t) (f' (k.places.move t)) R) :
    Coupled k o (k.Goes depth t) (peek >>= f) (peek >>= f') R := by
  rintro c c' ⟨⟨hc, rfl⟩, hbehind⟩
  rw [run_bind, run_bind, run_peek, run_peek, hk.peek_eq hc]
  exact h c c' ⟨⟨hc, rfl⟩, hbehind⟩

/-- An ordinary token is gone past by both readings. -/
theorem take_bind (ht : t.terminal.ordinary = true)
    (h : Coupled k o (k.Meets depth) (g ()) (g' ()) R) :
    Coupled k o (k.At depth t) (skip >>= g) (skip >>= g') R := by
  intro c c' hc
  have hne : t.lexeme ≠ .eos := by
    intro heos
    rw [Token.terminal, heos] at ht
    cases ht
  exact h c.advance c'.advance
    (hk.meets_advance hc hne fun _ _ htokens => hk.step htokens ht)

/-- So is one of which no more than the terminal is known. -/
theorem stop_bind {terminal : Terminal} (hterminal : terminal.ordinary = true)
    (h : Coupled k o (k.Meets depth) (g ()) (g' ()) R) :
    Coupled k o (k.Stops depth terminal) (skip >>= g) (skip >>= g') R := by
  rintro c c' ⟨hc, rfl⟩
  exact take_bind hk hterminal h c c' ⟨hc, rfl⟩

/-- A verbatim region begins. -/
theorem enter_bind {pos : Position} (h : Coupled k o (k.Meets (depth + 1)) (g ()) (g' ()) R) :
    Coupled k o (k.At depth ⟨.startPipelessText, pos⟩) (skip >>= g) (skip >>= g') R :=
  fun c c' hc => h c.advance c'.advance
    (hk.meets_advance hc nofun fun _ _ htokens => hk.enter htokens rfl)

/-- A verbatim region ends. -/
theorem leave_bind {pos : Position} (h : Coupled k o (k.Meets depth) (g ()) (g' ()) R) :
    Coupled k o (k.At (depth + 1) ⟨.endPipelessText, pos⟩) (skip >>= g) (skip >>= g') R :=
  fun c c' hc => h c.advance c'.advance
    (hk.meets_advance hc nofun fun _ _ htokens => hk.leave htokens rfl)

/-- In a verbatim region both readings go past a line break. -/
theorem break_bind {pos : Position} (h : Coupled k o (k.Meets (depth + 1)) (g ()) (g' ()) R) :
    Coupled k o (k.At (depth + 1) ⟨.newline, pos⟩) (skip >>= g) (skip >>= g') R := by
  intro c c' hc
  rcases hk.meets_newline hc rfl with hmeets | ⟨hdepth, -⟩
  · exact h c.advance c'.advance hmeets
  · cases hdepth

theorem past_bind
    (h : ∀ l pos, Coupled k o (k.Past depth ⟨l, pos⟩) (f ⟨l, pos⟩) (f' ⟨l, k.places.pos pos⟩) R) :
    Coupled k o (k.Meets depth) (peekPastNewlines >>= f) (peekPastNewlines >>= f') R := by
  intro c c' hc
  have hpeek : c'.peekPastNewlines = k.places.move c.peekPastNewlines :=
    hk.peek_eq (hk.meets_skipNewlines hc)
  rw [run_bind, run_bind, run_peekPastNewlines, run_peekPastNewlines, hpeek]
  exact h c.peekPastNewlines.lexeme c.peekPastNewlines.pos c c' ⟨hc, rfl⟩

theorem skipNewlines :
    Coupled k o (k.Meets depth) Reader.skipNewlines Reader.skipNewlines fun _ => k.Meets depth :=
  fun _ _ hc => @Agrees.done _ _ k _ () _ _ _ _ (hk.meets_skipNewlines hc) heard_nil

/-- Past the line breaks the first token that is none is the current one. -/
theorem skipNewlines_past :
    Coupled k o (k.Past depth t) Reader.skipNewlines Reader.skipNewlines fun _ => k.At depth t :=
  fun _ _ hc =>
    @Agrees.done _ _ k _ () _ _ _ _ ⟨hk.meets_skipNewlines hc.1, hc.2⟩ heard_nil

theorem lookingAt {terminal : Terminal} :
    Coupled k o (k.Meets depth) (Reader.lookingAt terminal) (Reader.lookingAt terminal)
      fun _ => k.Meets depth :=
  peek_bind hk fun _ _ => of_at pure

theorem lookingAt_bind {terminal : Terminal} {b b' : Bool → Reader β}
    (h : ∀ l pos found, decide (l.terminal = terminal) = found →
      Coupled k o (k.At depth ⟨l, pos⟩) (b found) (b' found) R) :
    Coupled k o (k.Meets depth) (Reader.lookingAt terminal >>= b)
      (Reader.lookingAt terminal >>= b') R := by
  unfold Reader.lookingAt
  simp only [bind_assoc, pure_bind]
  exact peek_bind hk fun l pos => h l pos _ rfl

/-- The current token, if it is of a terminal, is gone past. -/
theorem accept (terminal : Terminal) (hterminal : terminal.ordinary = true) :
    Coupled k o (k.Meets depth) (Reader.accept terminal) (Reader.accept terminal)
      fun _ => k.Meets depth := by
  refine lookingAt_bind hk fun l pos found hfound => ?_
  cases found with
  | false => exact of_at pure
  | true =>
    obtain rfl : l.terminal = terminal := of_decide_eq_true hfound
    exact take_bind hk hterminal pure

/-- A verbatim region begins, or it does not. -/
theorem accept_region :
    Coupled k o (k.Meets depth) (Reader.accept .startPipelessText)
      (Reader.accept .startPipelessText)
      fun found => k.Meets (if found then depth + 1 else depth) := by
  refine lookingAt_bind hk fun l pos found hfound => ?_
  cases found with
  | false => exact of_at fun c c' hc => .done hc heard_nil
  | true =>
    obtain rfl : l = .startPipelessText := Lexeme.eq_of_terminal (of_decide_eq_true hfound) rfl
    exact enter_bind hk fun c c' hc => .done hc heard_nil

/-- The current token has to be of a terminal. -/
theorem expect (terminal : Terminal) (hterminal : terminal.ordinary = true) :
    Coupled k o (k.Meets depth) (Reader.expect terminal) (Reader.expect terminal)
      fun _ => k.Meets depth := by
  refine peek_bind hk fun l pos => ite (fun hl => ?_) fun _ => unexpected
  exact take_bind hk (hl ▸ hterminal) pure

end Steps

section Loops

variable {item item' : Reader (Option α)}

/-- **A loop is coupled if each of its rounds is.** -/
theorem many (hitem : Coupled k o P item item' (Leaves P P')) (rounds rounds' : Nat) :
    Coupled k o P (Reader.many item rounds) (Reader.many item' rounds') fun _ => P' := by
  induction rounds generalizing rounds' with
  | zero => exact exhausted
  | succ rounds ih =>
    cases rounds' with
    | zero => exact exhausted'
    | succ rounds' =>
      refine hitem.bind fun x => ?_
      cases x with
      | none => exact pure
      | some a => exact (ih rounds').bind fun as => pure

/-- **A loop with a state is coupled if each of its rounds is.** -/
theorem iterate {step step' : σ → Reader (Option σ)}
    (hstep : ∀ s, Coupled k o P (step s) (step' (k.places.move s)) (Leaves P P'))
    (rounds rounds' : Nat) (s : σ) :
    Coupled k o P (Reader.iterate step rounds s)
      (Reader.iterate step' rounds' (k.places.move s)) fun _ => P' := by
  induction rounds generalizing rounds' s with
  | zero => exact exhausted
  | succ rounds ih =>
    cases rounds' with
    | zero => exact exhausted'
    | succ rounds' =>
      refine (hstep s).bind fun x => ?_
      cases x with
      | none => exact pure
      | some s' => exact ih rounds' s'

end Loops

end Coupled

/-- Each round of a loop of the first reading agrees with one of the second reading, or it is a
round without a node, and the second reading has already gone past what it goes past. -/
def Lags (k : Coupling) (o : Options) (depth : Nat) (item item' : Reader (Option (List Node)))
    (Q : Cursor → Cursor → Prop) : Prop :=
  ∀ c c', k.Meets depth c c' →
    k.Agrees (Leaves (k.Meets depth) Q) (item.run o c) (item'.run (k.places.options o) c') ∨
    ∃ rest, item.run o c = ⟨.done (some []) rest, []⟩ ∧ k.Meets depth rest c'

namespace Lags

variable {item item' : Reader (Option (List Node))} {Q : Cursor → Cursor → Prop}

/-- The nodes of a loop, round by round. -/
theorem flatten_many_succ (item : Reader (Option (List Node))) (rounds : Nat) :
    List.flatten <$> many item (rounds + 1) = item >>= fun x =>
      match x with
      | none => Pure.pure []
      | some nodes => (nodes ++ ·) <$> (List.flatten <$> many item rounds) := by
  rw [many, map_bind]
  refine bind_congr fun x => ?_
  cases x with
  | none => rfl
  | some nodes => simp only [map_eq_pure_bind, bind_assoc, pure_bind, List.flatten_cons]

/-- **The nodes of a loop correspond,** whatever rounds without a node the first reading has more
than the second one. -/
theorem flatten_many (hitem : Lags k o depth item item' Q) (rounds rounds' : Nat) :
    Coupled k o (k.Meets depth) (List.flatten <$> many item rounds)
      (List.flatten <$> many item' rounds') fun _ => Q := by
  induction rounds generalizing rounds' with
  | zero => exact fun _ _ _ => .exhausted
  | succ rounds ih =>
    intro c c' hc
    rcases hitem c c' hc with hagrees | ⟨rest, hrun, hrest⟩
    · cases rounds' with
      | zero => exact .exhausted'
      | succ rounds' =>
        rw [flatten_many_succ, flatten_many_succ, run_bind, run_bind]
        refine hagrees.andThen fun x c c' hx => ?_
        cases x with
        | none => exact .done hx heard_nil
        | some nodes => exact (ih rounds').map (move_append k.places nodes) c c' hx
    · -- The second reading stays where it is and has all its rounds left.
      rw [flatten_many_succ, run_bind, hrun, Run.andThen_done, Run.after_nil]
      have hsame : ([] ++ · : List Node → List Node) = id := rfl
      simp only [hsame, id_map]
      exact ih rounds' rest c' hrest

/-- Rounds are told apart by the token that they begin with. -/
theorem of_peek (hk : k.Sound o) {f f' : Token → Reader (Option (List Node))}
    (hline : ∀ pos c c', k.At depth ⟨.newline, pos⟩ c c' →
      k.Agrees (Leaves (k.Meets depth) Q) ((f ⟨.newline, pos⟩).run o c)
        ((f' ⟨.newline, k.places.pos pos⟩).run (k.places.options o) c') ∨
      ∃ rest, (f ⟨.newline, pos⟩).run o c = ⟨.done (some []) rest, []⟩ ∧ k.Meets depth rest c')
    (hother : ∀ l pos, l ≠ .newline → Coupled k o (k.At depth ⟨l, pos⟩) (f ⟨l, pos⟩)
      (f' ⟨l, k.places.pos pos⟩) (Leaves (k.Meets depth) Q)) :
    Lags k o depth (peek >>= f) (peek >>= f') Q := by
  intro c c' hc
  obtain ⟨l, pos, hat⟩ : ∃ l pos, c.peek = ⟨l, pos⟩ := ⟨_, _, rfl⟩
  have hpeek : c'.peek = ⟨l, k.places.pos pos⟩ := by
    rw [hk.peek_eq hc, hat]
    rfl
  rw [run_bind, run_bind, run_peek, run_peek, Run.andThen_done, Run.andThen_done, Run.after_nil,
    Run.after_nil, hpeek, hat]
  by_cases hl : l = .newline
  · subst hl
    exact hline pos c c' ⟨hc, hat⟩
  · exact .inl (hother l pos hl c c' ⟨hc, hat⟩)

/-- A round that begins at a line break goes past it and adds no node. -/
theorem of_blank (hk : k.Sound o) {f f' : Token → Reader (Option (List Node))}
    (hline : ∀ pos, f ⟨.newline, pos⟩ = skip >>= fun _ => Pure.pure (some []))
    (hline' : ∀ pos, f' ⟨.newline, pos⟩ = skip >>= fun _ => Pure.pure (some []))
    (hother : ∀ l pos, l ≠ .newline → Coupled k o (k.At depth ⟨l, pos⟩) (f ⟨l, pos⟩)
      (f' ⟨l, k.places.pos pos⟩) (Leaves (k.Meets depth) Q)) :
    Lags k o depth (peek >>= f) (peek >>= f') Q := by
  refine of_peek hk (fun pos c c' hc => ?_) hother
  rw [hline, hline']
  rcases hk.meets_newline hc rfl with hboth | ⟨-, hone⟩
  · exact .inl (@Agrees.done _ _ k (Leaves _ Q) (some []) _ _ _ _ hboth heard_nil)
  · exact .inr ⟨c.advance, rfl, hone⟩

/-- A loop and what is made of its nodes. -/
theorem bind {g g' : List Node → Reader β} (hitem : Lags k o depth item item' Q)
    (rounds rounds' : Nat)
    (hg : ∀ nodes nodes', k.places.move nodes = nodes' → Coupled k o Q (g nodes) (g' nodes') R) :
    Coupled k o (k.Meets depth) (many item rounds >>= fun xs => g xs.flatten)
      (many item' rounds' >>= fun xs => g' xs.flatten) R := by
  have h := (hitem.flatten_many rounds rounds').bind fun nodes => hg nodes _ rfl
  rwa [bind_map_left, bind_map_left] at h

end Lags
end Reader

namespace Grammar.Inner

/-- What the readers of `inner'` read in the second reading corresponds to what those of `inner`
read in the first one. -/
structure Coupled (k : Coupling) (o : Options) (inner inner' : Inner) : Prop where
  expr : ∀ depth scope, Reader.Coupled k o (k.Meets depth) (inner.expr scope) (inner'.expr scope)
    fun _ => k.Meets depth
  block : ∀ depth scope, Reader.Coupled k o (k.Meets depth) (inner.block scope)
    (inner'.block scope) fun _ => k.Meets depth

end Grammar.Inner
end Pug
