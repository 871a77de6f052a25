/-
# Templates that part at a production

Two templates begin with the same tokens, up to the first token of some production. In the first
one the production goes on in some way, and the template is read; in the second one it is refused.
Then the second template is refused with the same error. What stands in front of the production is
read alike, since the production shows no more than its first token to what comes before it.
-/

import Pug.Proofs.Coupling.Ahead
import Pug.Proofs.Reading.Failure

namespace Pug

open Grammar

namespace Coupling

/-- Both readings have `head` ahead, and the second one is refused with `e` from there on. -/
def forked (head : Token) (first second : List Token) (e : ParseError) : Coupling where
  places := .stay
  heeds := False
  refuses := (· = e)
  tokens _ ts ts' := ∃ us, ts = us ++ head :: first ∧ ts' = us ++ head :: second

variable {o : Options} {head t t' : Token} {first second us us' : List Token} {e : ParseError}
  {depth depth' : Nat}

/-- The first tokens are the same. `head` is behind them, or is the first one. -/
theorem forked_cons (h : (forked head first second e).tokens depth (t :: us) (t' :: us')) :
    t' = t ∧ ((forked head first second e).tokens depth' us us' ∨
      t = head ∧ us' = second) := by
  obtain ⟨vs, hts, hts'⟩ := h
  cases vs with
  | nil =>
    obtain ⟨rfl, rfl⟩ := List.cons.inj hts
    obtain ⟨rfl, rfl⟩ := List.cons.inj hts'
    exact ⟨rfl, .inr ⟨rfl, rfl⟩⟩
  | cons v vs =>
    obtain ⟨rfl, rfl⟩ := List.cons.inj hts
    obtain ⟨rfl, rfl⟩ := List.cons.inj hts'
    exact ⟨rfl, .inl ⟨vs, rfl, rfl⟩⟩

/-- A token of another terminal than `head` is gone past by both readings. -/
theorem forked_tail (hhead : head.terminal.parting = true)
    (h : (forked head first second e).tokens depth (t :: us) (t' :: us'))
    (ht : t.terminal.parting = false) : (forked head first second e).tokens depth' us us' := by
  rcases (forked_cons h).2 with htail | ⟨rfl, -⟩
  · exact htail
  · exact absurd (ht.symm.trans hhead) Bool.false_ne_true

end Coupling

/-- **What is refused in front of some tokens is refused from every cursor** with these tokens
ahead, whether or not some of them were put back, unless too little may be nested. -/
theorem Reader.Fails.outcome {m m' : Reader Node} {o : Options} {ts : List Token} {e : ParseError}
    {events : List Event} (hm' : m'.Fails o ts e events)
    (hm : Reader.Coupled (Coupling.relocated .stay) o ((Coupling.relocated .stay).Meets 0) m m'
      fun _ => (Coupling.relocated .stay).Meets 0) {c : Cursor} (hc : c.ahead = ts) :
    (m.run o c).outcome = .failed e ∨ (m.run o c).outcome = .exhausted := by
  have hagrees := hm c (.before c.stop.pos c.ahead) (c.meets_before 0)
  have hrun : m'.run ((Coupling.relocated .stay).places.options o) (.before c.stop.pos c.ahead) =
      ⟨.failed e, events⟩ := hc ▸ hm' c.stop.pos
  rw [hrun] at hagrees
  generalize m.run o c = run at hagrees ⊢
  generalize hfailed : (⟨.failed e, events⟩ : Run Node) = run' at hagrees
  cases hagrees with
  | done => cases hfailed
  | @failed e' _ _ =>
    obtain rfl : e = e' := Outcome.failed.inj (congrArg Run.outcome hfailed)
    exact .inl rfl
  | exhausted => exact .inr rfl
  | exhausted' => cases hfailed
  | refused he => exact he.elim

namespace Coupling

/-- The coupling is sound if no production that begins with `head` is read from there on. -/
theorem sound_forked (hhead : head.terminal.parting = true)
    (hrefused : ∀ n scope (c : Cursor), c.ahead = head :: second →
      ((expr (.ofDepth n) scope).run o c).outcome = .failed e ∨
        ((expr (.ofDepth n) scope).run o c).outcome = .exhausted) :
    (forked head first second e).Sound o where
  nil h := by
    obtain ⟨us, hts, -⟩ := h
    cases us <;> cases hts
  cons h := by
    obtain ⟨us, hts, rfl⟩ := h
    cases us with
    | nil =>
      obtain ⟨rfl, -⟩ := List.cons.inj hts
      exact ⟨_, rfl⟩
    | cons u us =>
      obtain ⟨rfl, -⟩ := List.cons.inj hts
      exact ⟨_, rfl⟩
  step h ht := forked_tail hhead h (Terminal.parting_of_ordinary ht)
  newline h ht := .inl (forked_tail hhead h (by rw [Token.terminal, ht]; rfl))
  enter h ht := forked_tail hhead h (by rw [Token.terminal, ht]; rfl)
  leave h ht := forked_tail hhead h (by rw [Token.terminal, ht]; rfl)
  part h ht := by
    obtain ⟨rfl, htail | ⟨rfl, rfl⟩⟩ := forked_cons h
    · exact .inl htail
    · refine .inr fun n n' scope c c' _ hc' _ => ?_
      have houtcome := hrefused n' scope c' hc'
      change (forked _ _ _ _).Agrees _ _ ((expr (.ofDepth n') scope).run o c')
      generalize (expr (.ofDepth n') scope).run o c' = run' at houtcome ⊢
      obtain ⟨outcome, events⟩ := run'
      rcases houtcome with rfl | rfl
      · exact .refused rfl
      · exact .exhausted'

/-- **A template is refused where a production is** that begins with its `head` behind the tokens
`p`, if some template with these tokens in front is read. -/
theorem failed_of_forked {p left right : List Token} {tree : Block} {rest : Cursor}
    (hp : EosFree p) (hhead : head.terminal.parting = true)
    (hleft : (parse o (p ++ head :: left)).outcome = .done tree rest)
    (hright : ∀ n scope (c : Cursor), c.ahead = head :: beforeEos right →
      ((expr (.ofDepth n) scope).run o c).outcome = .failed e ∨
        ((expr (.ofDepth n) scope).run o c).outcome = .exhausted) :
    (parse o (p ++ head :: right)).outcome = .failed e := by
  have hne : head.lexeme ≠ .eos := Token.lexeme_ne_of_parting hhead rfl
  have hfree : ∀ ts, EosFree (p ++ head :: beforeEos ts) := fun ts =>
    (eosFree_append p _).2 ⟨hp, (eosFree_cons head _).2 ⟨hne, eosFree_beforeEos ts⟩⟩
  -- The first template may as well end where the second one does.
  obtain ⟨d, hd⟩ := exists_derivation_of_parse hleft
  generalize hstop : (Cursor.ofList (p ++ head :: right)).stop = stop
  have heos : stop.lexeme = .eos := hstop ▸ Cursor.stop_lexeme _
  have hreads : d.Reads (p ++ head :: beforeEos left ++ [stop]) := by
    refine ⟨?_, hd.greedy, hd.lawful⟩
    have hnext : (Lookahead.of [stop]).next = .eos := congrArg Lexeme.terminal heos
    rw [hd.tokens_eq, beforeEos_append_cons hp hne, beforeEos_append (hfree left) hnext]
  obtain ⟨rest', hrun⟩ := parse_of_derivation o hreads
  have hmeets : (forked head (beforeEos left) (beforeEos right) e).Meets 0
      (.ofList (p ++ head :: beforeEos left ++ [stop])) (.ofList (p ++ head :: right)) := by
    refine ⟨⟨p, Cursor.ahead_ofList_eos (hfree left) heos [], ?_⟩, ?_⟩
    · exact beforeEos_append_cons hp hne
    · rw [Cursor.stop_ofList_eos (hfree left) heos [], hstop]
      rfl
  have hagrees := (sound_forked hhead hright).agrees_items hmeets
  change (forked _ _ _ _).Agrees _ _ ((items (.ofDepth (budget (p ++ head :: right))) .outermost
    .eos).run o (.ofList (p ++ head :: right))) at hagrees
  have hexhausted : (parse o (p ++ head :: right)).outcome ≠ .exhausted :=
    document_ne_exhausted o (Nat.le_refl _)
  rw [parse_eq] at hrun hexhausted ⊢
  generalize (items (.ofDepth (budget (_ ++ [stop]))) _ _).run o _ = run at hagrees hrun
  generalize (items _ _ _).run o _ = run' at *
  cases hagrees with
  | @done _ c _ _ _ hc =>
    -- The end of the stream is not in front of `head`.
    obtain ⟨⟨⟨us, hahead, -⟩, -⟩, hpeek⟩ := hc
    have hmem : c.peek ∈ c.ahead := by
      rw [c.peek_eq, hahead]
      cases us <;> exact List.mem_cons_self
    exact absurd (Lexeme.eq_of_terminal hpeek rfl) (c.eosFree_ahead _ hmem)
  | failed => cases hrun
  | exhausted => cases hrun
  | exhausted' => exact absurd rfl hexhausted
  | refused he =>
    obtain rfl := he
    rfl

end Coupling
end Pug
