/-
# Lists with an endless end-of-stream tail

What can be observed of a cursor is that of a list of tokens with endless end-of-stream
tokens behind it. In such a list the token some places ahead is an index into the list,
the current token is its head, which is dropped when it is gone past, and a token that is
put back becomes its head; behind the end there is always the same end-of-stream token.

Two ways to hold a cursor are seen as such a list: the lists of `Cursor`, which the parser
reads from, and the arrays of `Stacks`. One is viewed as the next so that every operation
commutes with the view (`TokenSource.Refines`), and then every session has the same answers.
-/

import Pug.Token.Stacks

namespace Pug

open TokenSource

/-- A list of tokens with endless end-of-stream tokens behind it. -/
structure Endless where
  tokens : List Token
  eos : Token

namespace Endless

/-- The list of the tokens of an input. The end of the stream is at the last one of them. -/
def ofList (tokens : List Token) : Endless where
  tokens := tokens
  eos :=
    match tokens.getLast? with
    | some t => ⟨.eos, t.pos⟩
    | none => ⟨.eos, ⟨1, 1⟩⟩

/-- The token at an index. -/
def nth (l : Endless) (n : Nat) : Token := l.tokens.getD n l.eos

instance : TokenSource Endless where
  peek l := l.nth 0
  lookahead l n := l.nth n
  advance l :=
    match l.tokens with
    | [] => (l.eos, l)
    | t :: ts => (t, { l with tokens := ts })
  defer l t := { l with tokens := t :: l.tokens }

end Endless

namespace TokenSource

variable {σ τ : Type} [TokenSource σ] [TokenSource τ]

/-- Every operation on a state commutes with the view of it as a state of another source. -/
structure Refines (view : σ → τ) : Prop where
  peek : ∀ s, peek (view s) = peek s
  lookahead : ∀ s n, lookahead (view s) n = lookahead s n
  advance : ∀ s, advance (view s) = Prod.map id view (advance s)
  defer : ∀ s t, defer (view s) t = view (defer s t)

theorem Refines.step_view {view : σ → τ} (h : Refines view) (s : σ) (op : Operation) :
    step (view s) op = Prod.map id view (step s op) := by
  cases op with
  | peek => exact Prod.ext (congrArg some (h.peek s)) rfl
  | lookahead n => exact Prod.ext (congrArg some (h.lookahead s n)) rfl
  | advance =>
    show Prod.map some id (TokenSource.advance (view s)) = _
    rw [h.advance s]
    rfl
  | defer t => exact Prod.ext rfl (h.defer s t)

/-- **A view with which every operation commutes keeps the answers of every session.** -/
theorem Refines.answers_view {view : σ → τ} (h : Refines view) (s : σ) (ops : List Operation) :
    answers (view s) ops = answers s ops := by
  induction ops generalizing s with
  | nil => rfl
  | cons op ops ih =>
    rw [answers, answers, h.step_view s op]
    exact congrArg _ (ih _)

/-- **Looks leave no trace:** the state behind a session is the one behind its moves. -/
theorem after_filter_moves (s : σ) (ops : List Operation) :
    after s (ops.filter (·.moves)) = after s ops := by
  induction ops generalizing s with
  | nil => rfl
  | cons op ops ih =>
    cases op with
    | peek | lookahead n => exact ih s
    | advance | defer t => exact ih _

end TokenSource

namespace Cursor

/-- The tokens before a cursor, and those behind them. -/
def endless (c : Cursor) : Endless := ⟨c.toList, c.eos⟩

theorem endless_ofList (tokens : List Token) : (ofList tokens).endless = .ofList tokens := by
  unfold endless Endless.ofList
  congr 1
  cases h : tokens.getLast? with
  | none => simp [ofList, eos, h, Position.first]
  | some t => simp [ofList, eos, h]

/-- **A cursor is a list with an endless tail.** -/
theorem refines_endless : Refines endless where
  peek c := (lookahead_eq c 0).symm
  lookahead c n := (lookahead_eq c n).symm
  advance c := by
    have hpeek : c.peek = c.toList.getD 0 c.eos := lookahead_eq c 0
    have heos : c.advance.eos = c.eos := congrArg (Token.mk .eos) (finish_advance c)
    show TokenSource.advance (Endless.mk c.toList c.eos) =
      (c.peek, Endless.mk c.advance.toList c.advance.eos)
    rw [hpeek, heos, toList_advance]
    cases c.toList with
    | nil => rfl
    | cons t ts => rfl
  defer c t := rfl

end Cursor

namespace Stacks

theorem cursor_ofList (tokens : List Token) : (ofList tokens).cursor = .ofList tokens := by
  simp [ofList, cursor, Cursor.ofList]

/-- An index counted from the end of an array. -/
theorem getElem?_toList_reverse (tokens : Array Token) {n : Nat} (h : n < tokens.size) :
    tokens.toList.reverse[n]? = tokens[tokens.size - n - 1]? := by
  have hindex : tokens.size - 1 - n = tokens.size - n - 1 := by omega
  rw [List.getElem?_reverse (by simpa using h)]
  simp [hindex]

/-- Counted down to below zero, an index is behind the first token. -/
theorem fromEnd_eq (tokens : Array Token) (n : Nat) :
    fromEnd tokens n = tokens.toList.reverse[n]? := by
  rcases Nat.lt_trichotomy n tokens.size with h | h | h
  · have hle : n ≤ tokens.size := Nat.le_of_lt h
    have hpos : 1 ≤ tokens.size - n := by omega
    rw [getElem?_toList_reverse tokens h]
    simp [fromEnd, minus?, hle, hpos]
  · have hbehind : tokens.toList.reverse[n]? = none := by simp [h]
    rw [hbehind]
    simp [fromEnd, minus?, h]
  · have hbehind : tokens.toList.reverse[n]? = none := by simpa using Nat.le_of_lt h
    have hbelow : ¬ n ≤ tokens.size := by omega
    rw [hbehind]
    simp [fromEnd, minus?, hbelow]

theorem lookahead_cursor (s : Stacks) (n : Nat) : s.cursor.lookahead n = s.lookahead n := by
  have hsize : s.cursor.deferred.length = s.deferred.size := by simp [cursor]
  unfold Cursor.lookahead lookahead
  rw [hsize]
  split
  · rename_i h
    rw [← getElem?_toList_reverse s.deferred h, ← List.getD_eq_getElem?_getD]
    rfl
  · rw [fromEnd_eq, ← List.getD_eq_getElem?_getD]
    rfl

/-- What is popped is the current token, and what is left is behind it. -/
theorem advance_cursor (s : Stacks) :
    (s.cursor.peek, s.cursor.advance) = Prod.map id cursor s.advance := by
  rcases s with ⟨upcoming, deferred, finish⟩
  -- The stack that is popped is `older` or `later` with the current token pushed onto it.
  unfold advance
  split
  · rename_i t h
    obtain ⟨older, rfl⟩ := Array.back?_eq_some_iff.1 h
    simp [cursor, Cursor.peek, Cursor.lookahead, Cursor.advance]
  · rename_i h
    obtain rfl := Array.back?_eq_none_iff.1 h
    split
    · rename_i t h
      obtain ⟨later, rfl⟩ := Array.back?_eq_some_iff.1 h
      simp [cursor, Cursor.peek, Cursor.lookahead, Cursor.advance]
    · rename_i h
      obtain rfl := Array.back?_eq_none_iff.1 h
      simp [cursor, Cursor.peek, Cursor.lookahead, Cursor.advance, eos, Cursor.eos]

/-- **Two stacks are a cursor.** -/
theorem refines_cursor : Refines cursor where
  peek s := lookahead_cursor s 0
  lookahead s n := lookahead_cursor s n
  advance s := advance_cursor s
  defer s t := by
    show s.cursor.defer t = (s.defer t).cursor
    simp [cursor, defer, Cursor.defer]

end Stacks

/-- **A cursor is a list with an endless end-of-stream tail, whichever way it is held.** In
every session, the arrays and the lists give the answers of that list, and their states are
the same as without the looks. -/
theorem answers_eq_endless (tokens : List Token) (ops : List Operation) :
    answers (Stacks.ofList tokens) ops = answers (Endless.ofList tokens) ops ∧
    answers (Cursor.ofList tokens) ops = answers (Endless.ofList tokens) ops ∧
    after (Stacks.ofList tokens) (ops.filter (·.moves)) = after (Stacks.ofList tokens) ops ∧
    after (Cursor.ofList tokens) (ops.filter (·.moves)) = after (Cursor.ofList tokens) ops := by
  have hcursor : answers (Cursor.ofList tokens) ops = answers (Endless.ofList tokens) ops := by
    rw [← Cursor.endless_ofList, Cursor.refines_endless.answers_view]
  have hstacks : answers (Stacks.ofList tokens) ops = answers (Cursor.ofList tokens) ops := by
    rw [← Stacks.cursor_ofList, Stacks.refines_cursor.answers_view]
  exact ⟨hstacks.trans hcursor, hcursor, after_filter_moves _ ops, after_filter_moves _ ops⟩

/-- **Tokens that were put back come first, and behind the end is the end of the stream.** -/
example : answers (Stacks.ofList [⟨.dot, ⟨1, 5⟩⟩])
    [.defer ⟨.colon, ⟨9, 1⟩⟩, .lookahead 1, .lookahead 2, .advance, .advance, .advance, .peek] =
    [none, some ⟨.dot, ⟨1, 5⟩⟩, some ⟨.eos, ⟨1, 5⟩⟩, some ⟨.colon, ⟨9, 1⟩⟩, some ⟨.dot, ⟨1, 5⟩⟩,
      some ⟨.eos, ⟨1, 5⟩⟩, some ⟨.eos, ⟨1, 5⟩⟩] := by decide

end Pug
