/-
# A cursor over tokens

A cursor stands before the tokens that are still to be read. Tokens can be put
back in front of it. Behind the last token the input goes on for ever with
end-of-stream tokens at the position of the last token, so that there is always
a current token.

A cursor is seen as the list `Cursor.toList` of the tokens before it: looking
ahead indexes the list, advancing drops its head, putting back adds a head.
-/

import Pug.Token.Basic

namespace Pug

/-- The tokens still to be read: those put back, the last one first, and then
those of the input. -/
structure Cursor where
  /-- The tokens that were put back and not yet read again. -/
  deferred : List Token
  /-- The tokens of the input that were not yet read. -/
  upcoming : List Token
  /-- Where the input ends. -/
  finish : Position
  deriving DecidableEq

namespace Cursor

/-- The cursor before the first token of an input. -/
def ofList (tokens : List Token) : Cursor where
  deferred := []
  upcoming := tokens
  finish := (tokens.getLast?.map Token.pos).getD .first

/-- The tokens before the cursor, without the end-of-stream tokens behind them. -/
def toList (c : Cursor) : List Token := c.deferred ++ c.upcoming

/-- The token behind the last one. -/
def eos (c : Cursor) : Token := ⟨.eos, c.finish⟩

/-- The token `n` places ahead of the current one. -/
def lookahead (c : Cursor) (n : Nat) : Token :=
  if n < c.deferred.length then c.deferred.getD n c.eos
  else c.upcoming.getD (n - c.deferred.length) c.eos

/-- The current token. -/
def peek (c : Cursor) : Token := c.lookahead 0

/-- The cursor behind the current token. -/
def advance (c : Cursor) : Cursor :=
  match c.deferred with
  | _ :: deferred => { c with deferred }
  | [] => { c with upcoming := c.upcoming.tail }

/-- The cursor with a token put back in front of it. -/
def defer (c : Cursor) (t : Token) : Cursor := { c with deferred := t :: c.deferred }

/-- The cursor behind all line breaks that come next. -/
def skipNewlines (c : Cursor) : Cursor :=
  match c.deferred.dropWhile Token.isNewline with
  | [] => { c with deferred := [], upcoming := c.upcoming.dropWhile Token.isNewline }
  | deferred => { c with deferred }

/-- The first token that is no line break. -/
def peekPastNewlines (c : Cursor) : Token := c.skipNewlines.peek

@[simp] theorem toList_ofList (tokens : List Token) : (ofList tokens).toList = tokens := rfl

@[simp] theorem toList_defer (c : Cursor) (t : Token) : (c.defer t).toList = t :: c.toList := rfl

/-- **Looking ahead indexes the list of tokens,** and gives the end-of-stream
token behind its end. -/
theorem lookahead_eq (c : Cursor) (n : Nat) : c.lookahead n = c.toList.getD n c.eos := by
  unfold lookahead toList
  split
  · rename_i h
    simp [List.getElem?_append_left h]
  · rename_i h
    simp [List.getElem?_append_right (Nat.le_of_not_lt h)]

@[simp] theorem toList_advance (c : Cursor) : c.advance.toList = c.toList.tail := by
  unfold advance toList
  split <;> rename_i h <;> simp [h]

@[simp] theorem finish_advance (c : Cursor) : c.advance.finish = c.finish := by
  unfold advance
  split <;> rfl

@[simp] theorem toList_skipNewlines (c : Cursor) :
    c.skipNewlines.toList = c.toList.dropWhile Token.isNewline := by
  unfold skipNewlines toList
  rw [List.dropWhile_append]
  split <;> rename_i h <;> simp_all

@[simp] theorem finish_skipNewlines (c : Cursor) : c.skipNewlines.finish = c.finish := by
  unfold skipNewlines
  split <;> rfl

/-- **The first token that is no line break is found by looking ahead,** one token after the
other as long as they are line breaks. -/
theorem exists_peekPastNewlines_eq_lookahead (c : Cursor) :
    ∃ n, (∀ i < n, (c.lookahead i).isNewline = true) ∧ (c.lookahead n).isNewline = false ∧
      c.peekPastNewlines = c.lookahead n := by
  have hfirst : c.peekPastNewlines = c.lookahead (c.toList.findIdx fun t => !t.isNewline) := by
    rw [peekPastNewlines, peek, lookahead_eq, lookahead_eq, toList_skipNewlines,
      List.dropWhile_eq_drop_findIdx_not]
    simp [eos]
  refine ⟨_, fun i hi => ?_, ?_, hfirst⟩
  · have hlength : i < c.toList.length := Nat.lt_of_lt_of_le hi List.findIdx_le_length
    have hbreak : (!c.toList[i].isNewline) = false := List.not_of_lt_findIdx hi
    simpa [lookahead_eq, hlength] using hbreak
  · by_cases hn : (c.toList.findIdx fun t => !t.isNewline) < c.toList.length
    · have hother := List.findIdx_getElem (w := hn)
      simpa [lookahead_eq, hn] using hother
    · -- Every token is a line break, and the one behind them is none.
      rw [lookahead_eq, List.getD_eq_getElem?_getD, List.getElem?_eq_none (Nat.le_of_not_lt hn)]
      rfl

end Cursor
end Pug
