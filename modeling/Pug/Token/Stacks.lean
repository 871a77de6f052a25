/-
# A cursor held as two stacks

The tokens of a cursor are taken from its front and put back there, and an array gives
and takes at its end. So a cursor is held as two arrays that are read from their ends,
one for the input, back to front, and one for the tokens that were put back. The index
of the token some places ahead is counted down from the size of one of the arrays; a
count that would go below zero leads behind the end of the input.
-/

import Pug.Token.Session

namespace Pug

/-- A cursor in two arrays, with the next token at the end of each. -/
structure Stacks where
  /-- The tokens of the input that were not yet read, back to front. -/
  upcoming : Array Token
  /-- The tokens that were put back and not yet read again, the last one at the end. -/
  deferred : Array Token
  /-- Where the input ends. -/
  finish : Position
  deriving DecidableEq

namespace Stacks

/-- The stacks before the first token of an input. -/
def ofList (tokens : List Token) : Stacks where
  upcoming := tokens.toArray.reverse
  deferred := #[]
  finish := (tokens.getLast?.map Token.pos).getD .first

/-- The token behind the last one. -/
def eos (s : Stacks) : Token := ⟨.eos, s.finish⟩

/-- The difference of two numbers, if it is not below zero. -/
def minus? (a b : Nat) : Option Nat := if b ≤ a then some (a - b) else none

/-- The token `n` places before the last one of an array. -/
def fromEnd (tokens : Array Token) (n : Nat) : Option Token := do
  let size ← minus? tokens.size n
  let index ← minus? size 1
  tokens[index]?

/-- The token `n` places ahead of the current one. -/
def lookahead (s : Stacks) (n : Nat) : Token :=
  if n < s.deferred.size then
    s.deferred[s.deferred.size - n - 1]?.getD s.eos
  else
    (fromEnd s.upcoming (n - s.deferred.size)).getD s.eos

/-- The current token. -/
def peek (s : Stacks) : Token := s.lookahead 0

/-- The current token, and the stacks without it. -/
def advance (s : Stacks) : Token × Stacks :=
  match s.deferred.back? with
  | some t => (t, { s with deferred := s.deferred.pop })
  | none =>
    match s.upcoming.back? with
    | some t => (t, { s with upcoming := s.upcoming.pop })
    | none => (s.eos, s)

/-- The stacks with a token put back in front of the current one. -/
def defer (s : Stacks) (t : Token) : Stacks := { s with deferred := s.deferred.push t }

instance : TokenSource Stacks where
  peek := peek
  lookahead := lookahead
  advance := advance
  defer := defer

/-- The cursor that the stacks hold. -/
def cursor (s : Stacks) : Cursor where
  deferred := s.deferred.toList.reverse
  upcoming := s.upcoming.toList.reverse
  finish := s.finish

end Stacks
end Pug
