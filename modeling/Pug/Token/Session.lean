/-
# Sessions

Whatever tokens are taken from, there are four ways to use it: to look at the current
token, to look ahead, to go past the current token, and to put one back in front of
it. A session is a sequence of these operations on one source of tokens. What can be
observed of a source are the answers in its sessions: the tokens that are looked at
or gone past.
-/

import Pug.Token.Cursor

namespace Pug

/-- States from which tokens are taken one by one. -/
class TokenSource (σ : Type) where
  /-- The current token. -/
  peek : σ → Token
  /-- The token a number of places ahead of the current one. -/
  lookahead : σ → Nat → Token
  /-- The current token, and the state behind it. -/
  advance : σ → Token × σ
  /-- The state with a token put back in front of the current one. -/
  defer : σ → Token → σ

namespace TokenSource

/-- An operation on a source of tokens. -/
inductive Operation where
  | peek
  | lookahead (n : Nat)
  | advance
  | defer (t : Token)
  deriving DecidableEq

/-- Whether an operation is more than a look. -/
def Operation.moves : Operation → Bool
  | .peek | .lookahead _ => false
  | .advance | .defer _ => true

variable {σ : Type} [TokenSource σ]

/-- The answer to an operation, if it has one, and the state that it leaves. -/
def step (s : σ) : Operation → Option Token × σ
  | .peek => (some (peek s), s)
  | .lookahead n => (some (lookahead s n), s)
  | .advance => Prod.map some id (advance s)
  | .defer t => (none, defer s t)

/-- The answers in a session. -/
def answers (s : σ) : List Operation → List (Option Token)
  | [] => []
  | op :: ops => (step s op).1 :: answers (step s op).2 ops

/-- The state behind a session. -/
def after (s : σ) : List Operation → σ
  | [] => s
  | op :: ops => after (step s op).2 ops

end TokenSource

instance : TokenSource Cursor where
  peek := Cursor.peek
  lookahead := Cursor.lookahead
  advance c := (c.peek, c.advance)
  defer := Cursor.defer

end Pug
