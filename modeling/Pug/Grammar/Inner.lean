/-
# What productions are made of

The grammar has two recursive entries: the *expression*, which is the production
that begins at the current token, and the *block*, which is a list of them
between an indent and an outdent. Every other production is a plain function
of these two. The knot is tied once, in `Pug.Grammar.Document`, by a bound on the
depth of nesting.
-/

import Pug.Reader.Loop
import Pug.Tree.Basic

namespace Pug
namespace Grammar

/-- What a production knows of the productions around it. -/
structure Scope where
  /-- Whether it stands in the body of a mixin. -/
  inMixin : Bool
  deriving DecidableEq

namespace Scope

/-- The scope of a template. -/
def outermost : Scope := ⟨false⟩

/-- The scope of the body of a mixin. -/
def mixinBody : Scope := ⟨true⟩

end Scope

/-- The readers that a production uses for what is nested in it. -/
structure Inner where
  /-- How many rounds a loop of the production may take. -/
  rounds : Nat
  /-- Reads the production that begins at the current token. Its node may be a
  block, which callers splice into the list that they read. -/
  expr : Scope → Reader Node
  /-- Reads an indented list of productions. -/
  block : Scope → Reader Block

namespace Inner

/-- The readers for a depth that no production may reach. -/
def bottom : Inner := ⟨0, fun _ => .exhausted, fun _ => .exhausted⟩

/-- The block under a production, if the current token begins one. -/
def block? (inner : Inner) (scope : Scope) : Reader (Option Block) := do
  if ← Reader.lookingAt .indent then
    return some (← inner.block scope)
  else
    return none

/-- The block under a production at `loc`, which has no nodes if the current token
does not begin one. -/
def blockAt (inner : Inner) (scope : Scope) (loc : Location) : Reader Block := do
  return (← inner.block? scope).getD (.empty loc)

end Inner
end Grammar
end Pug
