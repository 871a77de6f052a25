/-
# Conditionals

    conditional = If [block] (Newline* ElseIf [block])* [Newline* Else [block]]

Line breaks belong to a conditional only if an alternate comes after them. An
`else` without a block ends the chain and leaves nothing behind.
-/

import Pug.Grammar.Inner

namespace Pug
namespace Grammar

open Reader

/-- The alternate that comes next, with all that follow it. -/
def alternates (inner : Inner) (scope : Scope) : Nat → Reader (Option Alternate)
  | 0 => exhausted
  | rounds + 1 => do
    let t ← peekPastNewlines
    match t.lexeme with
    | .elseIf test => do
      skipNewlines
      skip
      let loc ← locate t.pos
      let consequent ← inner.blockAt scope loc
      let alternate ← alternates inner scope rounds
      return some (.elseIf test consequent alternate loc)
    | .else => do
      skipNewlines
      skip
      return (← inner.block? scope).map .otherwise
    | _ => return none

/-- A conditional behind its test. -/
def conditional (inner : Inner) (scope : Scope) (test : String) (loc : Location) :
    Reader Node := do
  let consequent ← inner.blockAt scope loc
  let alternate ← alternates inner scope inner.rounds
  return .conditional test consequent alternate loc

end Grammar
end Pug
