/-
# Loops

    while = While [block]
    each  = Each block [Else block]

The `else` of a loop over a collection comes right behind the block, without a line
break between them.
-/

import Pug.Grammar.Inner

namespace Pug
namespace Grammar

open Reader

/-- A loop with a test, behind the test. -/
def whileLoop (inner : Inner) (scope : Scope) (test : String) (loc : Location) :
    Reader Node := do
  return .while test (← inner.blockAt scope loc) loc

/-- The block for a collection without items, if there is one. -/
def emptyCase (inner : Inner) (scope : Scope) : Reader (Option Block) := do
  if ← accept .else then
    return some (← inner.block scope)
  else
    return none

/-- A loop over a collection, behind its head. -/
def eachLoop (inner : Inner) (scope : Scope) (iteration : Iteration) (loc : Location) :
    Reader Node := do
  let body ← inner.block scope
  let alternate ← emptyCase inner scope
  return .each iteration body alternate loc

end Grammar
end Pug
