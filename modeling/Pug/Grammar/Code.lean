/-
# Host code

    code      = Code [block]
    blockCode = BlockCode [StartPipelessText (Text | Newline)* EndPipelessText]

Code whose value is put out has no block. The lines of a region of code are one
piece of code.
-/

import Pug.Grammar.Inner

namespace Pug
namespace Grammar

open Reader

/-- A line of code, behind it. -/
def codeLine (inner : Inner) (scope : Scope) (code : Code) (loc : Location) : Reader Node := do
  let t ← peek
  if t.terminal = .indent then
    if code.buffered then
      reject .bufferedCodeBlock t.pos
    else
      return .code code false (some (← inner.block scope)) loc
  else
    return .code code false none loc

/-- The text of one token of a region of code. -/
def codeItem : Reader (Option String) := do
  let t ← peek
  match t.lexeme with
  | .endPipelessText => do
    skip
    return none
  | .text value => do
    skip
    return some value
  | .newline => do
    skip
    return some "\n"
  | _ => reject (.malformedVerbatim t.terminal) t.pos

/-- The text of a region of code, if the current token begins one. -/
def codeRegion (rounds : Nat) : Reader String := do
  if ← accept .startPipelessText then
    return String.join (← many codeItem rounds)
  else
    return ""

/-- A region of code, behind the token that announces it. -/
def blockCode (rounds : Nat) (loc : Location) : Reader Node := do
  return .code ⟨← codeRegion rounds, false, false⟩ false none loc

end Grammar
end Pug
