/-
# Text

Text comes in runs and in verbatim regions.

    interpolation = StartInterpolation expr EndInterpolation
    run           = (Text | InterpolatedCode | interpolation | Newline)*
    verbatim      = StartPipelessText (Text | InterpolatedCode | interpolation | Newline)*
                    EndPipelessText

A line break in a verbatim region is text. In a run, where line breaks occur only
if it has more lines than one, a line break is text when text or code comes
right after it, and nothing otherwise.

A run ends before the first token that is no part of it. Only a token that is one
is gone past, so a run has no error of its own but for the end of an interpolation.
-/

import Pug.Grammar.Inner

namespace Pug
namespace Grammar

open Reader

/-- The production between the brackets of an interpolation, of which the first is
the current token. -/
def interpolation (inner : Inner) (scope : Scope) : Reader Node := do
  skip
  let node ← inner.expr scope
  let _ ← expect .endInterpolation
  return node

/-- Whether a line break before a token is kept in a run. -/
def keepsBreak (t : Token) : Bool := t.terminal = .text || t.terminal = .interpolatedCode

/-- The nodes of one part of a run. -/
def runItem (inner : Inner) (scope : Scope) (multiline : Bool) : Reader (Option (List Node)) := do
  let t ← peek
  let loc ← locate t.pos
  match t.lexeme with
  | .text value => do
    skip
    return some [.text value false loc]
  | .interpolatedCode code => do
    skip
    return some [.code code true none loc]
  | .startInterpolation => return some [← interpolation inner scope]
  | .newline =>
    if multiline then do
      skip
      let next ← peek
      return some (if keepsBreak next then [.text "\n" false loc] else [])
    else
      return none
  | _ => return none

/-- A run as one node: its only part, or a block of its parts. -/
def gather (loc : Location) : List Node → Node
  | [node] => node
  | nodes => .block ⟨nodes, loc⟩

/-- A run of text that begins at the current token. -/
def textRun (inner : Inner) (scope : Scope) (multiline : Bool) : Reader Node := do
  let start ← peek
  let loc ← locate start.pos
  let parts ← many (runItem inner scope multiline) inner.rounds
  return gather loc parts.flatten

/-- The node of one token or interpolation of a verbatim region. -/
def verbatimItem (inner : Inner) (scope : Scope) : Reader (Option Node) := do
  let t ← peek
  let loc ← locate t.pos
  match t.lexeme with
  | .endPipelessText => do
    skip
    return none
  | .text value => do
    skip
    return some (.text value false loc)
  | .newline => do
    skip
    return some (.text "\n" false loc)
  | .interpolatedCode code => do
    skip
    return some (.code code true none loc)
  | .startInterpolation => return some (← interpolation inner scope)
  | _ => reject (.malformedVerbatim t.terminal) t.pos

/-- The verbatim region that begins at the current token, if one does. -/
def verbatim? (inner : Inner) (scope : Scope) : Reader (Option Block) := do
  let t ← peek
  if t.terminal = .startPipelessText then
    skip
    let loc ← locate t.pos
    let nodes ← many (verbatimItem inner scope) inner.rounds
    return some ⟨nodes, loc⟩
  else
    return none

/-- The verbatim region of something at `loc`, which has no nodes if the current
token does not begin one. -/
def verbatimAt (inner : Inner) (scope : Scope) (loc : Location) : Reader Block := do
  return (← verbatim? inner scope).getD (.empty loc)

end Grammar
end Pug
