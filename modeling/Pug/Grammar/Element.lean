/-
# Elements

    element = (Tag | Interpolation) body
            | body, if it begins with Id or Class
    body    = head [Dot] content Newline* tail
    content = run | Code | Colon expr | Slash | nothing
    tail    = [verbatim] after a dot, [block] otherwise

A body without a name in front is that of a `div`: the token of the name is put back
in front of the shorthand, and taken from there. A run on the line of an element
has no line breaks. A slash closes the element, where that is allowed. After a dot
the content of the line is dropped, and the body is the verbatim region alone.
-/

import Pug.Grammar.Attributes
import Pug.Grammar.Text

namespace Pug
namespace Grammar

open Reader

/-- What follows the name of an element or of a mixin that is called. -/
structure Body where
  attrs : Attributes
  selfClosing : Bool
  textOnly : Bool
  block : Block

/-- What stands on the line of an element behind its head. -/
structure Content where
  selfClosing : Bool
  block : Block

namespace Content

/-- A line with nothing behind the head of the element at `loc`. -/
def none (loc : Location) : Content := ⟨false, .empty loc⟩

/-- The terminals that may come behind a head, as messages enumerate them. -/
def terminals (closable : Bool) : List Terminal :=
  [.text, .interpolatedCode, .code, .colon] ++ (if closable then [.slash] else []) ++
    [.newline, .eos]

end Content

/-- What stands on the line of the element at `loc` behind its head. -/
def content (inner : Inner) (scope : Scope) (loc : Location) (closable : Bool) :
    Reader Content := do
  let t ← peek
  let place ← locate t.pos
  match t.lexeme with
  | .text _ => return ⟨false, ⟨(← textRun inner scope false).spliced, loc⟩⟩
  | .interpolatedCode _ => return ⟨false, ⟨(← textRun inner scope false).spliced, loc⟩⟩
  | .code code => do
    skip
    return ⟨false, ⟨[.code code true none place], loc⟩⟩
  | .colon => do
    skip
    return ⟨false, (← inner.expr scope).asBody place⟩
  | .slash =>
    if closable then do
      skip
      return ⟨true, .empty loc⟩
    else
      unexpected t (Content.terminals closable)
  | .newline => return .none loc
  | .indent => return .none loc
  | .outdent => return .none loc
  | .eos => return .none loc
  | .startPipelessText => return .none loc
  | .endInterpolation => return .none loc
  | _ => unexpected t (Content.terminals closable)

/-- The body of the element at `loc` whose line has the given content. -/
def tail (inner : Inner) (scope : Scope) (loc : Location) (textOnly : Bool) (line : Block) :
    Reader Block := do
  if textOnly then
    verbatimAt inner scope loc
  else
    let nested ← inner.blockAt scope loc
    return { line with nodes := line.nodes ++ nested.nodes }

/-- What follows the name of something at `loc`. -/
def body (inner : Inner) (scope : Scope) (loc : Location) (closable : Bool) : Reader Body := do
  let attrs ← attributes inner.rounds
  let textOnly ← accept .dot
  let line ← content inner scope loc closable
  skipNewlines
  let block ← tail inner scope loc textOnly line.block
  return ⟨attrs, line.selfClosing, textOnly, block⟩

/-- An element with a name. -/
def element (inner : Inner) (scope : Scope) (name : String) (loc : Location) : Reader Node := do
  let b ← body inner scope loc true
  return .tag name b.selfClosing b.textOnly (isInlineName name) b.attrs b.block loc

/-- An element whose name is the value of an expression. -/
def interpolatedElement (inner : Inner) (scope : Scope) (expr : String) (loc : Location) :
    Reader Node := do
  let b ← body inner scope loc true
  return .interpolatedTag expr b.selfClosing b.textOnly b.attrs b.block loc

/-- The element that a shorthand at a position begins. -/
def shorthandElement (inner : Inner) (scope : Scope) (pos : Position) : Reader Node := do
  emit (.shorthand pos.line)
  defer ⟨.tag "div", pos⟩
  skip
  element inner scope "div" (← locate pos)

end Grammar
end Pug
