/-
# Templates

    document = item*

The current token decides which production begins at it, and a token at which none
begins is an error. A production is entered only where the token it begins with is
the current one: it goes past that token without a check, and has no error of its
own about it. Lines of HTML, and dots in front of a region, are given as blocks,
which are spliced into the list around them.

Each level of nesting and each round of a loop takes at least one token, so a
bound above the number of tokens is never reached.
-/

import Pug.Grammar.Block
import Pug.Grammar.Case
import Pug.Grammar.Code
import Pug.Grammar.Comment
import Pug.Grammar.Conditional
import Pug.Grammar.Filter
import Pug.Grammar.Inclusion
import Pug.Grammar.Loop
import Pug.Grammar.Mixin

namespace Pug
namespace Grammar

open Reader

/-- The production that begins at the current token. -/
def expr (inner : Inner) (scope : Scope) : Reader Node := do
  let t ← peek
  let loc ← locate t.pos
  match t.lexeme with
  | .tag name => do
    skip
    element inner scope name loc
  | .mixin name args => do
    skip
    mixin inner name args loc
  | .mixinBlock => do
    skip
    mixinBlock scope loc
  | .block name mode => do
    skip
    namedBlock inner scope name mode loc
  | .case e => do
    skip
    caseOf inner scope e loc
  | .extends => do
    skip
    parent loc
  | .include => do
    skip
    inclusion inner scope loc
  | .filter name => do
    skip
    filter inner scope inner.rounds name loc
  | .doctype value => do
    skip
    return .doctype value loc
  | .comment value buffered => do
    skip
    comment inner scope value buffered loc
  | .text _ => textRun inner scope true
  | .interpolatedCode _ => textRun inner scope true
  | .startInterpolation => textRun inner scope true
  | .textHtml _ => return .block ⟨← html inner scope, loc⟩
  | .dot => do
    skip
    return .block (← verbatimAt inner scope loc)
  | .each iteration => do
    skip
    eachLoop inner scope iteration loc
  | .code code => do
    skip
    codeLine inner scope code loc
  | .blockCode => do
    skip
    blockCode inner.rounds loc
  | .if test => do
    skip
    conditional inner scope test loc
  | .while test => do
    skip
    whileLoop inner scope test loc
  | .call name args => do
    skip
    call inner scope name args loc
  | .interpolation e => do
    skip
    interpolatedElement inner scope e loc
  | .yield => do
    skip
    return .yieldBlock loc
  | .idName _ => shorthandElement inner scope t.pos
  | .className _ => shorthandElement inner scope t.pos
  | _ => unexpected t []

/-- The readers for what nests at most so deep. -/
def Inner.ofDepth : Nat → Inner
  | 0 => .bottom
  | depth + 1 =>
    ⟨depth + 1, fun scope => Grammar.expr (ofDepth depth) scope,
      fun scope => Grammar.block (ofDepth depth) scope⟩

namespace Inner

@[simp] theorem rounds_ofDepth (depth : Nat) : (ofDepth depth).rounds = depth := by
  cases depth <;> rfl

@[simp] theorem expr_ofDepth_succ (depth : Nat) (scope : Scope) :
    (ofDepth (depth + 1)).expr scope = Grammar.expr (ofDepth depth) scope := rfl

@[simp] theorem block_ofDepth_succ (depth : Nat) (scope : Scope) :
    (ofDepth (depth + 1)).block scope = Grammar.block (ofDepth depth) scope := rfl

end Inner

/-- A template up to the end of the input. -/
def document (inner : Inner) : Reader Block := do
  let o ← options
  emit (.started o.filename)
  let nodes ← items inner .outermost .eos
  return ⟨nodes, ⟨.whole, o.filename⟩⟩

end Grammar

/-- The bound under which a list of tokens is read. -/
def budget (tokens : List Token) : Nat := tokens.length + 2

/-- Reads the template that a list of tokens spells. -/
def parse (options : Options) (tokens : List Token) : Run Block :=
  (Grammar.document (.ofDepth (budget tokens))).run options (Cursor.ofList tokens)

end Pug
