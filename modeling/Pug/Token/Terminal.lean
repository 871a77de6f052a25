/-
# The terminals of the grammar

A terminal is the kind of a token without what the token carries. Its *key* is
its spelling in data, its *name* the spelling in messages; the two differ for
three terminals:

| terminal | key | name |
| --- | --- | --- |
| `blockCode` | `block-code` | `blockcode` |
| `andAttributes` | `and-attributes` | `&attributes` |
| `colon` | `colon` | `:` |

Terminals are ordered as they are declared.
-/

namespace Pug

/-- The kinds of tokens. -/
inductive Terminal where
  | tag
  | mixin
  | mixinBlock
  | block
  | case
  | when
  | default
  | extends
  | include
  | filter
  | doctype
  | comment
  | text
  | interpolatedCode
  | startInterpolation
  | endInterpolation
  | textHtml
  | dot
  | each
  | code
  | blockCode
  | if
  | elseIf
  | else
  | while
  | call
  | interpolation
  | yield
  | idName
  | className
  | startAttributes
  | endAttributes
  | attribute
  | andAttributes
  | startPipelessText
  | endPipelessText
  | indent
  | outdent
  | newline
  | slash
  | colon
  | path
  | eos
  deriving DecidableEq

namespace Terminal

/-- Every terminal, in order. -/
def all : List Terminal :=
  [.tag, .mixin, .mixinBlock, .block, .case, .when, .default, .extends, .include, .filter,
    .doctype, .comment, .text, .interpolatedCode, .startInterpolation, .endInterpolation,
    .textHtml, .dot, .each, .code, .blockCode, .if, .elseIf, .else, .while, .call,
    .interpolation, .yield, .idName, .className, .startAttributes, .endAttributes, .attribute,
    .andAttributes, .startPipelessText, .endPipelessText, .indent, .outdent, .newline, .slash,
    .colon, .path, .eos]

/-- The spelling of a terminal in data. -/
def key : Terminal → String
  | .tag => "tag"
  | .mixin => "mixin"
  | .mixinBlock => "mixin-block"
  | .block => "block"
  | .case => "case"
  | .when => "when"
  | .default => "default"
  | .extends => "extends"
  | .include => "include"
  | .filter => "filter"
  | .doctype => "doctype"
  | .comment => "comment"
  | .text => "text"
  | .interpolatedCode => "interpolated-code"
  | .startInterpolation => "start-interpolation"
  | .endInterpolation => "end-interpolation"
  | .textHtml => "text-html"
  | .dot => "dot"
  | .each => "each"
  | .code => "code"
  | .blockCode => "block-code"
  | .if => "if"
  | .elseIf => "else-if"
  | .else => "else"
  | .while => "while"
  | .call => "call"
  | .interpolation => "interpolation"
  | .yield => "yield"
  | .idName => "id"
  | .className => "class"
  | .startAttributes => "start-attributes"
  | .endAttributes => "end-attributes"
  | .attribute => "attribute"
  | .andAttributes => "and-attributes"
  | .startPipelessText => "start-pipeless-text"
  | .endPipelessText => "end-pipeless-text"
  | .indent => "indent"
  | .outdent => "outdent"
  | .newline => "newline"
  | .slash => "slash"
  | .colon => "colon"
  | .path => "path"
  | .eos => "eos"

/-- The spelling of a terminal in messages. -/
def name : Terminal → String
  | .blockCode => "blockcode"
  | .andAttributes => "&attributes"
  | .colon => ":"
  | terminal => terminal.key

/-- The terminal with a given key. -/
def ofKey? (key : String) : Option Terminal := all.find? (·.key = key)

/-- The terminals of a list in order, each as often as it occurs. -/
def sort (terminals : List Terminal) : List Terminal :=
  terminals.mergeSort fun a b => a.ctorIdx ≤ b.ctorIdx

theorem mem_all (terminal : Terminal) : terminal ∈ all := by cases terminal <;> decide

/-- **A key determines its terminal.** -/
@[simp] theorem ofKey?_key (terminal : Terminal) : ofKey? terminal.key = some terminal := by
  cases terminal <;> decide

end Terminal
end Pug
