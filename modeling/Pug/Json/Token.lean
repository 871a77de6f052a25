/-
# Tokens as JSON

A token is an object with the members `kind`, `line` and `column`. Its kind is an
object with the key of the terminal as `type` and what the token carries in
further members.
-/

import Pug.Json.Basic
import Pug.Token.Basic

namespace Pug

/-- A terminal as JSON: its key. -/
def Terminal.toJson (terminal : Terminal) : Json := .string terminal.key

/-- Reads a terminal. -/
def Terminal.ofJson? (j : Json) : Option Terminal := j.string?.bind Terminal.ofKey?

namespace BlockMode

/-- The name of a block mode in data. -/
def key : BlockMode → String
  | .replace => "replace"
  | .append => "append"
  | .prepend => "prepend"

/-- The block mode with a given name. -/
def ofKey? : String → Option BlockMode
  | "replace" => some .replace
  | "append" => some .append
  | "prepend" => some .prepend
  | _ => none

/-- A block mode as JSON: its name. -/
def toJson (mode : BlockMode) : Json := .string mode.key

/-- Reads a block mode. -/
def ofJson? (j : Json) : Option BlockMode := j.string?.bind ofKey?

end BlockMode

namespace Code

/-- The members of a piece of code. -/
def members (c : Code) : List (String × Json) :=
  [("val", .string c.source), ("buffer", .bool c.buffered), ("must_escape", .bool c.escaped)]

/-- Reads the members of a piece of code. -/
def ofJson? (j : Json) : Option Code := do
  let source ← j.required Json.string? "val"
  let buffered ← j.required Json.bool? "buffer"
  let escaped ← j.required Json.bool? "must_escape"
  return ⟨source, buffered, escaped⟩

end Code

namespace Iteration

/-- The members of the head of a loop. -/
def members (i : Iteration) : List (String × Json) :=
  [("val", .string i.item), ("key", .ofString? i.key), ("obj", .string i.collection)]

/-- Reads the members of the head of a loop. -/
def ofJson? (j : Json) : Option Iteration := do
  let item ← j.required Json.string? "val"
  let key ← j.optional Json.string? "key"
  let collection ← j.required Json.string? "obj"
  return ⟨item, key, collection⟩

end Iteration

namespace Lexeme

/-- What a lexeme carries, as members. -/
def payload : Lexeme → List (String × Json)
  | .tag name => [("val", .string name)]
  | .mixin name args => [("val", .string name), ("args", .ofString? args)]
  | .mixinBlock => []
  | .block name mode => [("val", .string name), ("mode", mode.toJson)]
  | .case expr => [("val", .string expr)]
  | .when expr => [("val", .string expr)]
  | .default => []
  | .extends => []
  | .include => []
  | .filter name => [("val", .string name)]
  | .doctype value => [("val", .string value)]
  | .comment value buffered => [("val", .string value), ("buffer", .bool buffered)]
  | .text value => [("val", .string value)]
  | .interpolatedCode c => c.members
  | .startInterpolation => []
  | .endInterpolation => []
  | .textHtml value => [("val", .string value)]
  | .dot => []
  | .each iteration => iteration.members
  | .code c => c.members
  | .blockCode => []
  | .if test => [("val", .string test)]
  | .elseIf test => [("val", .string test)]
  | .else => []
  | .while test => [("val", .string test)]
  | .call name args => [("val", .string name), ("args", .ofString? args)]
  | .interpolation expr => [("val", .string expr)]
  | .yield => []
  | .idName value => [("val", .string value)]
  | .className value => [("val", .string value)]
  | .startAttributes => []
  | .endAttributes => []
  | .attribute name value escaped =>
      [("name", .string name), ("val", .string value), ("must_escape", .bool escaped)]
  | .andAttributes expr => [("val", .string expr)]
  | .startPipelessText => []
  | .endPipelessText => []
  | .indent => []
  | .outdent => []
  | .newline => []
  | .slash => []
  | .colon => []
  | .path value => [("val", .string value)]
  | .eos => []

/-- A lexeme as JSON. -/
def toJson (l : Lexeme) : Json := .object (("type", l.terminal.toJson) :: l.payload)

/-- Reads what a lexeme of a terminal carries. -/
def ofPayload? (j : Json) (terminal : Terminal) : Option Lexeme :=
  let val := j.required Json.string? "val"
  let args := j.optional Json.string? "args"
  match terminal with
  | .tag => return .tag (← val)
  | .mixin => return .mixin (← val) (← args)
  | .mixinBlock => return .mixinBlock
  | .block => return .block (← val) (← j.required BlockMode.ofJson? "mode")
  | .case => return .case (← val)
  | .when => return .when (← val)
  | .default => return .default
  | .extends => return .extends
  | .include => return .include
  | .filter => return .filter (← val)
  | .doctype => return .doctype (← val)
  | .comment => return .comment (← val) (← j.required Json.bool? "buffer")
  | .text => return .text (← val)
  | .interpolatedCode => return .interpolatedCode (← Code.ofJson? j)
  | .startInterpolation => return .startInterpolation
  | .endInterpolation => return .endInterpolation
  | .textHtml => return .textHtml (← val)
  | .dot => return .dot
  | .each => return .each (← Iteration.ofJson? j)
  | .code => return .code (← Code.ofJson? j)
  | .blockCode => return .blockCode
  | .if => return .if (← val)
  | .elseIf => return .elseIf (← val)
  | .else => return .else
  | .while => return .while (← val)
  | .call => return .call (← val) (← args)
  | .interpolation => return .interpolation (← val)
  | .yield => return .yield
  | .idName => return .idName (← val)
  | .className => return .className (← val)
  | .startAttributes => return .startAttributes
  | .endAttributes => return .endAttributes
  | .attribute =>
    return .attribute (← j.required Json.string? "name") (← val)
      (← j.required Json.bool? "must_escape")
  | .andAttributes => return .andAttributes (← val)
  | .startPipelessText => return .startPipelessText
  | .endPipelessText => return .endPipelessText
  | .indent => return .indent
  | .outdent => return .outdent
  | .newline => return .newline
  | .slash => return .slash
  | .colon => return .colon
  | .path => return .path (← val)
  | .eos => return .eos

/-- Reads a lexeme. -/
def ofJson? (j : Json) : Option Lexeme := do
  let terminal ← j.required Terminal.ofJson? "type"
  ofPayload? j terminal

end Lexeme

namespace Token

/-- A token as JSON. -/
def toJson (t : Token) : Json := .object (("kind", t.lexeme.toJson) :: t.pos.members)

/-- Reads a token. -/
def ofJson? (j : Json) : Option Token := do
  let lexeme ← j.required Lexeme.ofJson? "kind"
  let pos ← Position.ofJson? j
  return ⟨lexeme, pos⟩

end Token
end Pug
