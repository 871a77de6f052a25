/-
# Tokens

The input of the parser is a list of tokens. A token is a lexeme, which is a
terminal together with what it carries (names, expressions, attribute values),
at a position.
-/

import Pug.Payload
import Pug.Position
import Pug.Token.Terminal

namespace Pug

/-- A terminal with what it carries. -/
inductive Lexeme where
  | tag (name : String)
  | mixin (name : String) (args : Option String)
  | mixinBlock
  | block (name : String) (mode : BlockMode)
  | case (expr : String)
  | when (expr : String)
  | default
  | extends
  | include
  | filter (name : String)
  | doctype (value : String)
  | comment (value : String) (buffered : Bool)
  | text (value : String)
  | interpolatedCode (code : Code)
  | startInterpolation
  | endInterpolation
  | textHtml (value : String)
  | dot
  | each (iteration : Iteration)
  | code (code : Code)
  | blockCode
  | if (test : String)
  | elseIf (test : String)
  | else
  | while (test : String)
  | call (name : String) (args : Option String)
  | interpolation (expr : String)
  | yield
  | idName (value : String)
  | className (value : String)
  | startAttributes
  | endAttributes
  | attribute (name value : String) (escaped : Bool)
  | andAttributes (expr : String)
  | startPipelessText
  | endPipelessText
  | indent
  | outdent
  | newline
  | slash
  | colon
  | path (path : String)
  | eos
  deriving DecidableEq

namespace Lexeme

/-- The terminal of a lexeme. -/
def terminal : Lexeme → Terminal
  | .tag _ => .tag
  | .mixin _ _ => .mixin
  | .mixinBlock => .mixinBlock
  | .block _ _ => .block
  | .case _ => .case
  | .when _ => .when
  | .default => .default
  | .extends => .extends
  | .include => .include
  | .filter _ => .filter
  | .doctype _ => .doctype
  | .comment _ _ => .comment
  | .text _ => .text
  | .interpolatedCode _ => .interpolatedCode
  | .startInterpolation => .startInterpolation
  | .endInterpolation => .endInterpolation
  | .textHtml _ => .textHtml
  | .dot => .dot
  | .each _ => .each
  | .code _ => .code
  | .blockCode => .blockCode
  | .if _ => .if
  | .elseIf _ => .elseIf
  | .else => .else
  | .while _ => .while
  | .call _ _ => .call
  | .interpolation _ => .interpolation
  | .yield => .yield
  | .idName _ => .idName
  | .className _ => .className
  | .startAttributes => .startAttributes
  | .endAttributes => .endAttributes
  | .attribute _ _ _ => .attribute
  | .andAttributes _ => .andAttributes
  | .startPipelessText => .startPipelessText
  | .endPipelessText => .endPipelessText
  | .indent => .indent
  | .outdent => .outdent
  | .newline => .newline
  | .slash => .slash
  | .colon => .colon
  | .path _ => .path
  | .eos => .eos

end Lexeme

/-- A lexeme at a position. -/
structure Token where
  lexeme : Lexeme
  pos : Position
  deriving DecidableEq

namespace Token

/-- The terminal of a token. -/
def terminal (t : Token) : Terminal := t.lexeme.terminal

/-- Whether a token is a line break. -/
def isNewline (t : Token) : Bool := t.terminal = .newline

end Token
end Pug
