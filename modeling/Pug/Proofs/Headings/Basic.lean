/-
# Headings

A heading is what a node says for itself, without what is below it: its label and
where it is. Text, blocks and the filters of an include have none. The headings of a
tree are those of its nodes in preorder.

Headings can be told from the tokens alone, without any parsing. A scan of the tokens
has to know three places apart: in the head of an element a shorthand begins nothing,
between an include and its path a filter is none of its own, and everywhere else each
token that can begin a production or a branch has a heading.
-/

import Pug.Proofs.Reading.Document
import Pug.Proofs.Tree.Preorder

namespace Pug

/-- What a heading says. -/
inductive Label where
  | element (name : String)
  | interpolated (expr : String)
  | mixin (name : String) (args : Option String)
  | mixinBlock
  | yield
  | namedBlock (name : String) (mode : BlockMode)
  | doctype (value : String)
  | case (expr : String)
  | branch (expr : String)
  | parent (file : FileRef)
  | inclusion (file : FileRef)
  | filter (name : String)
  | comment (value : String) (buffered : Bool)
  | each (iteration : Iteration)
  | code (code : Code)
  | conditional (test : String)
  | while (test : String)
  deriving DecidableEq

/-- A label and where it stands. -/
structure Heading where
  label : Label
  loc : Location
  deriving DecidableEq

/-- The heading of a node, if it has one. -/
def Node.heading? : Node → Option Heading
  | .block _ => none
  | .tag name _ _ _ _ _ loc => some ⟨.element name, loc⟩
  | .interpolatedTag expr _ _ _ _ loc => some ⟨.interpolated expr, loc⟩
  | .text _ _ _ => none
  | .code c _ _ loc => some ⟨.code c, loc⟩
  | .conditional test _ _ loc => some ⟨.conditional test, loc⟩
  | .while test _ loc => some ⟨.while test, loc⟩
  | .each iteration _ _ loc => some ⟨.each iteration, loc⟩
  | .case expr _ loc => some ⟨.case expr, loc⟩
  | .when expr _ loc => some ⟨.branch expr, loc⟩
  | .mixin name args _ _ _ loc => some ⟨.mixin name args, loc⟩
  | .mixinBlock loc => some ⟨.mixinBlock, loc⟩
  | .yieldBlock loc => some ⟨.yield, loc⟩
  | .namedBlock name mode _ loc => some ⟨.namedBlock name mode, loc⟩
  | .filter name _ _ loc => some ⟨.filter name, loc⟩
  | .includeFilter _ => none
  | .include file _ loc => some ⟨.inclusion file, loc⟩
  | .rawInclude file _ loc => some ⟨.inclusion file, loc⟩
  | .extends file loc => some ⟨.parent file, loc⟩
  | .comment value buffered loc => some ⟨.comment value buffered, loc⟩
  | .blockComment value buffered _ loc => some ⟨.comment value buffered, loc⟩
  | .doctype value loc => some ⟨.doctype value, loc⟩

/-- The headings of the nodes of a list and of those below them. -/
def headingsBelow (nodes : List Node) : List Heading :=
  (Preorder.ofNodes nodes).filterMap Node.heading?

/-- The headings of a tree. -/
def Block.headings (tree : Block) : List Heading := tree.preorder.filterMap Node.heading?

namespace Scan

/-- Where a scan of tokens stands. -/
inductive Place where
  | open
  /-- In the head of an element. -/
  | head
  /-- Between an include and its path. -/
  | inclusion
  deriving DecidableEq

/-- The place behind a lexeme. Attributes leave it as it is. -/
def Place.next (place : Place) : Lexeme → Place
  | .tag _ => .head
  | .interpolation _ => .head
  | .call _ _ => .head
  | .idName _ => .head
  | .className _ => .head
  | .andAttributes _ => place
  | .startAttributes => place
  | .attribute _ _ _ => place
  | .endAttributes => place
  | .include => .inclusion
  | .filter _ => if place = .inclusion then .inclusion else .open
  | _ => .open

/-- The first path that comes. -/
def path? (o : Options) : List Token → Option FileRef
  | [] => none
  | ⟨.path path, pos⟩ :: _ => some ⟨Text.trim path, o.place pos⟩
  | _ :: ts => path? o ts

/-- The text of a line or of a line break. -/
def lineText (t : Token) : String :=
  match t.lexeme with
  | .text value => value
  | .newline => "\n"
  | _ => ""

/-- The text of the region that comes next, if one does. -/
def regionText : List Token → String
  | ⟨.startPipelessText, _⟩ :: ts =>
      String.join ((ts.takeWhile (·.lexeme ≠ .endPipelessText)).map lineText)
  | _ => ""

/-- The label of a token in a place in front of other tokens, if it has one. -/
def label? (o : Options) (place : Place) (l : Lexeme) (ts : List Token) : Option Label :=
  match l with
  | .tag name => some (.element name)
  | .interpolation expr => some (.interpolated expr)
  | .call name args => some (.mixin name args)
  | .mixin name args => some (.mixin name args)
  | .mixinBlock => some .mixinBlock
  | .yield => some .yield
  | .block name mode => some (.namedBlock (Text.trim name) mode)
  | .doctype value => some (.doctype value)
  | .case expr => some (.case expr)
  | .when expr => some (.branch expr)
  | .default => some (.branch defaultExpr)
  | .extends => (path? o ts).map .parent
  | .include => (path? o ts).map .inclusion
  | .filter name => if place = .inclusion then none else some (.filter name)
  | .comment value buffered => some (.comment value buffered)
  | .each iteration => some (.each iteration)
  | .code c => some (.code c)
  | .interpolatedCode c => some (.code c)
  | .blockCode => some (.code ⟨regionText ts, false, false⟩)
  | .if test => some (.conditional test)
  | .elseIf test => some (.conditional test)
  | .while test => some (.while test)
  | .idName _ => if place = .head then none else some (.element "div")
  | .className _ => if place = .head then none else some (.element "div")
  | _ => none

/-- The headings of the tokens from a place on. -/
def headings (o : Options) : Place → List Token → List Heading
  | _, [] => []
  | place, ⟨l, pos⟩ :: ts =>
      ((label? o place l ts).map (⟨·, o.place pos⟩)).toList ++ headings o (place.next l) ts

end Scan

/-- The headings of an input: those of its tokens before the first end-of-stream token. -/
def tokenHeadings (o : Options) (ts : List Token) : List Heading :=
  Scan.headings o .open (beforeEos ts)

end Pug
