/-
# The syntax tree of a template

A block is a list of nodes. A node is an element, a piece of text or code, a
control structure, a mixin or one of the parts of which templates are put
together. Every node, block, attribute and file reference knows where it is.

Blocks, nodes and the alternates of conditionals are defined together: a node
may have a block, and the alternate of a conditional may be a conditional.
-/

import Pug.Payload
import Pug.Position

namespace Pug

/-- An attribute of an element, a mixin call or a filter. -/
structure Attribute where
  name : String
  value : String
  /-- Whether the value is escaped when it is put out. -/
  escaped : Bool
  loc : Location
  deriving DecidableEq

/-- An expression whose members all become attributes. -/
structure Spread where
  expr : String
  loc : Location
  deriving DecidableEq

/-- The attributes of an element or a mixin call. -/
structure Attributes where
  listed : List Attribute
  spreads : List Spread
  deriving DecidableEq

/-- A path as it is written in a template. -/
structure FileRef where
  path : String
  loc : Location
  deriving DecidableEq

/-- A filter that an included file goes through. -/
structure IncludeFilter where
  name : String
  attrs : List Attribute
  loc : Location
  deriving DecidableEq

mutual

/-- A list of nodes. -/
structure Block where
  nodes : List Node
  loc : Location

/-- A node of the tree. -/
inductive Node where
  | block (body : Block)
  | tag (name : String) (selfClosing textOnly isInline : Bool) (attrs : Attributes)
    (body : Block) (loc : Location)
  | interpolatedTag (expr : String) (selfClosing textOnly : Bool) (attrs : Attributes)
    (body : Block) (loc : Location)
  | text (value : String) (isHtml : Bool) (loc : Location)
  | code (code : Code) (isInline : Bool) (body : Option Block) (loc : Location)
  | conditional (test : String) (consequent : Block) (alternate : Option Alternate)
    (loc : Location)
  | while (test : String) (body : Block) (loc : Location)
  | each (iteration : Iteration) (body : Block) (alternate : Option Block) (loc : Location)
  | case (expr : String) (body : Block) (loc : Location)
  | when (expr : String) (body : Option Block) (loc : Location)
  | mixin (name : String) (args : Option String) (isCall : Bool) (attrs : Attributes)
    (body : Option Block) (loc : Location)
  | mixinBlock (loc : Location)
  | yieldBlock (loc : Location)
  | namedBlock (name : String) (mode : BlockMode) (body : Block) (loc : Location)
  | filter (name : String) (attrs : List Attribute) (body : Block) (loc : Location)
  | includeFilter (filter : IncludeFilter)
  | include (file : FileRef) (body : Option Block) (loc : Location)
  | rawInclude (file : FileRef) (filters : List IncludeFilter) (loc : Location)
  | extends (file : FileRef) (loc : Location)
  | comment (value : String) (buffered : Bool) (loc : Location)
  | blockComment (value : String) (buffered : Bool) (body : Block) (loc : Location)
  | doctype (value : String) (loc : Location)

/-- What a conditional does when its test fails. -/
inductive Alternate where
  | elseIf (test : String) (consequent : Block) (alternate : Option Alternate) (loc : Location)
  | otherwise (body : Block)

end

/-- The elements that stand inside a line of text. -/
def inlineNames : List String :=
  ["a", "abbr", "acronym", "b", "br", "code", "em", "font", "i", "img", "ins", "kbd", "map",
    "samp", "small", "span", "strong", "sub", "sup"]

/-- Whether an element of this name stands inside a line of text. -/
def isInlineName (name : String) : Bool := inlineNames.contains name

/-- The expression of the default branch of a `case`. -/
def defaultExpr : String := "default"

namespace Attributes

/-- No attributes. -/
def empty : Attributes := ⟨[], []⟩

end Attributes

namespace Block

/-- The block without nodes at a location. -/
def empty (loc : Location) : Block := ⟨[], loc⟩

/-- Whether a block has no nodes. -/
def isEmpty (b : Block) : Bool := b.nodes.isEmpty

/-- The number of nodes of a block. -/
def size (b : Block) : Nat := b.nodes.length

end Block

namespace Node

/-- The nodes that a node adds to the list it is put into: a block its own nodes,
any other node itself. -/
def spliced : Node → List Node
  | .block body => body.nodes
  | node => [node]

/-- A node as the body of something at `loc`: a block is such a body, any other
node is put into one. -/
def asBody (loc : Location) : Node → Block
  | .block body => body
  | node => ⟨[node], loc⟩

/-- The name of a node's kind. -/
def kind : Node → String
  | .block _ => "Block"
  | .tag .. => "Tag"
  | .interpolatedTag .. => "InterpolatedTag"
  | .text .. => "Text"
  | .code .. => "Code"
  | .conditional .. => "Conditional"
  | .while .. => "While"
  | .each .. => "Each"
  | .case .. => "Case"
  | .when .. => "When"
  | .mixin .. => "Mixin"
  | .mixinBlock _ => "MixinBlock"
  | .yieldBlock _ => "YieldBlock"
  | .namedBlock .. => "NamedBlock"
  | .filter .. => "Filter"
  | .includeFilter _ => "IncludeFilter"
  | .include .. => "Include"
  | .rawInclude .. => "RawInclude"
  | .extends .. => "Extends"
  | .comment .. => "Comment"
  | .blockComment .. => "BlockComment"
  | .doctype .. => "Doctype"

/-- Where a node is. -/
def loc : Node → Location
  | .block body => body.loc
  | .tag _ _ _ _ _ _ loc => loc
  | .interpolatedTag _ _ _ _ _ loc => loc
  | .text _ _ loc => loc
  | .code _ _ _ loc => loc
  | .conditional _ _ _ loc => loc
  | .while _ _ loc => loc
  | .each _ _ _ loc => loc
  | .case _ _ loc => loc
  | .when _ _ loc => loc
  | .mixin _ _ _ _ _ loc => loc
  | .mixinBlock loc => loc
  | .yieldBlock loc => loc
  | .namedBlock _ _ _ loc => loc
  | .filter _ _ _ loc => loc
  | .includeFilter f => f.loc
  | .include _ _ loc => loc
  | .rawInclude _ _ loc => loc
  | .extends _ loc => loc
  | .comment _ _ loc => loc
  | .blockComment _ _ _ loc => loc
  | .doctype _ loc => loc

/-- The text that tells a node from others of its kind. -/
def label : Node → String
  | .block _ => ""
  | .tag name _ _ _ _ _ _ => name
  | .interpolatedTag expr _ _ _ _ _ => expr
  | .text value _ _ => value
  | .code c _ _ _ => c.source
  | .conditional test _ _ _ => test
  | .while test _ _ => test
  | .each iteration _ _ _ => iteration.collection
  | .case expr _ _ => expr
  | .when expr _ _ => if expr = defaultExpr then "<default>" else expr
  | .mixin name _ _ _ _ _ => name
  | .mixinBlock _ => ""
  | .yieldBlock _ => ""
  | .namedBlock name _ _ _ => name
  | .filter name _ _ _ => name
  | .includeFilter f => f.name
  | .include file _ _ => file.path
  | .rawInclude file _ _ => file.path
  | .extends file _ => file.path
  | .comment value _ _ => value
  | .blockComment value _ _ _ => value
  | .doctype value _ => value

end Node
end Pug
