/-
# Trees as JSON

A block is an object with its nodes and its location; a node is an object with its
kind as `type`, its fields and its location. Every field is written, and `null`
stands for what is absent. An alternate is written like the node that it amounts
to: a conditional or a block.

What is nested in a value is read under a bound on the depth. The depth of the
value itself is such a bound.
-/

import Pug.Json.Token
import Pug.Tree.Basic

namespace Pug

namespace Attribute

/-- An attribute as JSON. -/
def toJson (a : Attribute) : Json :=
  .object [("name", .string a.name), ("val", .string a.value), ("must_escape", .bool a.escaped),
    ("loc", a.loc.toJson)]

/-- Reads an attribute. -/
def ofJson? (j : Json) : Option Attribute := do
  let name ← j.required Json.string? "name"
  let value ← j.required Json.string? "val"
  let escaped ← j.required Json.bool? "must_escape"
  let loc ← j.required Location.ofJson? "loc"
  return ⟨name, value, escaped, loc⟩

end Attribute

namespace Spread

/-- A spread as JSON. -/
def toJson (s : Spread) : Json := .object [("val", .string s.expr), ("loc", s.loc.toJson)]

/-- Reads a spread. -/
def ofJson? (j : Json) : Option Spread := do
  let expr ← j.required Json.string? "val"
  let loc ← j.required Location.ofJson? "loc"
  return ⟨expr, loc⟩

end Spread

namespace Attributes

/-- The members of attributes. -/
def members (a : Attributes) : List (String × Json) :=
  [("attrs", .ofList Attribute.toJson a.listed),
    ("attribute_blocks", .ofList Spread.toJson a.spreads)]

/-- Reads the members of attributes. -/
def ofJson? (j : Json) : Option Attributes := do
  let listed ← j.required (Json.list? Attribute.ofJson?) "attrs"
  let spreads ← j.required (Json.list? Spread.ofJson?) "attribute_blocks"
  return ⟨listed, spreads⟩

end Attributes

namespace FileRef

/-- A file reference as JSON. -/
def toJson (f : FileRef) : Json := .object [("path", .string f.path), ("loc", f.loc.toJson)]

/-- Reads a file reference. -/
def ofJson? (j : Json) : Option FileRef := do
  let path ← j.required Json.string? "path"
  let loc ← j.required Location.ofJson? "loc"
  return ⟨path, loc⟩

end FileRef

namespace IncludeFilter

/-- The members of the filter of an include. -/
def members (f : IncludeFilter) : List (String × Json) :=
  [("name", .string f.name), ("attrs", .ofList Attribute.toJson f.attrs), ("loc", f.loc.toJson)]

/-- The filter of an include as JSON. -/
def toJson (f : IncludeFilter) : Json := .object f.members

/-- Reads the filter of an include, or the members of one. -/
def ofJson? (j : Json) : Option IncludeFilter := do
  let name ← j.required Json.string? "name"
  let attrs ← j.required (Json.list? Attribute.ofJson?) "attrs"
  let loc ← j.required Location.ofJson? "loc"
  return ⟨name, attrs, loc⟩

end IncludeFilter

mutual

/-- A block as JSON. -/
def Block.toJson : Block → Json
  | ⟨nodes, loc⟩ => .object [("nodes", .array (Node.listToJson nodes)), ("loc", loc.toJson)]

/-- A block that may be absent, as JSON. -/
def Block.optionToJson : Option Block → Json
  | none => .null
  | some body => body.toJson

/-- The nodes of a list as JSON. -/
def Node.listToJson : List Node → List Json
  | [] => []
  | node :: nodes => node.toJson :: Node.listToJson nodes

/-- A node as JSON. -/
def Node.toJson (node : Node) : Json :=
  .object (("type", .string node.kind) ::
    match node with
    | .block ⟨nodes, loc⟩ => [("nodes", .array (Node.listToJson nodes)), ("loc", loc.toJson)]
    | .tag name selfClosing textOnly isInline attrs body loc =>
        [("name", .string name), ("self_closing", .bool selfClosing), ("text_only", .bool textOnly),
          ("is_inline", .bool isInline)] ++ attrs.members ++
          [("block", body.toJson), ("loc", loc.toJson)]
    | .interpolatedTag expr selfClosing textOnly attrs body loc =>
        [("expr", .string expr), ("self_closing", .bool selfClosing),
          ("text_only", .bool textOnly)] ++ attrs.members ++
          [("block", body.toJson), ("loc", loc.toJson)]
    | .text value isHtml loc =>
        [("val", .string value), ("is_html", .bool isHtml), ("loc", loc.toJson)]
    | .code c isInline body loc =>
        c.members ++ [("is_inline", .bool isInline), ("block", Block.optionToJson body),
          ("loc", loc.toJson)]
    | .conditional test consequent alternate loc =>
        [("test", .string test), ("consequent", consequent.toJson),
          ("alternate", Alternate.optionToJson alternate), ("loc", loc.toJson)]
    | .while test body loc =>
        [("test", .string test), ("block", body.toJson), ("loc", loc.toJson)]
    | .each iteration body alternate loc =>
        iteration.members ++ [("block", body.toJson), ("alternate", Block.optionToJson alternate),
          ("loc", loc.toJson)]
    | .case expr body loc =>
        [("expr", .string expr), ("block", body.toJson), ("loc", loc.toJson)]
    | .when expr body loc =>
        [("expr", .string expr), ("block", Block.optionToJson body), ("loc", loc.toJson)]
    | .mixin name args isCall attrs body loc =>
        [("name", .string name), ("args", .ofString? args), ("block", Block.optionToJson body),
          ("call", .bool isCall)] ++ attrs.members ++ [("loc", loc.toJson)]
    | .mixinBlock loc => [("loc", loc.toJson)]
    | .yieldBlock loc => [("loc", loc.toJson)]
    | .namedBlock name mode body loc =>
        [("name", .string name), ("mode", mode.toJson), ("block", body.toJson),
          ("loc", loc.toJson)]
    | .filter name attrs body loc =>
        [("name", .string name), ("attrs", .ofList Attribute.toJson attrs),
          ("block", body.toJson), ("loc", loc.toJson)]
    | .includeFilter f => f.members
    | .include file body loc =>
        [("file", file.toJson), ("block", Block.optionToJson body), ("loc", loc.toJson)]
    | .rawInclude file filters loc =>
        [("file", file.toJson), ("filters", .ofList IncludeFilter.toJson filters),
          ("loc", loc.toJson)]
    | .extends file loc => [("file", file.toJson), ("loc", loc.toJson)]
    | .comment value buffered loc =>
        [("val", .string value), ("buffer", .bool buffered), ("loc", loc.toJson)]
    | .blockComment value buffered body loc =>
        [("val", .string value), ("buffer", .bool buffered), ("block", body.toJson),
          ("loc", loc.toJson)]
    | .doctype value loc => [("val", .string value), ("loc", loc.toJson)])

/-- An alternate that may be absent, as JSON. -/
def Alternate.optionToJson : Option Alternate → Json
  | none => .null
  | some alternate => alternate.toJson

/-- An alternate as JSON. -/
def Alternate.toJson : Alternate → Json
  | .elseIf test consequent alternate loc =>
      .object [("type", .string "Conditional"), ("test", .string test),
        ("consequent", consequent.toJson), ("alternate", Alternate.optionToJson alternate),
        ("loc", loc.toJson)]
  | .otherwise ⟨nodes, loc⟩ =>
      .object [("type", .string "Block"), ("nodes", .array (Node.listToJson nodes)),
        ("loc", loc.toJson)]

end

mutual

/-- Reads a block that is nested at most so deep. -/
def Block.read? : Nat → Json → Option Block
  | 0, _ => none
  | depth + 1, j => do
    let nodes ← j.required (Json.list? (Node.read? depth)) "nodes"
    let loc ← j.required Location.ofJson? "loc"
    return ⟨nodes, loc⟩

/-- Reads a node that is nested at most so deep. -/
def Node.read? : Nat → Json → Option Node
  | 0, _ => none
  | depth + 1, j => do
    let kind ← j.required Json.string? "type"
    let loc ← j.required Location.ofJson? "loc"
    match kind with
    | "Block" => return .block (← Block.read? depth j)
    | "Tag" =>
      return .tag (← j.required Json.string? "name") (← j.required Json.bool? "self_closing")
        (← j.required Json.bool? "text_only") (← j.required Json.bool? "is_inline")
        (← Attributes.ofJson? j) (← j.required (Block.read? depth) "block") loc
    | "InterpolatedTag" =>
      return .interpolatedTag (← j.required Json.string? "expr")
        (← j.required Json.bool? "self_closing") (← j.required Json.bool? "text_only")
        (← Attributes.ofJson? j)
        (← j.required (Block.read? depth) "block") loc
    | "Text" =>
      return .text (← j.required Json.string? "val") (← j.required Json.bool? "is_html") loc
    | "Code" =>
      return .code (← Code.ofJson? j) (← j.required Json.bool? "is_inline")
        (← j.optional (Block.read? depth) "block") loc
    | "Conditional" =>
      return .conditional (← j.required Json.string? "test")
        (← j.required (Block.read? depth) "consequent")
        (← j.optional (Alternate.read? depth) "alternate") loc
    | "While" =>
      return .while (← j.required Json.string? "test") (← j.required (Block.read? depth) "block")
        loc
    | "Each" =>
      return .each (← Iteration.ofJson? j) (← j.required (Block.read? depth) "block")
        (← j.optional (Block.read? depth) "alternate") loc
    | "Case" =>
      return .case (← j.required Json.string? "expr") (← j.required (Block.read? depth) "block") loc
    | "When" =>
      return .when (← j.required Json.string? "expr") (← j.optional (Block.read? depth) "block") loc
    | "Mixin" =>
      return .mixin (← j.required Json.string? "name") (← j.optional Json.string? "args")
        (← j.required Json.bool? "call") (← Attributes.ofJson? j)
        (← j.optional (Block.read? depth) "block") loc
    | "MixinBlock" => return .mixinBlock loc
    | "YieldBlock" => return .yieldBlock loc
    | "NamedBlock" =>
      return .namedBlock (← j.required Json.string? "name") (← j.required BlockMode.ofJson? "mode")
        (← j.required (Block.read? depth) "block") loc
    | "Filter" =>
      return .filter (← j.required Json.string? "name")
        (← j.required (Json.list? Attribute.ofJson?) "attrs")
        (← j.required (Block.read? depth) "block") loc
    | "IncludeFilter" => return .includeFilter (← IncludeFilter.ofJson? j)
    | "Include" =>
      return .include (← j.required FileRef.ofJson? "file")
        (← j.optional (Block.read? depth) "block") loc
    | "RawInclude" =>
      return .rawInclude (← j.required FileRef.ofJson? "file")
        (← j.required (Json.list? IncludeFilter.ofJson?) "filters") loc
    | "Extends" => return .extends (← j.required FileRef.ofJson? "file") loc
    | "Comment" =>
      return .comment (← j.required Json.string? "val") (← j.required Json.bool? "buffer") loc
    | "BlockComment" =>
      return .blockComment (← j.required Json.string? "val") (← j.required Json.bool? "buffer")
        (← j.required (Block.read? depth) "block") loc
    | "Doctype" => return .doctype (← j.required Json.string? "val") loc
    | _ => none

/-- Reads an alternate that is nested at most so deep. -/
def Alternate.read? : Nat → Json → Option Alternate
  | 0, _ => none
  | depth + 1, j => do
    match ← j.required Json.string? "type" with
    | "Conditional" =>
      return .elseIf (← j.required Json.string? "test")
        (← j.required (Block.read? depth) "consequent")
        (← j.optional (Alternate.read? depth) "alternate") (← j.required Location.ofJson? "loc")
    | "Block" => return .otherwise (← Block.read? depth j)
    | _ => none

end

/-- Reads a block. -/
def Block.ofJson? (j : Json) : Option Block := Block.read? j.depth j

end Pug
