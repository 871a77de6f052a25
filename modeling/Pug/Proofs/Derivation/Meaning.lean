/-
# What a derivation means

A derivation of the items of a template means a list of nodes, a derivation of an
expression means a node, and so on for every symbol. What stands on the line of an
element, and its body, mean something only at the location of the element. Next to
its meaning a derivation has a trail: the events that a reading of its tokens
leaves behind.
-/

import Pug.Grammar.Mixin
import Pug.Proofs.Derivation.Basic
import Pug.Report.Event
import Pug.Grammar.Html

namespace Pug

open Grammar

/-- What a derivation of a symbol means. -/
abbrev Meaning : Symbol → Type
  | .items => List Node
  | .block => Block
  | .nested => Option Block
  | .region => Option Block
  | .parts _ => List Node
  | .fragment => Node
  | .html => List Node
  | .content _ => Location → Content
  | .body _ => Location → Attributes → Body
  | .expansion => Block
  | .branches => List Node
  | .alternates => Option Alternate
  | .filter => Node
  | .expr => Node

/-- A position in the template that is read. -/
def Options.place (o : Options) (pos : Position) : Location := ⟨pos, o.filename⟩

namespace Group

/-- The attributes of a group. -/
def listed (o : Options) (g : Group) : List Attribute :=
  g.attrs.map fun a => ⟨a.name, a.value, a.escaped, o.place a.pos⟩

/-- The attributes of a group that may be absent. -/
def listed? (o : Options) : Option Group → List Attribute
  | none => []
  | some g => g.listed o

/-- The token behind the attributes is put back once. -/
def trail? : Option Group → List Event
  | none => []
  | some _ => [.deferred 1]

end Group

namespace HeadItem

/-- The attributes that an item of a head lists. -/
def listed (o : Options) : HeadItem → List Attribute
  | .shorthand (.idName value pos) => [⟨"id", value, false, o.place pos⟩]
  | .shorthand (.className value pos) => [⟨"class", value, false, o.place pos⟩]
  | .andAttributes _ _ => []
  | .group g => g.listed o

/-- The spreads of an item of a head. -/
def spreads (o : Options) : HeadItem → List Spread
  | .andAttributes expr pos => [⟨expr, o.place pos⟩]
  | _ => []

/-- The attributes of a head. -/
def attributes (o : Options) (head : List HeadItem) : Attributes :=
  ⟨head.flatMap (listed o), head.flatMap (spreads o)⟩

/-- The events of the items of a head behind others, of which one may be a group. -/
def trail (o : Options) : Bool → List HeadItem → List Event
  | _, [] => []
  | grouped, .group g :: head =>
      (if grouped then [.warned ⟨.multipleAttributeGroups, o.place g.start⟩] else []) ++
        .deferred 1 :: trail o true head
  | grouped, _ :: head => trail o grouped head

end HeadItem

namespace Plain

/-- The node of a piece of text or code. -/
def node (o : Options) : Plain → Node
  | .text value pos => .text value false (o.place pos)
  | .code c pos => .code c true none (o.place pos)

end Plain

namespace FilterToken

/-- The filter of an include. -/
def filter (o : Options) (f : FilterToken) : IncludeFilter :=
  ⟨f.name, Group.listed? o f.group, o.place f.pos⟩

/-- The events of a filter of an include. -/
def trail (f : FilterToken) : List Event := Group.trail? f.group

end FilterToken

namespace CodeToken

/-- The text of a part of a region of code. -/
def source : CodeToken → String
  | .text value _ => value
  | .newline _ => "\n"

end CodeToken

namespace CodeRegion

/-- The text of a region of code that may be absent. -/
def source? : Option CodeRegion → String
  | none => ""
  | some r => String.join (r.parts.map CodeToken.source)

end CodeRegion

namespace Layout

/-- Whether a line break in front of tokens is kept: in a region always, in a run in
front of text or code. -/
def keeps (layout : Layout) (ts : List Token) : Bool :=
  layout = .region || ts.head?.any keepsBreak

end Layout

namespace Derivation

/-- Where a fragment begins. -/
def fragmentStart : Derivation .fragment → Position
  | .plain p => p.token.pos
  | .interpolated start _ _ => start

/-- What a derivation means under options. -/
def meaning (o : Options) : {s : Symbol} → Derivation s → Meaning s
  | _, .nil => []
  | _, .newline _ rest => rest.meaning o
  | _, .item e rest => (e.meaning o).spliced ++ rest.meaning o
  | _, .block indent items _ => ⟨items.meaning o, o.place indent⟩
  | _, .noBlock => none
  | _, .someBlock b => some (b.meaning o)
  | _, .noRegion => none
  | _, .someRegion start parts _ => some ⟨parts.meaning o, o.place start⟩
  | _, .endParts => []
  | .parts layout, .lineBreak _ pos rest =>
      (if layout.keeps rest.tokens then [.text "\n" false (o.place pos)] else []) ++
        rest.meaning o
  | _, .part f rest => f.meaning o :: rest.meaning o
  | _, .plain p => p.node o
  | _, .interpolated _ e _ => e.meaning o
  | _, .endHtml => []
  | _, .htmlNewline _ rest => rest.meaning o
  | _, .htmlLine value pos rest => .text value true (o.place pos) :: rest.meaning o
  | _, .htmlBlock b rest => (b.meaning o).nodes ++ rest.meaning o
  | _, .noContent => fun loc => .none loc
  | _, .lineRun first rest => fun loc => ⟨false, ⟨first.node o :: rest.meaning o, loc⟩⟩
  | _, .lineCode c pos => fun loc => ⟨false, ⟨[.code c true none (o.place pos)], loc⟩⟩
  | _, .colon pos e => fun _ => ⟨false, (e.meaning o).asBody (o.place pos)⟩
  | _, .slash _ => fun loc => ⟨true, .empty loc⟩
  | _, .nesting content _ nested => fun loc attrs =>
      let line := content.meaning o loc
      let below := (nested.meaning o).getD (.empty loc)
      ⟨attrs, line.selfClosing, false, { line.block with nodes := line.block.nodes ++ below.nodes }⟩
  | _, .textOnly _ content _ region => fun loc attrs =>
      ⟨attrs, (content.meaning o loc).selfClosing, true, (region.meaning o).getD (.empty loc)⟩
  | _, .expandColon pos e => (e.meaning o).asBody (o.place pos)
  | _, .expandBlock b => b.meaning o
  | _, .endBranches => []
  | _, .branchNewline _ rest => rest.meaning o
  | _, .branchComment _ _ _ rest => rest.meaning o
  | _, .fallthrough expr pos rest => .when expr none (o.place pos) :: rest.meaning o
  | _, .when expr pos body rest =>
      .when expr (some (body.meaning o)) (o.place pos) :: rest.meaning o
  | _, .default pos body rest =>
      .when defaultExpr (some (body.meaning o)) (o.place pos) :: rest.meaning o
  | _, .endAlternates => none
  | _, .elseIf _ test pos nested rest =>
      some (.elseIf test ((nested.meaning o).getD (.empty (o.place pos))) (rest.meaning o)
        (o.place pos))
  | _, .otherwise _ _ nested => (nested.meaning o).map .otherwise
  | _, .filterText name pos group value place =>
      .filter name (Group.listed? o group)
        ⟨[.text value false (o.place place)], o.place place⟩ (o.place pos)
  | _, .filterNested name pos group inner =>
      .filter name (Group.listed? o group) ⟨[inner.meaning o], o.place pos⟩ (o.place pos)
  | _, .filterRegion name pos group region =>
      .filter name (Group.listed? o group) ((region.meaning o).getD (.empty (o.place pos)))
        (o.place pos)
  | _, .tag name pos head body =>
      let b := body.meaning o (o.place pos) (HeadItem.attributes o head)
      .tag name b.selfClosing b.textOnly (isInlineName name) b.attrs b.block (o.place pos)
  | _, .interpolatedTag expr pos head body =>
      let b := body.meaning o (o.place pos) (HeadItem.attributes o head)
      .interpolatedTag expr b.selfClosing b.textOnly b.attrs b.block (o.place pos)
  | _, .shorthand first head body =>
      let b := body.meaning o (o.place first.pos)
        (HeadItem.attributes o (.shorthand first :: head))
      .tag "div" b.selfClosing b.textOnly (isInlineName "div") b.attrs b.block (o.place first.pos)
  | _, .call name args pos head body =>
      let b := body.meaning o (o.place pos) (HeadItem.attributes o head)
      .mixin name args true b.attrs (callBody b.block) (o.place pos)
  | _, .mixin name args pos nested =>
      .mixin name args (nested.meaning o).isNone .empty (nested.meaning o) (o.place pos)
  | _, .mixinBlock pos => .mixinBlock (o.place pos)
  | _, .yield pos => .yieldBlock (o.place pos)
  | _, .namedBlock name mode pos nested =>
      .namedBlock (Text.trim name) mode ((nested.meaning o).getD (.empty (o.place pos)))
        (o.place pos)
  | _, .doctype value pos => .doctype value (o.place pos)
  | _, .caseOf expr pos indent branches _ =>
      .case expr ⟨branches.meaning o, o.place indent⟩ (o.place pos)
  | _, .parent pos path place => .extends ⟨Text.trim path, o.place place⟩ (o.place pos)
  | _, .inclusion pos filters path place nested =>
      if o.target (Text.trim path) = .raw then
        .rawInclude ⟨Text.trim path, o.place place⟩ (filters.map (FilterToken.filter o))
          (o.place pos)
      else
        .include ⟨Text.trim path, o.place place⟩ (nested.meaning o) (o.place pos)
  | _, .filter f => f.meaning o
  | _, .comment value buffered pos region =>
      match region.meaning o with
      | some body => .blockComment value buffered body (o.place pos)
      | none => .comment value buffered (o.place pos)
  | _, .dot pos region => .block ((region.meaning o).getD (.empty (o.place pos)))
  | _, .run first rest =>
      gather (o.place first.fragmentStart) (first.meaning o :: rest.meaning o)
  | _, .html value pos rest =>
      .block ⟨joinHtml (.text value true (o.place pos) :: rest.meaning o), o.place pos⟩
  | _, .each iteration pos body => .each iteration (body.meaning o) none (o.place pos)
  | _, .eachElse iteration pos body _ alternate =>
      .each iteration (body.meaning o) (some (alternate.meaning o)) (o.place pos)
  | _, .whileLoop test pos nested =>
      .while test ((nested.meaning o).getD (.empty (o.place pos))) (o.place pos)
  | _, .conditional test pos nested rest =>
      .conditional test ((nested.meaning o).getD (.empty (o.place pos))) (rest.meaning o)
        (o.place pos)
  | _, .code c pos nested => .code c false (nested.meaning o) (o.place pos)
  | _, .blockCode pos region =>
      .code ⟨CodeRegion.source? region, false, false⟩ false none (o.place pos)

/-- The events of an include behind its filters, by what its path leads to. -/
def inclusionTrail (o : Options) (path : String) (filters : Nat) (loc : Location)
    (body : Option Block) (trail : List Event) : List Event :=
  let unfiltered := if filters = 0 then [] else [.unfiltered path filters]
  match o.target path with
  | .raw => trail ++ body.toList.map fun b => .discarded path b.size
  | .template => unfiltered ++ trail
  | .legacyTemplate =>
      .warned ⟨.legacyTemplateExtension path o.extension, loc⟩ :: unfiltered ++ trail

/-- The events that a reading of a derivation leaves behind. -/
def trail (o : Options) : {s : Symbol} → Derivation s → List Event
  | _, .nil => []
  | _, .newline _ rest => rest.trail o
  | _, .item e rest => e.trail o ++ rest.trail o
  | _, .block _ items _ => items.trail o
  | _, .noBlock => []
  | _, .someBlock b => b.trail o
  | _, .noRegion => []
  | _, .someRegion _ parts _ => parts.trail o
  | _, .endParts => []
  | _, .lineBreak _ _ rest => rest.trail o
  | _, .part f rest => f.trail o ++ rest.trail o
  | _, .plain _ => []
  | _, .interpolated _ e _ => e.trail o
  | _, .endHtml => []
  | _, .htmlNewline _ rest => rest.trail o
  | _, .htmlLine _ _ rest => rest.trail o
  | _, .htmlBlock b rest => b.trail o ++ rest.trail o
  | _, .noContent => []
  | _, .lineRun _ rest => rest.trail o
  | _, .lineCode _ _ => []
  | _, .colon _ e => e.trail o
  | _, .slash _ => []
  | _, .nesting content _ nested => content.trail o ++ nested.trail o
  | _, .textOnly _ content _ region => content.trail o ++ region.trail o
  | _, .expandColon _ e => e.trail o
  | _, .expandBlock b => b.trail o
  | _, .endBranches => []
  | _, .branchNewline _ rest => rest.trail o
  | _, .branchComment _ _ _ rest => rest.trail o
  | _, .fallthrough _ _ rest => rest.trail o
  | _, .when _ _ body rest => body.trail o ++ rest.trail o
  | _, .default _ body rest => body.trail o ++ rest.trail o
  | _, .endAlternates => []
  | _, .elseIf _ _ _ nested rest => nested.trail o ++ rest.trail o
  | _, .otherwise _ _ nested => nested.trail o
  | _, .filterText _ _ group _ _ => Group.trail? group
  | _, .filterNested _ _ group inner => Group.trail? group ++ inner.trail o
  | _, .filterRegion _ _ group region => Group.trail? group ++ region.trail o
  | _, .tag _ _ head body => HeadItem.trail o false head ++ body.trail o
  | _, .interpolatedTag _ _ head body => HeadItem.trail o false head ++ body.trail o
  | _, .shorthand first head body =>
      .shorthand first.pos.line :: .deferred 1 :: HeadItem.trail o false head ++ body.trail o
  | _, .call _ _ _ head body => HeadItem.trail o false head ++ body.trail o
  | _, .mixin name _ pos nested =>
      nested.trail o ++
        if (nested.meaning o).isNone then [.warned ⟨.legacyMixinCall name, o.place pos⟩] else []
  | _, .mixinBlock _ => []
  | _, .yield _ => []
  | _, .namedBlock _ _ _ nested => nested.trail o
  | _, .doctype _ _ => []
  | _, .caseOf _ _ _ branches _ => branches.trail o
  | _, .parent _ _ _ => []
  | _, .inclusion pos filters path _ nested =>
      filters.flatMap FilterToken.trail ++
        inclusionTrail o (Text.trim path) filters.length (o.place pos) (nested.meaning o)
          (nested.trail o)
  | _, .filter f => f.trail o
  | _, .comment _ _ _ region => region.trail o
  | _, .dot _ region => region.trail o
  | _, .run first rest => first.trail o ++ rest.trail o
  | _, .html _ _ rest => rest.trail o
  | _, .each _ _ body => body.trail o
  | _, .eachElse _ _ body _ alternate => body.trail o ++ alternate.trail o
  | _, .whileLoop _ _ nested => nested.trail o
  | _, .conditional _ _ nested rest => nested.trail o ++ rest.trail o
  | _, .code _ _ nested => nested.trail o
  | _, .blockCode _ _ => []

section Single

variable (o : Options) (e : Derivation .expr)

/-- The only item of a list means what it adds to the list. -/
theorem meaning_single : (item e nil).meaning o = (e.meaning o).spliced := by
  simp only [meaning, List.append_nil]

theorem trail_single : (item e nil).trail o = e.trail o := by
  simp only [trail, List.append_nil]

end Single

end Derivation
end Pug
