/-
# What a derivation gives to the tree

Not all that is derived is in the tree: the block under an include that is put in as it
is, what stands behind the dot on the line of an element, and the comments between the
branches of a case are read and dropped. A property holds `Throughout` a derivation if
it holds of the derivation and of all that is in it and not dropped.
-/

import Pug.Proofs.Derivation.Meaning
import Pug.Proofs.Tree.Lineage

namespace Pug

open Grammar

/-- The nodes that the meaning of a derivation adds to a list of nodes. What stands on
the line of an element, and its body, are those of an element at `loc` with `attrs`. -/
def Meaning.nodes (loc : Location) (attrs : Attributes) : (s : Symbol) → Meaning s → List Node
  | .items, nodes => nodes
  | .block, b => Block.nodes b
  | .nested, b => Option.elim b [] Block.nodes
  | .region, b => Option.elim b [] Block.nodes
  | .parts _, nodes => nodes
  | .fragment, node => node.spliced
  | .html, nodes => nodes
  | .content _, line => (line loc).block.nodes
  | .body _, b => (b loc attrs).block.nodes
  | .expansion, b => Block.nodes b
  | .branches, nodes => nodes
  | .alternates, none => []
  | .alternates, some (.elseIf test consequent alternate place) =>
      [.conditional test consequent alternate place]
  | .alternates, some (.otherwise b) => b.nodes
  | .filter, node => [node]
  | .expr, node => node.spliced

/-- The nodes of an alternate are those that stand below its conditional. -/
theorem Meaning.nodes_alternates (loc : Location) (attrs : Attributes)
    (alternate : Option Alternate) :
    Meaning.nodes loc attrs .alternates alternate = alternate.elim [] Alternate.nodes := by
  match alternate with
  | none => rfl
  | some (.elseIf test consequent rest place) => rfl
  | some (.otherwise body) => rfl

/-- The nodes of an alternate are those that it adds to a list of nodes. -/
theorem Meaning.ofAlternates_eq (loc : Location) (attrs : Attributes)
    (alternate : Option Alternate) :
    Preorder.ofAlternates alternate =
      Preorder.ofNodes (Meaning.nodes loc attrs .alternates alternate) := by
  rw [Preorder.ofAlternates_eq, nodes_alternates]

namespace Derivation

/-- The property `p` holds of a derivation and of all that it gives to the tree. -/
def Throughout (o : Options) (p : (s : Symbol) → Derivation s → Prop) :
    {s : Symbol} → Derivation s → Prop
  | _, .nil => p _ .nil
  | _, .newline pos rest => p _ (.newline pos rest) ∧ rest.Throughout o p
  | _, .item e rest => p _ (.item e rest) ∧ e.Throughout o p ∧ rest.Throughout o p
  | _, .block indent items outdent => p _ (.block indent items outdent) ∧ items.Throughout o p
  | _, .noBlock => p _ .noBlock
  | _, .someBlock b => p _ (.someBlock b) ∧ b.Throughout o p
  | _, .noRegion => p _ .noRegion
  | _, .someRegion start parts stop => p _ (.someRegion start parts stop) ∧ parts.Throughout o p
  | .parts layout, .endParts => p (.parts layout) .endParts
  | _, .lineBreak spread pos rest => p _ (.lineBreak spread pos rest) ∧ rest.Throughout o p
  | _, .part f rest => p _ (.part f rest) ∧ f.Throughout o p ∧ rest.Throughout o p
  | _, .plain piece => p _ (.plain piece)
  | _, .interpolated start e stop => p _ (.interpolated start e stop) ∧ e.Throughout o p
  | _, .endHtml => p _ .endHtml
  | _, .htmlNewline pos rest => p _ (.htmlNewline pos rest) ∧ rest.Throughout o p
  | _, .htmlLine value pos rest => p _ (.htmlLine value pos rest) ∧ rest.Throughout o p
  | _, .htmlBlock b rest => p _ (.htmlBlock b rest) ∧ b.Throughout o p ∧ rest.Throughout o p
  | .content closable, .noContent => p (.content closable) .noContent
  | .content closable, .lineRun first rest =>
      p (.content closable) (.lineRun first rest) ∧ rest.Throughout o p
  | .content closable, .lineCode c pos => p (.content closable) (.lineCode c pos)
  | .content closable, .colon pos e => p (.content closable) (.colon pos e) ∧ e.Throughout o p
  | _, .slash pos => p _ (.slash pos)
  | _, .nesting content newlines nested =>
      p _ (.nesting content newlines nested) ∧ content.Throughout o p ∧ nested.Throughout o p
  | _, .textOnly pos content newlines region =>
      p _ (.textOnly pos content newlines region) ∧ region.Throughout o p
  | _, .expandColon pos e => p _ (.expandColon pos e) ∧ e.Throughout o p
  | _, .expandBlock b => p _ (.expandBlock b) ∧ b.Throughout o p
  | _, .endBranches => p _ .endBranches
  | _, .branchNewline pos rest => p _ (.branchNewline pos rest) ∧ rest.Throughout o p
  | _, .branchComment value buffered pos rest =>
      p _ (.branchComment value buffered pos rest) ∧ rest.Throughout o p
  | _, .fallthrough expr pos rest => p _ (.fallthrough expr pos rest) ∧ rest.Throughout o p
  | _, .when expr pos body rest =>
      p _ (.when expr pos body rest) ∧ body.Throughout o p ∧ rest.Throughout o p
  | _, .default pos body rest =>
      p _ (.default pos body rest) ∧ body.Throughout o p ∧ rest.Throughout o p
  | _, .endAlternates => p _ .endAlternates
  | _, .elseIf newlines test pos nested rest =>
      p _ (.elseIf newlines test pos nested rest) ∧ nested.Throughout o p ∧ rest.Throughout o p
  | _, .otherwise newlines pos nested =>
      p _ (.otherwise newlines pos nested) ∧ nested.Throughout o p
  | _, .filterText name pos group value place => p _ (.filterText name pos group value place)
  | _, .filterNested name pos group inner =>
      p _ (.filterNested name pos group inner) ∧ inner.Throughout o p
  | _, .filterRegion name pos group region =>
      p _ (.filterRegion name pos group region) ∧ region.Throughout o p
  | _, .tag name pos head body => p _ (.tag name pos head body) ∧ body.Throughout o p
  | _, .interpolatedTag expr pos head body =>
      p _ (.interpolatedTag expr pos head body) ∧ body.Throughout o p
  | _, .shorthand first head body => p _ (.shorthand first head body) ∧ body.Throughout o p
  | _, .call name args pos head body => p _ (.call name args pos head body) ∧ body.Throughout o p
  | _, .mixin name args pos nested => p _ (.mixin name args pos nested) ∧ nested.Throughout o p
  | _, .mixinBlock pos => p _ (.mixinBlock pos)
  | _, .yield pos => p _ (.yield pos)
  | _, .namedBlock name mode pos nested =>
      p _ (.namedBlock name mode pos nested) ∧ nested.Throughout o p
  | _, .doctype value pos => p _ (.doctype value pos)
  | _, .caseOf expr pos indent branches outdent =>
      p _ (.caseOf expr pos indent branches outdent) ∧ branches.Throughout o p
  | _, .parent pos path place => p _ (.parent pos path place)
  | _, .inclusion pos filters path place nested =>
      p _ (.inclusion pos filters path place nested) ∧
        (o.target (Text.trim path) ≠ .raw → nested.Throughout o p)
  | _, .filter f => p _ (.filter f) ∧ f.Throughout o p
  | _, .comment value buffered pos region =>
      p _ (.comment value buffered pos region) ∧ region.Throughout o p
  | _, .dot pos region => p _ (.dot pos region) ∧ region.Throughout o p
  | _, .run first rest => p _ (.run first rest) ∧ first.Throughout o p ∧ rest.Throughout o p
  | _, .html value pos rest => p _ (.html value pos rest) ∧ rest.Throughout o p
  | _, .each iteration pos body => p _ (.each iteration pos body) ∧ body.Throughout o p
  | _, .eachElse iteration pos body place alternate =>
      p _ (.eachElse iteration pos body place alternate) ∧ body.Throughout o p ∧
        alternate.Throughout o p
  | _, .whileLoop test pos nested => p _ (.whileLoop test pos nested) ∧ nested.Throughout o p
  | _, .conditional test pos nested rest =>
      p _ (.conditional test pos nested rest) ∧ nested.Throughout o p ∧ rest.Throughout o p
  | _, .code c pos nested => p _ (.code c pos nested) ∧ nested.Throughout o p
  | _, .blockCode pos region => p _ (.blockCode pos region)

end Derivation
end Pug
