/-
# The outline of a tree

The outline lists the nodes of a block in preorder, one row a node: its depth,
its kind, its position and its label. The rows of a node's own block follow at
the next depth. The alternate of a conditional at depth `d` is a row at `d + 1`
with its block at `d + 2`; the next alternate in the chain is then one deeper.
-/

import Pug.Tree.Basic

namespace Pug

/-- A row of an outline. -/
structure Row where
  depth : Nat
  kind : String
  pos : Position
  label : String
  deriving DecidableEq

namespace Outline

mutual

/-- The rows of a node at a depth. -/
def ofNode (depth : Nat) (node : Node) : List Row :=
  ⟨depth, node.kind, node.loc.toPosition, node.label⟩ ::
    match node with
    | .block body => ofBlock (depth + 1) body
    | .tag _ _ _ _ _ body _ => ofBlock (depth + 1) body
    | .interpolatedTag _ _ _ _ body _ => ofBlock (depth + 1) body
    | .text _ _ _ => []
    | .code _ _ body _ => ofBody (depth + 1) body
    | .conditional _ consequent alternate _ =>
        ofBlock (depth + 1) consequent ++ ofAlternates (depth + 1) alternate
    | .while _ body _ => ofBlock (depth + 1) body
    | .each _ body alternate _ => ofBlock (depth + 1) body ++ ofElse (depth + 1) alternate
    | .case _ body _ => ofBlock (depth + 1) body
    | .when _ body _ => ofBody (depth + 1) body
    | .mixin _ _ _ _ body _ => ofBody (depth + 1) body
    | .mixinBlock _ => []
    | .yieldBlock _ => []
    | .namedBlock _ _ body _ => ofBlock (depth + 1) body
    | .filter _ _ body _ => ofBlock (depth + 1) body
    | .includeFilter _ => []
    | .include _ body _ => ofBody (depth + 1) body
    | .rawInclude _ _ _ => []
    | .extends _ _ => []
    | .comment _ _ _ => []
    | .blockComment _ _ body _ => ofBlock (depth + 1) body
    | .doctype _ _ => []

/-- The rows of a list of nodes at a depth. -/
def ofNodes (depth : Nat) : List Node → List Row
  | [] => []
  | node :: nodes => ofNode depth node ++ ofNodes depth nodes

/-- The rows of a block whose nodes are at a depth; the block itself has none. -/
def ofBlock (depth : Nat) : Block → List Row
  | ⟨nodes, _⟩ => ofNodes depth nodes

/-- The rows of a block that may be absent. -/
def ofBody (depth : Nat) : Option Block → List Row
  | none => []
  | some body => ofBlock depth body

/-- The rows of the block of a loop over nothing. -/
def ofElse (depth : Nat) : Option Block → List Row
  | none => []
  | some ⟨nodes, loc⟩ => ⟨depth, "EachElse", loc.toPosition, ""⟩ :: ofNodes (depth + 1) nodes

/-- The rows of the alternate of a conditional, if it has one. -/
def ofAlternates (depth : Nat) : Option Alternate → List Row
  | none => []
  | some alternate => ofAlternate depth alternate

/-- The rows of an alternate at a depth. -/
def ofAlternate (depth : Nat) : Alternate → List Row
  | .elseIf test consequent alternate loc =>
      ⟨depth, "ElseIf", loc.toPosition, test⟩ ::
        (ofBlock (depth + 1) consequent ++ ofAlternates (depth + 1) alternate)
  | .otherwise ⟨nodes, loc⟩ => ⟨depth, "Else", loc.toPosition, ""⟩ :: ofNodes (depth + 1) nodes

end

end Outline

/-- The outline of a block. -/
def Block.outline (b : Block) : List Row := Outline.ofBlock 0 b

end Pug
