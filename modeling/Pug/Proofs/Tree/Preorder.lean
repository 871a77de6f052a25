/-
# The nodes of a tree in preorder

Every node stands in front of what it has: of its block or its consequent, and then
of its alternate. An alternate with a test counts as a conditional in its place. The
filters of an include belong to their node and are not listed.
-/

import Pug.Tree.Basic

namespace Pug

namespace Preorder

mutual

/-- A node and the nodes below it. -/
def ofNode (node : Node) : List Node :=
  node ::
    match node with
    | .block body => ofBlock body
    | .tag _ _ _ _ _ body _ => ofBlock body
    | .interpolatedTag _ _ _ _ body _ => ofBlock body
    | .text _ _ _ => []
    | .code _ _ body _ => ofBody body
    | .conditional _ consequent alternate _ => ofBlock consequent ++ ofAlternates alternate
    | .while _ body _ => ofBlock body
    | .each _ body alternate _ => ofBlock body ++ ofBody alternate
    | .case _ body _ => ofBlock body
    | .when _ body _ => ofBody body
    | .mixin _ _ _ _ body _ => ofBody body
    | .mixinBlock _ => []
    | .yieldBlock _ => []
    | .namedBlock _ _ body _ => ofBlock body
    | .filter _ _ body _ => ofBlock body
    | .includeFilter _ => []
    | .include _ body _ => ofBody body
    | .rawInclude _ _ _ => []
    | .extends _ _ => []
    | .comment _ _ _ => []
    | .blockComment _ _ body _ => ofBlock body
    | .doctype _ _ => []

/-- The nodes of a list, each with the nodes below it. -/
def ofNodes : List Node → List Node
  | [] => []
  | node :: nodes => ofNode node ++ ofNodes nodes

/-- The nodes of a block. -/
def ofBlock : Block → List Node
  | ⟨nodes, _⟩ => ofNodes nodes

/-- The nodes of a block that may be absent. -/
def ofBody : Option Block → List Node
  | none => []
  | some body => ofBlock body

/-- The nodes of an alternate that may be absent. -/
def ofAlternates : Option Alternate → List Node
  | none => []
  | some alternate => ofAlternate alternate

/-- The nodes of an alternate. -/
def ofAlternate : Alternate → List Node
  | .elseIf test consequent alternate loc =>
      .conditional test consequent alternate loc :: (ofBlock consequent ++ ofAlternates alternate)
  | .otherwise body => ofBlock body

end

@[simp] theorem ofBlock_eq (b : Block) : ofBlock b = ofNodes b.nodes := by
  cases b
  simp [ofBlock]

@[simp] theorem ofBody_eq (b : Option Block) : ofBody b = ofNodes (b.elim [] Block.nodes) := by
  cases b <;> simp [ofBody, ofNodes]

/-- The nodes below a node. -/
def below : Node → List Node
  | .block body => ofNodes body.nodes
  | .tag _ _ _ _ _ body _ => ofNodes body.nodes
  | .interpolatedTag _ _ _ _ body _ => ofNodes body.nodes
  | .text _ _ _ => []
  | .code _ _ body _ => ofNodes (body.elim [] Block.nodes)
  | .conditional _ consequent alternate _ => ofNodes consequent.nodes ++ ofAlternates alternate
  | .while _ body _ => ofNodes body.nodes
  | .each _ body alternate _ => ofNodes body.nodes ++ ofNodes (alternate.elim [] Block.nodes)
  | .case _ body _ => ofNodes body.nodes
  | .when _ body _ => ofNodes (body.elim [] Block.nodes)
  | .mixin _ _ _ _ body _ => ofNodes (body.elim [] Block.nodes)
  | .mixinBlock _ => []
  | .yieldBlock _ => []
  | .namedBlock _ _ body _ => ofNodes body.nodes
  | .filter _ _ body _ => ofNodes body.nodes
  | .includeFilter _ => []
  | .include _ body _ => ofNodes (body.elim [] Block.nodes)
  | .rawInclude _ _ _ => []
  | .extends _ _ => []
  | .comment _ _ _ => []
  | .blockComment _ _ body _ => ofNodes body.nodes
  | .doctype _ _ => []

/-- **A node stands in front of the nodes below it.** -/
theorem ofNodes_cons (node : Node) (nodes : List Node) :
    ofNodes (node :: nodes) = node :: (below node ++ ofNodes nodes) := by
  cases node <;> simp [ofNodes, ofNode, below]

@[simp] theorem ofNodes_nil : ofNodes [] = [] := by
  simp [ofNodes]

@[simp] theorem ofNodes_append (nodes more : List Node) :
    ofNodes (nodes ++ more) = ofNodes nodes ++ ofNodes more := by
  induction nodes with
  | nil => simp
  | cons node nodes ih => simp [ofNodes_cons, ih]

end Preorder

/-- Every node of a block, in preorder. -/
def Block.preorder (b : Block) : List Node := Preorder.ofNodes b.nodes

end Pug
