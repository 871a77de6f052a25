/-
# What stands above a node

The children of a node are the nodes right below it. A node of a tree has a *lineage*: its
parent, the parent of its parent, and so on up to a node of the outermost list. A property of
nodes and their lineages holds of a list of nodes if it holds of the first one, of what is below
the first one, and of the others.
-/

import Pug.Proofs.Tree.Assembly

namespace Pug

open Grammar

/-- The nodes that an alternate adds below its conditional. With a test it is a conditional
itself. -/
def Alternate.nodes : Alternate → List Node
  | .elseIf test consequent alternate loc => [.conditional test consequent alternate loc]
  | .otherwise body => body.nodes

/-- The nodes right below a node. -/
def Node.children : Node → List Node
  | .block body => body.nodes
  | .tag _ _ _ _ _ body _ => body.nodes
  | .interpolatedTag _ _ _ _ body _ => body.nodes
  | .text _ _ _ => []
  | .code _ _ body _ => body.elim [] Block.nodes
  | .conditional _ consequent alternate _ =>
      consequent.nodes ++ alternate.elim [] Alternate.nodes
  | .while _ body _ => body.nodes
  | .each _ body alternate _ => body.nodes ++ alternate.elim [] Block.nodes
  | .case _ body _ => body.nodes
  | .when _ body _ => body.elim [] Block.nodes
  | .mixin _ _ _ _ body _ => body.elim [] Block.nodes
  | .mixinBlock _ => []
  | .yieldBlock _ => []
  | .namedBlock _ _ body _ => body.nodes
  | .filter _ _ body _ => body.nodes
  | .includeFilter _ => []
  | .include _ body _ => body.elim [] Block.nodes
  | .rawInclude _ _ _ => []
  | .extends _ _ => []
  | .comment _ _ _ => []
  | .blockComment _ _ body _ => body.nodes
  | .doctype _ _ => []

namespace Preorder

theorem ofAlternates_eq (alternate : Option Alternate) :
    ofAlternates alternate = ofNodes (alternate.elim [] Alternate.nodes) := by
  match alternate with
  | none => simp [ofAlternates]
  | some (.elseIf test consequent rest loc) =>
    simp [ofAlternates, ofAlternate, Alternate.nodes, ofNodes_cons, below]
  | some (.otherwise body) => simp [ofAlternates, ofAlternate, Alternate.nodes]

/-- **What is below a node are its children and what is below these.** -/
theorem below_eq (node : Node) : below node = ofNodes node.children := by
  cases node <;> simp [below, Node.children, ofAlternates_eq]

/-- What holds of a list of nodes if it holds of the children of its first node and of the other
nodes holds of every list. -/
theorem induction {motive : List Node → Prop} (nil : motive [])
    (cons : ∀ node nodes, motive node.children → motive nodes → motive (node :: nodes))
    (nodes : List Node) : motive nodes := by
  match nodes with
  | [] => exact nil
  | node :: nodes =>
    have hlen : (ofNodes (node :: nodes)).length =
        (ofNodes node.children).length + (ofNodes nodes).length + 1 := by
      simp [ofNodes_cons, below_eq]
    exact cons node nodes (induction nil cons node.children) (induction nil cons nodes)
termination_by (ofNodes nodes).length

end Preorder

/-- A node of a tree, with the nodes above it, of which the first one is its parent. -/
inductive Lineage (nodes : List Node) : List Node → Node → Prop where
  | root {node : Node} (h : node ∈ nodes) : Lineage nodes [] node
  | child {above : List Node} {parent node : Node} (hparent : Lineage nodes above parent)
      (h : node ∈ parent.children) : Lineage nodes (parent :: above) node

namespace Lineage

variable {nodes : List Node} {above : List Node} {node top : Node}

theorem mono {more : List Node} (h : Lineage nodes above node) (hsub : nodes ⊆ more) :
    Lineage more above node := by
  induction h with
  | root h => exact .root (hsub h)
  | child _ h ih => exact .child ih h

/-- What stands below a child of a node stands below the node. -/
theorem under (h : Lineage top.children above node) :
    Lineage [top] (above ++ [top]) node := by
  induction h with
  | root h => exact .child (.root (List.mem_singleton.2 rfl)) h
  | child _ h ih => exact .child ih h

/-- **A node is one of a list, or it stands below one of the list.** -/
theorem cases_top (h : Lineage nodes above node) :
    above = [] ∧ node ∈ nodes ∨
      ∃ top ∈ nodes, ∃ inner, above = inner ++ [top] ∧ Lineage top.children inner node := by
  induction h with
  | root h => exact .inl ⟨rfl, h⟩
  | @child above parent node hparent h ih =>
    rcases ih with ⟨rfl, hmem⟩ | ⟨top, hmem, inner, rfl, hinner⟩
    · exact .inr ⟨parent, hmem, [], rfl, .root h⟩
    · exact .inr ⟨top, hmem, parent :: inner, rfl, .child hinner h⟩

end Lineage

/-- **The nodes that have a lineage are the nodes of the tree.** -/
theorem Preorder.mem_ofNodes {nodes : List Node} {node : Node} :
    node ∈ ofNodes nodes ↔ ∃ above, Lineage nodes above node := by
  induction nodes using Preorder.induction with
  | nil =>
    refine ⟨nofun, fun ⟨above, h⟩ => ?_⟩
    rcases h.cases_top with ⟨-, hmem⟩ | ⟨top, hmem, -⟩ <;> cases hmem
  | cons first nodes ihc ih =>
    rw [ofNodes_cons, List.mem_cons, List.mem_append, below_eq, ihc, ih]
    constructor
    · rintro (rfl | ⟨above, h⟩ | ⟨above, h⟩)
      · exact ⟨[], .root List.mem_cons_self⟩
      · exact ⟨_, h.under.mono (by simp)⟩
      · exact ⟨_, h.mono (List.subset_cons_self _ _)⟩
    · rintro ⟨above, h⟩
      rcases h.cases_top with ⟨-, hmem⟩ | ⟨top, hmem, inner, -, hinner⟩
      · exact (List.mem_cons.1 hmem).imp id fun hmem => .inr ⟨[], .root hmem⟩
      · rcases List.mem_cons.1 hmem with rfl | hmem
        · exact .inr (.inl ⟨inner, hinner⟩)
        · exact .inr (.inr ⟨_, hinner.under.mono (by simpa using hmem)⟩)

/-- The property `P` holds of every node of a list and of all that is below, with what stands
above each; above the list stand the nodes `outer`. -/
structure Holds (P : List Node → Node → Prop) (outer nodes : List Node) : Prop where
  at_lineage : ∀ above node, Lineage nodes above node → P (above ++ outer) node

section Holds

variable {P : List Node → Node → Prop} {outer : List Node}

@[simp] theorem holds_nil : Holds P outer [] := by
  refine ⟨fun above node h => ?_⟩
  rcases h.cases_top with ⟨-, hmem⟩ | ⟨top, hmem, -⟩ <;> cases hmem

@[simp] theorem holds_append {nodes more : List Node} :
    Holds P outer (nodes ++ more) ↔ Holds P outer nodes ∧ Holds P outer more := by
  constructor
  · exact fun ⟨h⟩ => ⟨⟨fun above node hnode => h above node (hnode.mono (by simp))⟩,
      ⟨fun above node hnode => h above node (hnode.mono (by simp))⟩⟩
  · refine fun ⟨⟨h⟩, ⟨hmore⟩⟩ => ⟨fun above node hnode => ?_⟩
    rcases hnode.cases_top with ⟨rfl, hmem⟩ | ⟨top, hmem, inner, rfl, hinner⟩
    · exact (List.mem_append.1 hmem).elim (fun hmem => h _ _ (.root hmem))
        fun hmem => hmore _ _ (.root hmem)
    · exact (List.mem_append.1 hmem).elim
        (fun hmem => h _ _ (hinner.under.mono (by simpa using hmem)))
        fun hmem => hmore _ _ (hinner.under.mono (by simpa using hmem))

/-- **A property holds of a node and of what is below it.** -/
theorem holds_single {node : Node} :
    Holds P outer [node] ↔ P outer node ∧ Holds P (node :: outer) node.children := by
  constructor
  · refine fun ⟨h⟩ => ⟨h [] node (.root List.mem_cons_self), ⟨fun above below hbelow => ?_⟩⟩
    have hunder := h _ below hbelow.under
    rwa [List.append_assoc] at hunder
  · refine fun ⟨hnode, ⟨hchildren⟩⟩ => ⟨fun above below hbelow => ?_⟩
    rcases hbelow.cases_top with ⟨rfl, hmem⟩ | ⟨top, hmem, inner, rfl, hinner⟩
    · obtain rfl := List.mem_singleton.1 hmem
      exact hnode
    · obtain rfl := List.mem_singleton.1 hmem
      rw [List.append_assoc]
      exact hchildren inner below hinner

theorem holds_cons {node : Node} {nodes : List Node} :
    Holds P outer (node :: nodes) ↔
      (P outer node ∧ Holds P (node :: outer) node.children) ∧ Holds P outer nodes := by
  rw [← List.singleton_append, holds_append, holds_single]

end Holds
end Pug
