/-
# How lists of nodes are put together

A block that is spliced into a list, made the body of something or given to a call adds
its nodes, and so does one that may be absent. Lines of HTML that are joined change nothing
but text.
-/

import Pug.Grammar.Html
import Pug.Grammar.Mixin
import Pug.Proofs.Tree.Preorder

namespace Pug

open Grammar

@[simp] theorem spliced_block (body : Block) : (Node.block body).spliced = body.nodes := rfl

/-- A node that is no block is spliced into a list as it is. -/
theorem spliced_of_ne_block {node : Node} (h : ∀ body, node ≠ .block body) :
    node.spliced = [node] := by
  cases node with
  | block body => exact absurd rfl (h body)
  | _ => rfl

@[simp] theorem empty_nodes (loc : Location) : (Block.empty loc).nodes = [] := rfl

@[simp] theorem getD_empty_nodes (body : Option Block) (loc : Location) :
    (body.getD (.empty loc)).nodes = body.elim [] Block.nodes := by
  cases body <;> rfl

/-- **A node that is made a body adds to the body what it adds to a list.** -/
@[simp] theorem asBody_nodes (node : Node) (loc : Location) :
    (node.asBody loc).nodes = node.spliced := by
  cases node <;> rfl

@[simp] theorem callBody_nodes (body : Block) :
    (callBody body).elim [] Block.nodes = body.nodes := by
  rcases body with ⟨nodes, loc⟩
  cases nodes <;> rfl

/-- Whether a node is text. -/
def Node.isText : Node → Bool
  | .text _ _ _ => true
  | _ => false

@[simp] theorem isText_text (value : String) (isHtml : Bool) (loc : Location) :
    (Node.text value isHtml loc).isText = true := rfl

/-- **Lines of HTML that are joined change nothing but text.** -/
theorem filter_joinHtml (nodes : List Node) :
    (Preorder.ofNodes (joinHtml nodes)).filter (!Node.isText ·) =
      (Preorder.ofNodes nodes).filter (!Node.isText ·) := by
  fun_induction joinHtml nodes with
  | case1 => rfl
  | case2 value loc nodes more place rest hjoin ih =>
    rw [hjoin] at ih
    simpa [Preorder.ofNodes_cons, Preorder.below] using ih
  | case3 value loc nodes hjoin ih =>
    simp [Preorder.ofNodes_cons, Preorder.below, ih]
  | case4 node nodes hnode ih => simp [Preorder.ofNodes_cons, List.filter_cons, ih]

end Pug
