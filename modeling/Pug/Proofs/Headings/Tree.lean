/-
# The headings of the tree of a derivation

Whatever is done to a node on its way into the tree keeps the headings: a block may be
spliced into a list or be the body of something, the parts of a run may be gathered, and
lines of HTML may be joined. So the nodes that a derivation gives to the tree have just
the headings that the derivation does not drop.
-/

import Pug.Proofs.Headings.Derivation

namespace Pug

open Grammar

@[simp] theorem headingsBelow_nil : headingsBelow [] = [] := by
  simp [headingsBelow]

@[simp] theorem headingsBelow_append (nodes more : List Node) :
    headingsBelow (nodes ++ more) = headingsBelow nodes ++ headingsBelow more := by
  simp [headingsBelow]

@[simp] theorem filterMap_ofNodes (nodes : List Node) :
    (Preorder.ofNodes nodes).filterMap Node.heading? = headingsBelow nodes := rfl

/-- **A node is followed by what is below it.** -/
theorem headingsBelow_cons (node : Node) (nodes : List Node) :
    headingsBelow (node :: nodes) =
      node.heading?.toList ++ (Preorder.below node).filterMap Node.heading? ++
        headingsBelow nodes := by
  unfold headingsBelow
  rw [Preorder.ofNodes_cons, List.filterMap_cons]
  cases node.heading? <;> simp

/-- **A node that is spliced into a list keeps its headings.** -/
theorem headingsBelow_spliced (node : Node) :
    headingsBelow node.spliced = headingsBelow [node] := by
  cases node <;> simp [Node.spliced, headingsBelow_cons, Node.heading?, Preorder.below]

theorem headingsBelow_cons_spliced (node : Node) (nodes : List Node) :
    headingsBelow (node :: nodes) = headingsBelow node.spliced ++ headingsBelow nodes := by
  rw [headingsBelow_spliced, ← headingsBelow_append, List.singleton_append]

/-- **A run that is gathered keeps the headings of its parts.** -/
@[simp] theorem headingsBelow_gather (loc : Location) (nodes : List Node) :
    headingsBelow (gather loc nodes).spliced = headingsBelow nodes := by
  match nodes with
  | [] => rfl
  | [node] => exact headingsBelow_spliced node
  | _ :: _ :: _ => rfl

/-- **Lines of HTML that are joined keep the headings among them**, since text has none. -/
@[simp] theorem headingsBelow_joinHtml (nodes : List Node) :
    headingsBelow (joinHtml nodes) = headingsBelow nodes := by
  have htext : ∀ nodes : List Node,
      (nodes.filter (!Node.isText ·)).filterMap Node.heading? = nodes.filterMap Node.heading? := by
    intro nodes
    rw [List.filterMap_filter]
    congr 1
    funext node
    cases node <;> rfl
  unfold headingsBelow
  rw [← htext, filter_joinHtml, htext]

namespace Derivation

/-- **The tree has the headings that are not dropped.** -/
theorem headingsBelow_meaning (o : Options) {s : Symbol} (d : Derivation s) :
    ∀ (loc : Location) (attrs : Attributes),
      headingsBelow (Meaning.nodes loc attrs s (d.meaning o)) = d.headings o false := by
  induction d with
  | lineBreak spread pos rest ih =>
    intro loc attrs
    have hrest : headingsBelow (rest.meaning o) = rest.headings o false := ih loc attrs
    simp only [Meaning.nodes, meaning, headings]
    split <;> simp [headingsBelow_cons, Node.heading?, Preorder.below, hrest]
  | part f rest ihf ih =>
    intro loc attrs
    have hrest : headingsBelow (rest.meaning o) = rest.headings o false := ih loc attrs
    have hf : headingsBelow (f.meaning o).spliced = f.headings o false := ihf loc attrs
    simp [Meaning.nodes, meaning, headings, headingsBelow_cons_spliced, hf, hrest]
  | run first rest ihf ih =>
    intro loc attrs
    have hrest : headingsBelow (rest.meaning o) = rest.headings o false := ih loc attrs
    have hf : headingsBelow (first.meaning o).spliced = first.headings o false := ihf loc attrs
    simp [Meaning.nodes, meaning, headings, headingsBelow_cons_spliced, hf, hrest]
  | plain p =>
    intro loc attrs
    cases p <;>
      simp [Meaning.nodes, meaning, headings, Plain.node, Plain.headings, Node.spliced,
        headingsBelow_cons, Node.heading?, Preorder.below]
  | lineRun first rest ih =>
    intro loc attrs
    have hrest : headingsBelow (rest.meaning o) = rest.headings o false := ih loc attrs
    cases first <;>
      simp [Meaning.nodes, meaning, headings, Plain.node, Plain.headings, headingsBelow_cons,
        Node.heading?, Preorder.below, hrest]
  | elseIf newlines test pos nested rest ihn ih =>
    intro loc attrs
    have hnested : headingsBelow ((nested.meaning o).elim [] Block.nodes) =
        nested.headings o false := ihn loc attrs
    have hrest : (Preorder.ofAlternates (rest.meaning o)).filterMap Node.heading? =
        rest.headings o false := by
      rw [Meaning.ofAlternates_eq loc attrs]
      exact ih loc attrs
    simp [Meaning.nodes, meaning, headings, headingsBelow_cons, Node.heading?, Preorder.below,
      hnested, hrest]
  | otherwise newlines pos nested ih =>
    intro loc attrs
    have hnested : headingsBelow ((nested.meaning o).elim [] Block.nodes) =
        nested.headings o false := ih loc attrs
    rw [headings, ← hnested, meaning]
    cases nested.meaning o <;> rfl
  | conditional test pos nested rest ihn ih =>
    intro loc attrs
    have hnested : headingsBelow ((nested.meaning o).elim [] Block.nodes) =
        nested.headings o false := ihn loc attrs
    have hrest : (Preorder.ofAlternates (rest.meaning o)).filterMap Node.heading? =
        rest.headings o false := by
      rw [Meaning.ofAlternates_eq loc attrs]
      exact ih loc attrs
    simp [Meaning.nodes, meaning, headings, spliced_of_ne_block, headingsBelow_cons,
      Node.heading?, Preorder.below, hnested, hrest]
  | inclusion pos filters path place nested ih =>
    intro loc attrs
    have hnested : headingsBelow ((nested.meaning o).elim [] Block.nodes) =
        nested.headings o false := ih loc attrs
    simp only [Meaning.nodes, meaning, headings]
    split <;> simp [spliced_of_ne_block, headingsBelow_cons, Node.heading?, Preorder.below, *]
  | filter f ih =>
    intro loc attrs
    exact (headingsBelow_spliced (f.meaning o)).trans (ih loc attrs)
  | comment value buffered pos region ih =>
    intro loc attrs
    have hregion : headingsBelow ((region.meaning o).elim [] Block.nodes) =
        region.headings o false := ih loc attrs
    simp only [Meaning.nodes, meaning, headings, ← hregion]
    cases region.meaning o <;>
      simp [spliced_of_ne_block, headingsBelow_cons, Node.heading?, Preorder.below]
  | _ =>
    intro loc attrs
    have : Nonempty Location := ⟨loc⟩
    have : Nonempty Attributes := ⟨attrs⟩
    simp only [Meaning.nodes, forall_const] at *
    simp [meaning, headings, spliced_of_ne_block, headingsBelow_cons, Node.heading?, Preorder.below,
      Content.none, *]

end Derivation
end Pug
