/-
# Which trees are flat

A tree is flat if no list of nodes in it has a block among its nodes. Blocks are spliced
into the lists that they are put into, but for one place: the parts of a run, and of a
verbatim region, are listed as they are. An interpolation among them may read as a block,
and then the tree is not flat. This is the only way in which a tree can fail to be so.
-/

import Pug.Proofs.Derivation.Throughout
import Pug.Proofs.Reading.Document

namespace Pug

open Grammar

/-- Whether a node is a block. -/
def Node.isBlock : Node → Bool
  | .block _ => true
  | _ => false

/-- No node of a list is a block. -/
def Flat (nodes : List Node) : Prop := ∀ node ∈ nodes, node.isBlock = false

@[simp] theorem flat_nil : Flat [] := by
  simp [Flat]

@[simp] theorem flat_cons (node : Node) (nodes : List Node) :
    Flat (node :: nodes) ↔ node.isBlock = false ∧ Flat nodes := List.forall_mem_cons

@[simp] theorem flat_append (nodes more : List Node) :
    Flat (nodes ++ more) ↔ Flat nodes ∧ Flat more := List.forall_mem_append

/-- A node that is no block stands in a list as it is spliced into one. -/
theorem flat_cons_spliced (node : Node) (nodes : List Node) :
    Flat (Preorder.ofNodes (node :: nodes)) ↔
      node.isBlock = false ∧ Flat (Preorder.ofNodes node.spliced) ∧
        Flat (Preorder.ofNodes nodes) := by
  cases node <;> simp [Node.spliced, Preorder.ofNodes_cons, Node.isBlock]

/-- **Lines of HTML that are joined are flat if they were so before**, since text is no
block. -/
@[simp] theorem flat_joinHtml (nodes : List Node) :
    Flat (Preorder.ofNodes (joinHtml nodes)) ↔ Flat (Preorder.ofNodes nodes) := by
  have htext : ∀ nodes : List Node, Flat (nodes.filter (!Node.isText ·)) ↔ Flat nodes := by
    intro nodes
    constructor
    · intro h node hmem
      cases node with
      | text value isHtml loc => rfl
      | _ => exact h _ (List.mem_filter.2 ⟨hmem, rfl⟩)
    · exact fun h node hmem => h node (List.mem_filter.1 hmem).1
  rw [← htext, filter_joinHtml, htext]

namespace Derivation

/-- There is nothing in a sequence of fragments, but at most line breaks. -/
def blank : {layout : Layout} → Derivation (.parts layout) → Bool
  | _, .endParts => true
  | _, .lineBreak _ _ rest => rest.blank
  | _, .part _ _ => false

/-- Whether what is read is a block, by the production that reads it: a dot, lines of HTML,
or a run of more than one part or of one that is read as a block. -/
def readsAsBlock : {s : Symbol} → Derivation s → Bool
  | _, .interpolated _ e _ => e.readsAsBlock
  | _, .dot _ _ => true
  | _, .html _ _ _ => true
  | _, .run first rest => !rest.blank || first.readsAsBlock
  | _, _ => false

/-- A derivation that lists no block as a part of a run or of a region. A run of one part is
this part. -/
def Splices : (s : Symbol) → Derivation s → Prop
  | _, .part f _ => f.readsAsBlock = false
  | _, .run first rest => rest.blank = true ∨ first.readsAsBlock = false
  | _, _ => True

/-- A line break in front of line breaks alone is not kept in a run. -/
theorem keeps_of_blank {layout : Layout} (hlayout : layout ≠ .region)
    {d : Derivation (.parts layout)} (h : d.blank = true) : layout.keeps d.tokens = false := by
  cases d with
  | endParts => simp [Layout.keeps, tokens, hlayout]
  | lineBreak spread pos rest =>
    simp [Layout.keeps, tokens, hlayout, keepsBreak, Token.terminal, Lexeme.terminal]
  | part f rest => simp [blank] at h

/-- **Line breaks alone are no part of a run.** -/
theorem meaning_eq_nil_iff (o : Options) {layout : Layout} (hlayout : layout ≠ .region) :
    (d : Derivation (.parts layout)) → (d.meaning o = [] ↔ d.blank = true)
  | .endParts => by simp [meaning, blank]
  | .lineBreak spread pos rest => by
    have ih := meaning_eq_nil_iff o hlayout rest
    have hkeeps := keeps_of_blank hlayout (d := rest)
    simp only [meaning, blank, List.append_eq_nil_iff, ih]
    exact ⟨And.right, fun h => ⟨by simp [hkeeps h], h⟩⟩
  | .part f rest => by simp [meaning, blank]

end Derivation

/-- Whether the meaning of a production, or of a part of one, is a block. -/
def Meaning.isBlock : (s : Symbol) → Meaning s → Bool
  | .fragment, node => Node.isBlock node
  | .filter, node => Node.isBlock node
  | .expr, node => Node.isBlock node
  | _, _ => false

namespace Derivation

/-- **What is read as a block is one**, and nothing else is. -/
theorem isBlock_meaning (o : Options) {s : Symbol} (d : Derivation s) :
    Meaning.isBlock s (d.meaning o) = d.readsAsBlock := by
  induction d with
  | plain p => cases p <;> rfl
  | interpolated start e stop ih => exact ih
  | filter f ih => cases f <;> rfl
  | inclusion pos filters path place nested ih =>
    simp only [Meaning.isBlock, meaning, readsAsBlock]
    split <;> rfl
  | comment value buffered pos region ih =>
    simp only [Meaning.isBlock, meaning, readsAsBlock]
    cases region.meaning o <;> rfl
  | run first rest ihf ih =>
    have hf : Node.isBlock (first.meaning o) = first.readsAsBlock := ihf
    have hrest := meaning_eq_nil_iff o (by decide) rest
    simp only [Meaning.isBlock, meaning, readsAsBlock, ← hf]
    cases hnodes : rest.meaning o with
    | nil => simp [gather, hrest.1 hnodes]
    | cons node nodes =>
      have hparts : rest.blank = false := by
        rw [Bool.eq_false_iff]
        intro hblank
        rw [hrest.2 hblank] at hnodes
        cases hnodes
      simp [gather, Node.isBlock, hparts]
  | _ => rfl

/-- **A derivation gives a flat list exactly where it splices blocks throughout.** -/
theorem flat_meaning_iff (o : Options) {s : Symbol} (d : Derivation s) :
    ∀ (loc : Location) (attrs : Attributes),
      Flat (Preorder.ofNodes (Meaning.nodes loc attrs s (d.meaning o))) ↔
        d.Throughout o Splices := by
  induction d with
  | lineBreak spread pos rest ih =>
    intro loc attrs
    have hrest : Flat (Preorder.ofNodes (rest.meaning o)) ↔ rest.Throughout o Splices :=
      ih loc attrs
    simp only [Meaning.nodes, meaning, Throughout, Splices, ← hrest]
    split <;> simp [Preorder.ofNodes_cons, Preorder.below, Node.isBlock]
  | part f rest ihf ih =>
    intro loc attrs
    have hrest : Flat (Preorder.ofNodes (rest.meaning o)) ↔ rest.Throughout o Splices :=
      ih loc attrs
    have hf : Flat (Preorder.ofNodes (f.meaning o).spliced) ↔ f.Throughout o Splices :=
      ihf loc attrs
    have hblock : Node.isBlock (f.meaning o) = f.readsAsBlock := isBlock_meaning o f
    simp [Meaning.nodes, meaning, Throughout, Splices, flat_cons_spliced, hblock, hf, hrest]
  | run first rest ihf ih =>
    intro loc attrs
    have hrest : Flat (Preorder.ofNodes (rest.meaning o)) ↔ rest.Throughout o Splices :=
      ih loc attrs
    have hf : Flat (Preorder.ofNodes (first.meaning o).spliced) ↔ first.Throughout o Splices :=
      ihf loc attrs
    have hblock : Node.isBlock (first.meaning o) = first.readsAsBlock := isBlock_meaning o first
    have hparts := meaning_eq_nil_iff o (by decide) rest
    simp only [Meaning.nodes, meaning, Throughout, Splices, ← hrest, ← hf, ← hparts, ← hblock]
    -- A run of one part is this part, so it is spliced into a list even if it is a block.
    cases rest.meaning o with
    | nil => simp [gather]
    | cons node nodes => simp [gather, flat_cons_spliced]
  | plain p =>
    intro loc attrs
    cases p <;>
      simp [Meaning.nodes, meaning, Throughout, Splices, Plain.node, spliced_of_ne_block,
        Preorder.ofNodes_cons, Preorder.below, Node.isBlock]
  | lineRun first rest ih =>
    intro loc attrs
    have hrest : Flat (Preorder.ofNodes (rest.meaning o)) ↔ rest.Throughout o Splices :=
      ih loc attrs
    cases first <;>
      simp [Meaning.nodes, meaning, Throughout, Splices, Plain.node, Preorder.ofNodes_cons,
        Preorder.below, Node.isBlock, hrest]
  | elseIf newlines test pos nested rest ihn ih =>
    intro loc attrs
    have hnested : Flat (Preorder.ofNodes ((nested.meaning o).elim [] Block.nodes)) ↔
        nested.Throughout o Splices := ihn loc attrs
    have hrest : Flat (Preorder.ofAlternates (rest.meaning o)) ↔ rest.Throughout o Splices := by
      rw [Meaning.ofAlternates_eq loc attrs]
      exact ih loc attrs
    simp [Meaning.nodes, meaning, Throughout, Splices, Preorder.ofNodes_cons, Preorder.below,
      Node.isBlock, hnested, hrest]
  | otherwise newlines pos nested ih =>
    intro loc attrs
    have hnested : Flat (Preorder.ofNodes ((nested.meaning o).elim [] Block.nodes)) ↔
        nested.Throughout o Splices := ih loc attrs
    simp only [Throughout, Splices, true_and, ← hnested, meaning]
    cases nested.meaning o <;> rfl
  | conditional test pos nested rest ihn ih =>
    intro loc attrs
    have hnested : Flat (Preorder.ofNodes ((nested.meaning o).elim [] Block.nodes)) ↔
        nested.Throughout o Splices := ihn loc attrs
    have hrest : Flat (Preorder.ofAlternates (rest.meaning o)) ↔ rest.Throughout o Splices := by
      rw [Meaning.ofAlternates_eq loc attrs]
      exact ih loc attrs
    simp [Meaning.nodes, meaning, Throughout, Splices, spliced_of_ne_block,
      Preorder.ofNodes_cons, Preorder.below, Node.isBlock, hnested, hrest]
  | inclusion pos filters path place nested ih =>
    intro loc attrs
    have hnested : Flat (Preorder.ofNodes ((nested.meaning o).elim [] Block.nodes)) ↔
        nested.Throughout o Splices := ih loc attrs
    simp only [Meaning.nodes, meaning, Throughout, Splices, ← hnested]
    split <;>
      simp [spliced_of_ne_block, Preorder.ofNodes_cons, Preorder.below, Node.isBlock, *]
  | filterNested name pos group inner ih =>
    intro loc attrs
    have hinner : Flat (Preorder.ofNodes [inner.meaning o]) ↔ inner.Throughout o Splices :=
      ih loc attrs
    simp only [Meaning.nodes, meaning, Throughout, Splices, ← hinner]
    rw [Preorder.ofNodes_cons]
    simp [Preorder.below, Node.isBlock]
  | filter f ih =>
    intro loc attrs
    have hf : Flat (Preorder.ofNodes [f.meaning o]) ↔ f.Throughout o Splices := ih loc attrs
    have hblock : Node.isBlock (f.meaning o) = false := isBlock_meaning o (.filter f)
    rw [flat_cons_spliced] at hf
    simpa [Meaning.nodes, meaning, Throughout, Splices, hblock] using hf
  | comment value buffered pos region ih =>
    intro loc attrs
    have hregion : Flat (Preorder.ofNodes ((region.meaning o).elim [] Block.nodes)) ↔
        region.Throughout o Splices := ih loc attrs
    simp only [Meaning.nodes, meaning, Throughout, Splices, ← hregion]
    cases region.meaning o <;>
      simp [spliced_of_ne_block, Preorder.ofNodes_cons, Preorder.below, Node.isBlock]
  | _ =>
    intro loc attrs
    have : Nonempty Location := ⟨loc⟩
    have : Nonempty Attributes := ⟨attrs⟩
    simp only [Meaning.nodes, forall_const] at *
    simp [meaning, Throughout, Splices, spliced_of_ne_block, Preorder.ofNodes_cons,
      Preorder.below, Node.isBlock, Content.none, *]

end Derivation

/-- **A tree is flat exactly if no part of a run or of a region is read as a block.** The
blocks that every other production reads are spliced, at every depth. -/
theorem flat_preorder_iff {o : Options} {ts : List Token} {tree : Block} {rest : Cursor}
    (h : (parse o ts).outcome = .done tree rest) :
    (∃ d : Derivation .items, d.Reads ts) ∧
      ∀ d : Derivation .items, d.Reads ts →
        (Flat tree.preorder ↔ d.Throughout o Derivation.Splices) := by
  refine ⟨exists_derivation_of_parse h, fun d hd => ?_⟩
  rw [tree_eq_of_reads h hd]
  exact d.flat_meaning_iff o ⟨.whole, o.filename⟩ .empty

/-- Text with an interpolation of text and code, which are two parts: `a#[b#{c}]`. -/
theorem not_flat_interpolated_run :
    ∃ tree rest,
      (parse .default [⟨.text "a", ⟨1, 1⟩⟩, ⟨.startInterpolation, ⟨1, 2⟩⟩, ⟨.text "b", ⟨1, 4⟩⟩,
          ⟨.interpolatedCode ⟨"c", true, true⟩, ⟨1, 5⟩⟩, ⟨.endInterpolation, ⟨1, 9⟩⟩]).outcome =
          .done tree rest ∧
        ¬ Flat tree.preorder := by
  have hreads : (Derivation.item (.run (.plain (.text "a" ⟨1, 1⟩))
      (.part (.interpolated ⟨1, 2⟩ (.run (.plain (.text "b" ⟨1, 4⟩))
        (.part (.plain (.code ⟨"c", true, true⟩ ⟨1, 5⟩)) .endParts)) ⟨1, 9⟩) .endParts))
      .nil).Reads
      [⟨.text "a", ⟨1, 1⟩⟩, ⟨.startInterpolation, ⟨1, 2⟩⟩, ⟨.text "b", ⟨1, 4⟩⟩,
        ⟨.interpolatedCode ⟨"c", true, true⟩, ⟨1, 5⟩⟩, ⟨.endInterpolation, ⟨1, 9⟩⟩] :=
    ⟨rfl, by simp [Derivation.Greedy, Derivation.tokens, Lookahead.finish, Lookahead.before,
        Token.terminal, Lexeme.terminal, Layout.starts, exprStarts],
      by simp [Derivation.Lawful]⟩
  obtain ⟨rest, hrun⟩ := parse_of_derivation .default hreads
  have hdone := congrArg Run.outcome hrun
  refine ⟨_, rest, hdone, ?_⟩
  rw [(flat_preorder_iff hdone).2 _ hreads]
  simp [Derivation.Throughout, Derivation.Splices, Derivation.readsAsBlock, Derivation.blank]

end Pug
