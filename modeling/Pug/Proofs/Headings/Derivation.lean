/-
# The headings of a derivation

The headings of a derivation stand in the order of its tokens. The *whole* of them are
those of all its tokens. Those that are not dropped on the way to the tree are fewer:
what stands behind the dot on the line of an element is left out, and so are the comments
between the branches of a case, and the block under an include that is put in as it is.
-/

import Pug.Proofs.Derivation.Throughout
import Pug.Proofs.Headings.Basic

namespace Pug

namespace Plain

/-- The headings of a piece of text or code. -/
def headings (o : Options) : Plain → List Heading
  | .text _ _ => []
  | .code c pos => [⟨.code c, o.place pos⟩]

end Plain

namespace Derivation

/-- The headings of a derivation: the whole of them, or those that are not dropped. -/
def headings (o : Options) (whole : Bool) : {s : Symbol} → Derivation s → List Heading
  | _, .nil => []
  | _, .newline _ rest => rest.headings o whole
  | _, .item e rest => e.headings o whole ++ rest.headings o whole
  | _, .block _ items _ => items.headings o whole
  | _, .noBlock => []
  | _, .someBlock b => b.headings o whole
  | _, .noRegion => []
  | _, .someRegion _ parts _ => parts.headings o whole
  | _, .endParts => []
  | _, .lineBreak _ _ rest => rest.headings o whole
  | _, .part f rest => f.headings o whole ++ rest.headings o whole
  | _, .plain p => p.headings o
  | _, .interpolated _ e _ => e.headings o whole
  | _, .endHtml => []
  | _, .htmlNewline _ rest => rest.headings o whole
  | _, .htmlLine _ _ rest => rest.headings o whole
  | _, .htmlBlock b rest => b.headings o whole ++ rest.headings o whole
  | _, .noContent => []
  | _, .lineRun first rest => first.headings o ++ rest.headings o whole
  | _, .lineCode c pos => [⟨.code c, o.place pos⟩]
  | _, .colon _ e => e.headings o whole
  | _, .slash _ => []
  | _, .nesting content _ nested => content.headings o whole ++ nested.headings o whole
  | _, .textOnly _ content _ region =>
      (if whole then content.headings o whole else []) ++ region.headings o whole
  | _, .expandColon _ e => e.headings o whole
  | _, .expandBlock b => b.headings o whole
  | _, .endBranches => []
  | _, .branchNewline _ rest => rest.headings o whole
  | _, .branchComment value buffered pos rest =>
      (if whole then [⟨.comment value buffered, o.place pos⟩] else []) ++ rest.headings o whole
  | _, .fallthrough expr pos rest => ⟨.branch expr, o.place pos⟩ :: rest.headings o whole
  | _, .when expr pos body rest =>
      ⟨.branch expr, o.place pos⟩ :: (body.headings o whole ++ rest.headings o whole)
  | _, .default pos body rest =>
      ⟨.branch defaultExpr, o.place pos⟩ :: (body.headings o whole ++ rest.headings o whole)
  | _, .endAlternates => []
  | _, .elseIf _ test pos nested rest =>
      ⟨.conditional test, o.place pos⟩ :: (nested.headings o whole ++ rest.headings o whole)
  | _, .otherwise _ _ nested => nested.headings o whole
  | _, .filterText name pos _ _ _ => [⟨.filter name, o.place pos⟩]
  | _, .filterNested name pos _ inner => ⟨.filter name, o.place pos⟩ :: inner.headings o whole
  | _, .filterRegion name pos _ region => ⟨.filter name, o.place pos⟩ :: region.headings o whole
  | _, .tag name pos _ body => ⟨.element name, o.place pos⟩ :: body.headings o whole
  | _, .interpolatedTag expr pos _ body =>
      ⟨.interpolated expr, o.place pos⟩ :: body.headings o whole
  | _, .shorthand first _ body => ⟨.element "div", o.place first.pos⟩ :: body.headings o whole
  | _, .call name args pos _ body => ⟨.mixin name args, o.place pos⟩ :: body.headings o whole
  | _, .mixin name args pos nested => ⟨.mixin name args, o.place pos⟩ :: nested.headings o whole
  | _, .mixinBlock pos => [⟨.mixinBlock, o.place pos⟩]
  | _, .yield pos => [⟨.yield, o.place pos⟩]
  | _, .namedBlock name mode pos nested =>
      ⟨.namedBlock (Text.trim name) mode, o.place pos⟩ :: nested.headings o whole
  | _, .doctype value pos => [⟨.doctype value, o.place pos⟩]
  | _, .caseOf expr pos _ branches _ => ⟨.case expr, o.place pos⟩ :: branches.headings o whole
  | _, .parent pos path place => [⟨.parent ⟨Text.trim path, o.place place⟩, o.place pos⟩]
  | _, .inclusion pos _ path place nested =>
      ⟨.inclusion ⟨Text.trim path, o.place place⟩, o.place pos⟩ ::
        if whole || o.target (Text.trim path) ≠ .raw then nested.headings o whole else []
  | _, .filter f => f.headings o whole
  | _, .comment value buffered pos region =>
      ⟨.comment value buffered, o.place pos⟩ :: region.headings o whole
  | _, .dot _ region => region.headings o whole
  | _, .run first rest => first.headings o whole ++ rest.headings o whole
  | _, .html _ _ rest => rest.headings o whole
  | _, .each iteration pos body => ⟨.each iteration, o.place pos⟩ :: body.headings o whole
  | _, .eachElse iteration pos body _ alternate =>
      ⟨.each iteration, o.place pos⟩ :: (body.headings o whole ++ alternate.headings o whole)
  | _, .whileLoop test pos nested => ⟨.while test, o.place pos⟩ :: nested.headings o whole
  | _, .conditional test pos nested rest =>
      ⟨.conditional test, o.place pos⟩ :: (nested.headings o whole ++ rest.headings o whole)
  | _, .code c pos nested => ⟨.code c, o.place pos⟩ :: nested.headings o whole
  | _, .blockCode pos region => [⟨.code ⟨CodeRegion.source? region, false, false⟩, o.place pos⟩]

/-- **What is not dropped is part of the whole, in its order.** -/
theorem headings_sublist (o : Options) {s : Symbol} (d : Derivation s) :
    (d.headings o false).Sublist (d.headings o true) := by
  induction d with
  | textOnly pos content newlines region _ ih =>
    exact ih.trans (List.sublist_append_right _ _)
  | branchComment value buffered pos rest ih => exact ih.cons _
  | inclusion pos filters path place nested ih =>
    simp only [headings, Bool.false_or, Bool.true_or, if_true]
    split
    · exact ih.cons_cons _
    · exact (List.nil_sublist _).cons_cons _
  | _ => simp only [headings, List.Sublist.refl, List.Sublist.append, List.cons_sublist_cons, *]

/-- A derivation at which nothing is dropped: an include of what is put in as it is has no
block, nothing stands behind a dot on the line of an element, and no comment stands between
branches. -/
def KeepsContent (o : Options) : (s : Symbol) → Derivation s → Prop
  | _, .textOnly _ content _ _ => content.tokens = []
  | _, .branchComment _ _ _ _ => False
  | _, .inclusion _ _ path _ nested => o.target (Text.trim path) = .raw → nested.tokens = []
  | _, _ => True

theorem headings_content_of_tokens {o : Options} {closable whole : Bool}
    {d : Derivation (.content closable)} (h : d.tokens = []) : d.headings o whole = [] := by
  cases d with
  | noContent => rfl
  | _ => cases h

theorem headings_nested_of_tokens {o : Options} {whole : Bool} {d : Derivation .nested}
    (h : d.tokens = []) : d.headings o whole = [] := by
  cases d with
  | noBlock => rfl
  | someBlock b =>
    have hpos := b.length_block_pos
    have hnil : b.tokens = [] := h
    simp [hnil] at hpos

/-- **Where nothing is dropped, the whole is kept.** -/
theorem headings_eq {o : Options} {s : Symbol} (d : Derivation s)
    (h : d.Throughout o (KeepsContent o)) : d.headings o false = d.headings o true := by
  induction d with
  | textOnly pos content newlines region _ ih =>
    rcases h with ⟨hcontent, hregion⟩
    have hnil : content.headings o true = [] := headings_content_of_tokens hcontent
    simp [headings, ih hregion, hnil]
  | branchComment value buffered pos rest ih => exact h.1.elim
  | inclusion pos filters path place nested ih =>
    rcases h with ⟨hraw, hnested⟩
    by_cases htarget : o.target (Text.trim path) = .raw
    · have hnil : nested.headings o true = [] := headings_nested_of_tokens (hraw htarget)
      simp [headings, htarget, hnil]
    · simp [headings, htarget, ih (hnested htarget)]
  | _ =>
    simp only [Throughout] at h
    simp only [headings, *]

end Derivation
end Pug
