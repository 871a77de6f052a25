/-
# What is read is in the tree

Nothing is put into a tree that is not in the tokens, nothing is put into it twice, and
nothing changes its place: in preorder, the headings of the tree are among those of the
tokens, in their order. They are all of them if nothing is dropped on the way.
-/

import Pug.Proofs.Headings.Tokens
import Pug.Proofs.Headings.Tree

namespace Pug

/-- **The headings of a tree are the headings of its tokens**, in the same order and without
those that are dropped. If nothing is dropped in a derivation by which the tokens are read,
they are the same. -/
theorem headings_of_parse {o : Options} {ts : List Token} {tree : Block} {rest : Cursor}
    (h : (parse o ts).outcome = .done tree rest) :
    tree.headings.Sublist (tokenHeadings o ts) ∧
      (∃ d : Derivation .items, d.Reads ts) ∧
      ∀ d : Derivation .items, d.Reads ts → d.Throughout o (Derivation.KeepsContent o) →
        tree.headings = tokenHeadings o ts := by
  have htree : ∀ d : Derivation .items, d.Reads ts → tree.headings = d.headings o false := by
    intro d hd
    rw [tree_eq_of_reads h hd]
    exact d.headingsBelow_meaning o ⟨.whole, o.filename⟩ .empty
  have htokens : ∀ d : Derivation .items, d.Reads ts → tokenHeadings o ts = d.headings o true := by
    intro d hd
    have hscan := d.headings_tokens o [] hd.greedy
    rwa [List.append_nil, hd.tokens_eq, Scan.headings_nil, List.append_nil] at hscan
  obtain ⟨d, hd⟩ := exists_derivation_of_parse h
  refine ⟨?_, ⟨d, hd⟩, fun d hd hkept => ?_⟩
  · rw [htree d hd, htokens d hd]
    exact d.headings_sublist o
  · rw [htree d hd, htokens d hd]
    exact d.headings_eq hkept

/-- The line `p #{x}`, of which nothing is dropped. -/
theorem headings_of_paragraph :
    ∃ tree rest,
      (parse .default [⟨.tag "p", ⟨1, 1⟩⟩, ⟨.interpolatedCode ⟨"x", true, true⟩, ⟨1, 3⟩⟩]).outcome =
          .done tree rest ∧
        tree.headings =
          [⟨.element "p", ⟨⟨1, 1⟩, none⟩⟩, ⟨.code ⟨"x", true, true⟩, ⟨⟨1, 3⟩, none⟩⟩] := by
  have hreads : (Derivation.item (.tag "p" ⟨1, 1⟩ []
      (.nesting (.lineRun (.code ⟨"x", true, true⟩ ⟨1, 3⟩) .endParts) [] .noBlock)) .nil).Reads
      [⟨.tag "p", ⟨1, 1⟩⟩, ⟨.interpolatedCode ⟨"x", true, true⟩, ⟨1, 3⟩⟩] :=
    ⟨rfl, by simp [Derivation.Greedy, Derivation.tokens, newlineTokens, Lookahead.finish,
        Lookahead.before, Plain.token, Token.terminal, Lexeme.terminal, Layout.starts, headStarts,
        exprStarts, Token.isNewline],
      by simp [Derivation.Lawful, HeadItem.Distinct]⟩
  obtain ⟨rest, hrun⟩ := parse_of_derivation .default hreads
  have hdone := congrArg Run.outcome hrun
  refine ⟨_, rest, hdone, ?_⟩
  rw [(headings_of_parse hdone).2.2 _ hreads
    (by simp [Derivation.Throughout, Derivation.KeepsContent])]
  rfl

end Pug
