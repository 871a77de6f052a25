/-
# Colons and blocks

A colon is short for a block of one production. An element, a call and a branch of a case that
have a production behind a colon are read as if it was indented under them: the nodes in the body
are the same, and only the location of the body tells the two apart. A production that is a block
itself (lines of HTML, or a dot) is not nested in another one in either form.

An element takes the production behind its colon as the content of its line, and a block as what
comes below it. The body of a call without nodes is none, and since both forms have the same nodes,
either both have a body or none has.
-/

import Pug.Proofs.Cases
import Pug.Proofs.Opener
import Pug.Proofs.Tree.Assembly

namespace Pug

variable {o : Options}

/-- The body made of a node has the nodes that the node adds to a list. -/
theorem Node.asBody_eq (node : Node) (loc : Location) :
    node.asBody loc = ⟨node.spliced, (node.asBody loc).loc⟩ := by
  cases node with
  | block body =>
    cases body
    rfl
  | _ => rfl

section Opener

variable (x : Opener) (pos : Position)

/-- A template of an opener with a body right behind it. -/
theorem parse_opener (body : Derivation (.body x.closable))
    (hhead : (Lookahead.finish.before body.tokens).next ∉ headStarts)
    (hbody : body.Greedy .finish) (hlawful : body.Lawful .outermost) :
    (∃ rest, (parse o (⟨x.lexeme, pos⟩ :: body.tokens)).outcome =
      .done ⟨[x.node (o.place pos) (body.meaning o (o.place pos) .empty)], ⟨.whole, o.filename⟩⟩
        rest) ∧
    (parse o (⟨x.lexeme, pos⟩ :: body.tokens)).warnings =
      (body.trail o).filterMap Event.warning? := by
  have hdistinct : HeadItem.Distinct [] := List.nodup_nil
  have hparse := parse_single (o := o) (d := x.derivation pos [] body)
    (x.greedy_derivation hhead hbody) (x.lawful_derivation hdistinct hlawful)
  rwa [x.tokens_derivation, x.meaning_derivation, x.trail_derivation, x.spliced_node] at hparse

/-- An opener with a production behind a colon has its nodes in the body. -/
theorem parse_opener_colon (colon : Position) (e : Production o) :
    (∃ rest, (parse o (⟨x.lexeme, pos⟩ :: ⟨.colon, colon⟩ :: e.ts)).outcome =
      .done ⟨[x.node (o.place pos) ⟨.empty, false, false,
        ⟨e.node.spliced, (e.node.asBody (o.place colon)).loc⟩⟩], ⟨.whole, o.filename⟩⟩ rest) ∧
    (parse o (⟨x.lexeme, pos⟩ :: ⟨.colon, colon⟩ :: e.ts)).warnings = e.warnings := by
  obtain ⟨d, htokens, hmeaning, hwarnings, hgreedy, hlawful⟩ := e.exists_derivation
  have hhead : Terminal.colon ∉ headStarts := by decide
  have hparse := parse_opener (o := o) x pos (.nesting (.colon colon d) [] .noBlock) hhead
    ⟨nofun, hgreedy, nofun, nofun⟩ ⟨hlawful, trivial⟩
  simpa [Derivation.tokens, Derivation.meaning, Derivation.trail, newlineTokens, htokens, hmeaning,
    hwarnings, Block.empty] using hparse

/-- An opener with an indented template has its nodes in the body, at the place of the opener. -/
theorem parse_opener_indented (b : Indented o) :
    (∃ rest, (parse o (⟨x.lexeme, pos⟩ :: b.tokens)).outcome =
      .done ⟨[x.node (o.place pos) ⟨.empty, false, false, ⟨b.tree.nodes, o.place pos⟩⟩],
        ⟨.whole, o.filename⟩⟩ rest) ∧
    (parse o (⟨x.lexeme, pos⟩ :: b.tokens)).warnings = b.warnings := by
  obtain ⟨d, htokens, hmeaning, hwarnings, hgreedy, hlawful⟩ := b.exists_derivation
  obtain ⟨hhead, hbody⟩ := d.greedy_blockBody (hgreedy .finish)
  have hparse := parse_opener (o := o) x pos (.nesting .noContent [] (.someBlock d)) hhead hbody
    ⟨trivial, hlawful _⟩
  rw [← hwarnings, ← htokens]
  simpa [Derivation.tokens, Derivation.meaning, Derivation.trail, newlineTokens, hmeaning,
    Grammar.Content.none, Block.empty, Indented.block] using hparse

end Opener

open CaseEntry in
/-- **A colon is short for a block of one production.** Let a production be read on its own. Behind
the name of an element, the expression of one, or a call, a colon with the production and a block
of it are both read as the one node of the opener. The body has the nodes of the production in
either form, and only the location of the body differs. The same holds for a branch of a case,
whatever stands before it and behind its line: all other branches stay as they are. The warnings
are the same too. -/
theorem parse_expansion (o : Options) (e : Production o) (pos colon indent outdent : Position) :
    (∀ x : Opener,
      (∃ rest, (parse o ([⟨x.lexeme, pos⟩, ⟨.colon, colon⟩] ++ e.ts)).outcome =
        .done ⟨[x.node (o.place pos) ⟨.empty, false, false,
          ⟨e.node.spliced, (e.node.asBody (o.place colon)).loc⟩⟩], ⟨.whole, o.filename⟩⟩ rest) ∧
      (∃ rest, (parse o ([⟨x.lexeme, pos⟩, ⟨.indent, indent⟩] ++ e.ts ++
          [⟨.outdent, outdent⟩])).outcome =
        .done ⟨[x.node (o.place pos) ⟨.empty, false, false, ⟨e.node.spliced, o.place pos⟩⟩],
          ⟨.whole, o.filename⟩⟩ rest) ∧
      (parse o ([⟨x.lexeme, pos⟩, ⟨.colon, colon⟩] ++ e.ts)).warnings =
        (parse o ([⟨x.lexeme, pos⟩, ⟨.indent, indent⟩] ++ e.ts ++
          [⟨.outdent, outdent⟩])).warnings) ∧
    ∀ (x : BranchToken) (expr : String) (place first last : Position)
      (before after : List (CaseEntry o)),
      Spaced (before ++ .colon x pos colon e :: after) →
      (∃ rest, (parse o (caseAround expr place first last before after
          ([⟨x.lexeme, pos⟩, ⟨.colon, colon⟩] ++ e.ts))).outcome =
        .done ⟨[.case expr ⟨before.flatMap nodes ++
          x.node (o.place pos) ⟨e.node.spliced, (e.node.asBody (o.place colon)).loc⟩ ::
          after.flatMap nodes, o.place first⟩ (o.place place)], ⟨.whole, o.filename⟩⟩ rest) ∧
      (∃ rest, (parse o (caseAround expr place first last before after
          ([⟨x.lexeme, pos⟩, ⟨.indent, indent⟩] ++ e.ts ++ [⟨.outdent, outdent⟩]))).outcome =
        .done ⟨[.case expr ⟨before.flatMap nodes ++
          x.node (o.place pos) ⟨e.node.spliced, o.place indent⟩ ::
          after.flatMap nodes, o.place first⟩ (o.place place)], ⟨.whole, o.filename⟩⟩ rest) ∧
      (parse o (caseAround expr place first last before after
          ([⟨x.lexeme, pos⟩, ⟨.colon, colon⟩] ++ e.ts))).warnings =
        (parse o (caseAround expr place first last before after
          ([⟨x.lexeme, pos⟩, ⟨.indent, indent⟩] ++ e.ts ++ [⟨.outdent, outdent⟩]))).warnings := by
  constructor
  · intro x
    obtain ⟨hcolon, hcolonWarnings⟩ := parse_opener_colon x pos colon e
    obtain ⟨hblock, hblockWarnings⟩ := parse_opener_indented x pos (e.indented indent outdent)
    rw [e.warnings_indented] at hblockWarnings
    exact ⟨hcolon, hblock, hcolonWarnings.trans hblockWarnings.symm⟩
  · intro x expr place first last before after hspaced
    obtain ⟨hcolon, hcolonWarnings⟩ := parse_caseAround expr place first last before after _ hspaced
    obtain ⟨hblock, hblockWarnings⟩ := parse_caseAround expr place first last before after
      (.indented x pos (e.indented indent outdent)) (hspaced.replace rfl rfl)
    rw [nodes, e.node.asBody_eq] at hcolon
    rw [warnings, e.warnings_indented] at hblockWarnings
    exact ⟨hcolon, hblock, hcolonWarnings.trans hblockWarnings.symm⟩

/-- An element with text in it, behind a colon and in a block: under a call, and under the default
branch of a case with another branch before it. -/
theorem parse_expansion_tag :
    ((∃ rest, (parse .default [⟨.call "m" none, ⟨3, 3⟩⟩, ⟨.colon, ⟨3, 5⟩⟩, ⟨.tag "b", ⟨3, 7⟩⟩,
        ⟨.text "x", ⟨3, 9⟩⟩]).outcome =
      .done ⟨[.mixin "m" none true .empty (some ⟨[.tag "b" false false true .empty
        ⟨[.text "x" false ⟨⟨3, 9⟩, none⟩], ⟨⟨3, 7⟩, none⟩⟩ ⟨⟨3, 7⟩, none⟩], ⟨⟨3, 5⟩, none⟩⟩)
        ⟨⟨3, 3⟩, none⟩], ⟨.whole, none⟩⟩ rest) ∧
      ∃ rest, (parse .default [⟨.call "m" none, ⟨3, 3⟩⟩, ⟨.indent, ⟨4, 1⟩⟩, ⟨.tag "b", ⟨3, 7⟩⟩,
        ⟨.text "x", ⟨3, 9⟩⟩, ⟨.outdent, ⟨5, 1⟩⟩]).outcome =
      .done ⟨[.mixin "m" none true .empty (some ⟨[.tag "b" false false true .empty
        ⟨[.text "x" false ⟨⟨3, 9⟩, none⟩], ⟨⟨3, 7⟩, none⟩⟩ ⟨⟨3, 7⟩, none⟩], ⟨⟨3, 3⟩, none⟩⟩)
        ⟨⟨3, 3⟩, none⟩], ⟨.whole, none⟩⟩ rest) ∧
    (∃ rest, (parse .default [⟨.case "x", ⟨1, 1⟩⟩, ⟨.indent, ⟨2, 1⟩⟩, ⟨.when "a", ⟨2, 3⟩⟩,
        ⟨.newline, ⟨3, 1⟩⟩, ⟨.default, ⟨3, 3⟩⟩, ⟨.colon, ⟨3, 5⟩⟩, ⟨.tag "b", ⟨3, 7⟩⟩,
        ⟨.text "x", ⟨3, 9⟩⟩, ⟨.outdent, ⟨5, 1⟩⟩]).outcome =
      .done ⟨[.case "x" ⟨[.when "a" none ⟨⟨2, 3⟩, none⟩, .when "default"
        (some ⟨[.tag "b" false false true .empty ⟨[.text "x" false ⟨⟨3, 9⟩, none⟩],
          ⟨⟨3, 7⟩, none⟩⟩ ⟨⟨3, 7⟩, none⟩], ⟨⟨3, 5⟩, none⟩⟩) ⟨⟨3, 3⟩, none⟩], ⟨⟨2, 1⟩, none⟩⟩
        ⟨⟨1, 1⟩, none⟩], ⟨.whole, none⟩⟩ rest) ∧
    ∃ rest, (parse .default [⟨.case "x", ⟨1, 1⟩⟩, ⟨.indent, ⟨2, 1⟩⟩, ⟨.when "a", ⟨2, 3⟩⟩,
        ⟨.newline, ⟨3, 1⟩⟩, ⟨.default, ⟨3, 3⟩⟩, ⟨.indent, ⟨4, 1⟩⟩, ⟨.tag "b", ⟨3, 7⟩⟩,
        ⟨.text "x", ⟨3, 9⟩⟩, ⟨.outdent, ⟨5, 1⟩⟩, ⟨.outdent, ⟨5, 1⟩⟩]).outcome =
      .done ⟨[.case "x" ⟨[.when "a" none ⟨⟨2, 3⟩, none⟩, .when "default"
        (some ⟨[.tag "b" false false true .empty ⟨[.text "x" false ⟨⟨3, 9⟩, none⟩],
          ⟨⟨3, 7⟩, none⟩⟩ ⟨⟨3, 7⟩, none⟩], ⟨⟨4, 1⟩, none⟩⟩) ⟨⟨3, 3⟩, none⟩], ⟨⟨2, 1⟩, none⟩⟩
        ⟨⟨1, 1⟩, none⟩], ⟨.whole, none⟩⟩ rest := by
  have h := parse_expansion .default
    ⟨[⟨.tag "b", ⟨3, 7⟩⟩, ⟨.text "x", ⟨3, 9⟩⟩], .tag "b" false false true .empty
      ⟨[.text "x" false ⟨⟨3, 9⟩, none⟩], ⟨⟨3, 7⟩, none⟩⟩ ⟨⟨3, 7⟩, none⟩, [], by simp, ⟨_, rfl, rfl⟩⟩
    ⟨3, 3⟩ ⟨3, 5⟩ ⟨4, 1⟩ ⟨5, 1⟩
  have hcall := h.1 (.call "m" none)
  have hbranch := h.2 .default "x" ⟨1, 1⟩ ⟨2, 1⟩ ⟨5, 1⟩ [.bare "a" ⟨2, 3⟩, .newline ⟨3, 1⟩] []
    (by simp [CaseEntry.Spaced, CaseEntry.isNewline, CaseEntry.endsWithLine])
  exact ⟨⟨hcall.1, hcall.2.1⟩, hbranch.1, hbranch.2.1⟩

end Pug
