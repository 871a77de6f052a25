/-
# How derivations are chosen

The rules of `Pug.Proofs.Derivation.Basic` can make one list of tokens in several
ways. The grammar is read *greedily*: an optional part is taken whenever the next
token can begin it, and a repetition goes on whenever the next token can begin
another round. Only the alternates of a conditional look further, past line
breaks. So what a derivation has to fit is a `Lookahead`: the terminal behind it,
and the first one behind it that is no line break.

Three conditions are not about the choice of a rule (`Lawful`): no head names an
attribute other than `class` twice, the place of a mixin's block is in the body of
a mixin, and code whose value is put out has no block.
-/

import Pug.Grammar.Inner
import Pug.Proofs.Derivation.Basic

namespace Pug

/-- What is seen of the tokens ahead. -/
structure Lookahead where
  next : Terminal
  pastNewlines : Terminal

namespace Lookahead

/-- What is seen at the end of the input. -/
def finish : Lookahead := ⟨.eos, .eos⟩

/-- What is seen in front of tokens, behind which `a` is seen. -/
def before (a : Lookahead) (ts : List Token) : Lookahead :=
  ts.foldr (fun t a => ⟨t.terminal, if t.isNewline then a.pastNewlines else t.terminal⟩) a

/-- What is seen in front of the last tokens of an input. -/
def of (ts : List Token) : Lookahead := finish.before ts

@[simp] theorem before_nil (a : Lookahead) : a.before [] = a := rfl

@[simp] theorem before_cons (a : Lookahead) (t : Token) (ts : List Token) :
    a.before (t :: ts) =
      ⟨t.terminal, if t.isNewline then (a.before ts).pastNewlines else t.terminal⟩ := rfl

@[simp] theorem before_append (a : Lookahead) (ts us : List Token) :
    a.before (ts ++ us) = (a.before us).before ts := by
  simp [before]

/-- **What is seen from a place depends on the tokens from there on.** -/
theorem of_append (ts us : List Token) : of (ts ++ us) = (of us).before ts :=
  before_append finish ts us

/-- A token is of none of the terminals that are not seen where it stands. -/
theorem terminal_ne {t : Token} {next : Terminal} {terminals : List Terminal}
    (ht : t.terminal = next) (hnext : next ∉ terminals) :
    ∀ terminal ∈ terminals, t.terminal ≠ terminal :=
  fun _ hmem h => hnext (ht ▸ h ▸ hmem)

variable {ts : List Token}

/-- A terminal of one lexeme that is seen ahead gives the next token. -/
theorem exists_cons_of_next {terminal : Terminal} {bare : Lexeme} (h : (of ts).next = terminal)
    (hbare : terminal.lexeme? = some bare) (hne : terminal ≠ .eos) :
    ∃ pos us, ts = ⟨bare, pos⟩ :: us := by
  cases ts with
  | nil => exact absurd h.symm hne
  | cons t us =>
    rcases t with ⟨l, pos⟩
    obtain rfl : l = bare := Lexeme.eq_of_terminal h hbare
    exact ⟨pos, us, rfl⟩

theorem exists_cons_of_next_attribute (h : (of ts).next = .attribute) :
    ∃ name value escaped pos us, ts = ⟨.attribute name value escaped, pos⟩ :: us := by
  cases ts with
  | nil => cases h
  | cons t us =>
    rcases t with ⟨l, pos⟩
    cases l <;> cases h
    exact ⟨_, _, _, pos, us, rfl⟩

end Lookahead

/-- The terminals that begin an item of a head. -/
def headStarts : List Terminal := [.idName, .className, .startAttributes, .andAttributes]

/-- The terminals that begin a production. -/
def exprStarts : List Terminal :=
  [.tag, .mixin, .mixinBlock, .block, .case, .extends, .include, .filter, .doctype, .comment,
    .text, .interpolatedCode, .startInterpolation, .textHtml, .dot, .each, .code, .blockCode,
    .if, .while, .call, .interpolation, .yield, .idName, .className]

/-- The terminals behind a head without content. -/
def contentFollows : List Terminal :=
  [.newline, .indent, .outdent, .eos, .startPipelessText, .endInterpolation]

theorem Shorthand.terminal_mem_headStarts (first : Shorthand) :
    first.token.terminal ∈ headStarts := by
  cases first <;> simp [token, Token.terminal, Lexeme.terminal, headStarts]

namespace Layout

/-- The terminals that begin a part of a sequence of fragments. -/
def starts : Layout → List Terminal
  | .line => [.text, .interpolatedCode, .startInterpolation]
  | _ => [.text, .interpolatedCode, .startInterpolation, .newline]

end Layout

namespace HeadItem

/-- The names of the attributes that an item of a head gives. -/
def names : HeadItem → List String
  | .shorthand (.idName _ _) => ["id"]
  | .shorthand (.className _ _) => ["class"]
  | .andAttributes _ _ => []
  | .group g => g.attrs.map AttributeToken.name

/-- No name but `class` occurs twice in a head. -/
def Distinct (head : List HeadItem) : Prop :=
  ((head.flatMap names).filter (· ≠ "class")).Nodup

end HeadItem

namespace Derivation

/-- A derivation that takes every optional part and every round that it can take in
front of what is seen. -/
def Greedy : {s : Symbol} → Derivation s → Lookahead → Prop
  | _, .nil, a => a.next ∉ .newline :: exprStarts
  | _, .newline _ rest, a => rest.Greedy a
  | _, .item e rest, a => e.Greedy (a.before rest.tokens) ∧ rest.Greedy a
  | _, .block _ items outdent, a => items.Greedy (a.before [⟨.outdent, outdent⟩])
  | _, .noBlock, a => a.next ≠ .indent
  | _, .someBlock b, a => b.Greedy a
  | _, .noRegion, a => a.next ≠ .startPipelessText
  | _, .someRegion _ parts stop, a => parts.Greedy (a.before [⟨.endPipelessText, stop⟩])
  | .parts layout, .endParts, a => a.next ∉ layout.starts
  | _, .lineBreak _ _ rest, a => rest.Greedy a
  | _, .part f rest, a => f.Greedy (a.before rest.tokens) ∧ rest.Greedy a
  | _, .plain _, _ => True
  | _, .interpolated _ e stop, a => e.Greedy (a.before [⟨.endInterpolation, stop⟩])
  | _, .endHtml, a => a.next ∉ [.textHtml, .newline, .indent]
  | _, .htmlNewline _ rest, a => rest.Greedy a
  | _, .htmlLine _ _ rest, a => rest.Greedy a
  | _, .htmlBlock b rest, a => b.Greedy (a.before rest.tokens) ∧ rest.Greedy a
  | _, .noContent, a => a.next ∈ contentFollows
  | _, .lineRun _ rest, a => rest.Greedy a
  | _, .lineCode _ _, _ => True
  | _, .colon _ e, a => e.Greedy a
  | _, .slash _, _ => True
  | _, .nesting content newlines nested, a =>
      (a.before (content.tokens ++ (newlineTokens newlines ++ nested.tokens))).next ≠ .dot ∧
        content.Greedy (a.before (newlineTokens newlines ++ nested.tokens)) ∧
        (a.before nested.tokens).next ≠ .newline ∧ nested.Greedy a
  | _, .textOnly _ content newlines region, a =>
      content.Greedy (a.before (newlineTokens newlines ++ region.tokens)) ∧
        (a.before region.tokens).next ≠ .newline ∧ region.Greedy a
  | _, .expandColon _ e, a => e.Greedy a
  | _, .expandBlock b, a => b.Greedy a
  | _, .endBranches, a => a.next ∉ [.newline, .comment, .when, .default]
  | _, .branchNewline _ rest, a => rest.Greedy a
  | _, .branchComment _ _ _ rest, a => rest.Greedy a
  | _, .fallthrough _ _ rest, a =>
      (a.before rest.tokens).next ∈ [.newline, .outdent] ∧ rest.Greedy a
  | _, .when _ _ body rest, a => body.Greedy (a.before rest.tokens) ∧ rest.Greedy a
  | _, .default _ body rest, a => body.Greedy (a.before rest.tokens) ∧ rest.Greedy a
  | _, .endAlternates, a => a.pastNewlines ∉ [.elseIf, .else]
  | _, .elseIf _ _ _ nested rest, a => nested.Greedy (a.before rest.tokens) ∧ rest.Greedy a
  | _, .otherwise _ _ nested, a => nested.Greedy a
  | _, .filterText _ _ _ _ _, _ => True
  | _, .filterNested _ _ _ inner, a => inner.Greedy a
  | _, .filterRegion _ _ group region, a =>
      (group.isNone → (a.before region.tokens).next ≠ .startAttributes) ∧
        (a.before region.tokens).next ∉ [.text, .filter] ∧ region.Greedy a
  | _, .tag _ _ _ body, a => (a.before body.tokens).next ∉ headStarts ∧ body.Greedy a
  | _, .interpolatedTag _ _ _ body, a =>
      (a.before body.tokens).next ∉ headStarts ∧ body.Greedy a
  | _, .shorthand _ _ body, a => (a.before body.tokens).next ∉ headStarts ∧ body.Greedy a
  | _, .call _ _ _ _ body, a => (a.before body.tokens).next ∉ headStarts ∧ body.Greedy a
  | _, .mixin _ _ _ nested, a => nested.Greedy a
  | _, .mixinBlock _, _ => True
  | _, .yield _, _ => True
  | _, .namedBlock _ _ _ nested, a => nested.Greedy a
  | _, .doctype _ _, _ => True
  | _, .caseOf _ _ _ branches outdent, a => branches.Greedy (a.before [⟨.outdent, outdent⟩])
  | _, .parent _ _ _, _ => True
  | _, .inclusion _ _ _ _ nested, a => nested.Greedy a
  | _, .filter f, a => f.Greedy a
  | _, .comment _ _ _ region, a => region.Greedy a
  | _, .dot _ region, a => region.Greedy a
  | _, .run first rest, a => first.Greedy (a.before rest.tokens) ∧ rest.Greedy a
  | _, .html _ _ rest, a => rest.Greedy a
  | _, .each _ _ body, a => body.Greedy a ∧ a.next ≠ .else
  | _, .eachElse _ _ body place alternate, a =>
      body.Greedy (a.before (⟨.else, place⟩ :: alternate.tokens)) ∧ alternate.Greedy a
  | _, .whileLoop _ _ nested, a => nested.Greedy a
  | _, .conditional _ _ nested rest, a => nested.Greedy (a.before rest.tokens) ∧ rest.Greedy a
  | _, .code _ _ nested, a => nested.Greedy a
  | _, .blockCode _ region, a => region.isNone → a.next ≠ .startPipelessText

/-- A derivation that meets the conditions on heads, mixin blocks and code. -/
def Lawful : {s : Symbol} → Derivation s → Grammar.Scope → Prop
  | _, .nil, _ => True
  | _, .newline _ rest, scope => rest.Lawful scope
  | _, .item e rest, scope => e.Lawful scope ∧ rest.Lawful scope
  | _, .block _ items _, scope => items.Lawful scope
  | _, .noBlock, _ => True
  | _, .someBlock b, scope => b.Lawful scope
  | _, .noRegion, _ => True
  | _, .someRegion _ parts _, scope => parts.Lawful scope
  | _, .endParts, _ => True
  | _, .lineBreak _ _ rest, scope => rest.Lawful scope
  | _, .part f rest, scope => f.Lawful scope ∧ rest.Lawful scope
  | _, .plain _, _ => True
  | _, .interpolated _ e _, scope => e.Lawful scope
  | _, .endHtml, _ => True
  | _, .htmlNewline _ rest, scope => rest.Lawful scope
  | _, .htmlLine _ _ rest, scope => rest.Lawful scope
  | _, .htmlBlock b rest, scope => b.Lawful scope ∧ rest.Lawful scope
  | _, .noContent, _ => True
  | _, .lineRun _ rest, scope => rest.Lawful scope
  | _, .lineCode _ _, _ => True
  | _, .colon _ e, scope => e.Lawful scope
  | _, .slash _, _ => True
  | _, .nesting content _ nested, scope => content.Lawful scope ∧ nested.Lawful scope
  | _, .textOnly _ content _ region, scope => content.Lawful scope ∧ region.Lawful scope
  | _, .expandColon _ e, scope => e.Lawful scope
  | _, .expandBlock b, scope => b.Lawful scope
  | _, .endBranches, _ => True
  | _, .branchNewline _ rest, scope => rest.Lawful scope
  | _, .branchComment _ _ _ rest, scope => rest.Lawful scope
  | _, .fallthrough _ _ rest, scope => rest.Lawful scope
  | _, .when _ _ body rest, scope => body.Lawful scope ∧ rest.Lawful scope
  | _, .default _ body rest, scope => body.Lawful scope ∧ rest.Lawful scope
  | _, .endAlternates, _ => True
  | _, .elseIf _ _ _ nested rest, scope => nested.Lawful scope ∧ rest.Lawful scope
  | _, .otherwise _ _ nested, scope => nested.Lawful scope
  | _, .filterText _ _ _ _ _, _ => True
  | _, .filterNested _ _ _ inner, scope => inner.Lawful scope
  | _, .filterRegion _ _ _ region, scope => region.Lawful scope
  | _, .tag _ _ head body, scope => HeadItem.Distinct head ∧ body.Lawful scope
  | _, .interpolatedTag _ _ head body, scope => HeadItem.Distinct head ∧ body.Lawful scope
  | _, .shorthand first head body, scope =>
      HeadItem.Distinct (.shorthand first :: head) ∧ body.Lawful scope
  | _, .call _ _ _ head body, scope => HeadItem.Distinct head ∧ body.Lawful scope
  | _, .mixin _ _ _ nested, _ => nested.Lawful .mixinBody
  | _, .mixinBlock _, scope => scope.inMixin = true
  | _, .yield _, _ => True
  | _, .namedBlock _ _ _ nested, scope => nested.Lawful scope
  | _, .doctype _ _, _ => True
  | _, .caseOf _ _ _ branches _, scope => branches.Lawful scope
  | _, .parent _ _ _, _ => True
  | _, .inclusion _ _ _ _ nested, scope => nested.Lawful scope
  | _, .filter f, scope => f.Lawful scope
  | _, .comment _ _ _ region, scope => region.Lawful scope
  | _, .dot _ region, scope => region.Lawful scope
  | _, .run first rest, scope => first.Lawful scope ∧ rest.Lawful scope
  | _, .html _ _ rest, scope => rest.Lawful scope
  | _, .each _ _ body, scope => body.Lawful scope
  | _, .eachElse _ _ body _ alternate, scope => body.Lawful scope ∧ alternate.Lawful scope
  | _, .whileLoop _ _ nested, scope => nested.Lawful scope
  | _, .conditional _ _ nested rest, scope => nested.Lawful scope ∧ rest.Lawful scope
  | _, .code c _ nested, scope =>
      (c.buffered = true → nested.tokens = []) ∧ nested.Lawful scope
  | _, .blockCode _ _, _ => True

/-- A body that is a block alone goes on as the block does, and no head is in front of it. -/
theorem greedy_blockBody {closable : Bool} {a : Lookahead} (b : Derivation .block)
    (h : b.Greedy a) :
    (a.before b.tokens).next ∉ headStarts ∧
      (nesting .noContent [] (.someBlock b) : Derivation (.body closable)).Greedy a := by
  have hhead : Terminal.indent ∉ headStarts := by decide
  have hline : Terminal.indent ∈ contentFollows := by decide
  cases b
  exact ⟨hhead, nofun, hline, nofun, h⟩

end Derivation
end Pug
