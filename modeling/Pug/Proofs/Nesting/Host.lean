/-
# Hosts of a block

A host is a token that begins a production by itself and may have a block right under it:
the name of an element, a loop, a conditional, a block with a name, a mixin, or a line of
code whose value is not put out. The seven productions treat the block alike. Each one gives
the nodes of the block to its own node, and fails with the error with which the block fails;
it leaves no events of its own behind. Only a mixin changes the scope of the block.
-/

import Pug.Grammar.Document
import Pug.Proofs.Reading.Element
import Pug.Proofs.Reading.Failure

namespace Pug

/-- A token that may have a block under it, and nothing else. -/
inductive Host where
  | tag (name : String)
  | while (test : String)
  | if (test : String)
  | each (iteration : Iteration)
  | block (name : String) (mode : BlockMode)
  | mixin (name : String) (args : Option String)
  | code (c : Code) (unbuffered : c.buffered = false)

namespace Host

/-- The lexeme of a host. -/
def lexeme : Host → Lexeme
  | .tag name => .tag name
  | .while test => .while test
  | .if test => .if test
  | .each iteration => .each iteration
  | .block name mode => .block name mode
  | .mixin name args => .mixin name args
  | .code c _ => .code c

/-- **Every token of the seven kinds is a host**, except for code whose value is put out. -/
theorem exists_lexeme_eq_iff (l : Lexeme) :
    (∃ host : Host, host.lexeme = l) ↔
      l.terminal ∈ [.tag, .while, .if, .each, .block, .mixin, .code] ∧
        ∀ c, l = .code c → c.buffered = false := by
  constructor
  · rintro ⟨host, rfl⟩
    cases host with
    | code c unbuffered =>
      refine ⟨by simp [lexeme, Lexeme.terminal], ?_⟩
      rintro _ ⟨⟩
      exact unbuffered
    | _ => simp [lexeme, Lexeme.terminal]
  · rintro ⟨hmem, hcode⟩
    cases l with
    | tag name => exact ⟨.tag name, rfl⟩
    | «while» test => exact ⟨.while test, rfl⟩
    | «if» test => exact ⟨.if test, rfl⟩
    | each iteration => exact ⟨.each iteration, rfl⟩
    | block name mode => exact ⟨.block name mode, rfl⟩
    | mixin name args => exact ⟨.mixin name args, rfl⟩
    | code c => exact ⟨.code c (hcode c rfl), rfl⟩
    | _ => simp [Lexeme.terminal] at hmem

/-- The scope of the block under a host. -/
def scope (host : Host) (scope : Grammar.Scope) : Grammar.Scope :=
  match host with
  | .mixin _ _ => .mixinBody
  | _ => scope

/-- The node of a host at `loc` with nodes under it, which are indented at `place`. The body of
an element is at the place of the element. -/
def node (host : Host) (loc place : Location) (nodes : List Node) : Node :=
  match host with
  | .tag name => .tag name false false (isInlineName name) .empty ⟨nodes, loc⟩ loc
  | .while test => .while test ⟨nodes, place⟩ loc
  | .if test => .conditional test ⟨nodes, place⟩ none loc
  | .each iteration => .each iteration ⟨nodes, place⟩ none loc
  | .block name mode => .namedBlock (Text.trim name) mode ⟨nodes, place⟩ loc
  | .mixin name args => .mixin name args false .empty (some ⟨nodes, place⟩) loc
  | .code c _ => .code c false (some ⟨nodes, place⟩) loc

@[simp] theorem spliced_node (host : Host) (loc place : Location) (nodes : List Node) :
    (host.node loc place nodes).spliced = [host.node loc place nodes] := by
  cases host <;> rfl

/-- The tokens of a host with other tokens in a block under it. -/
def nest (host : Host) (pos indent outdent : Position) (ts : List Token) : List Token :=
  ⟨host.lexeme, pos⟩ :: ⟨.indent, indent⟩ :: (ts ++ [⟨.outdent, outdent⟩])

/-- The derivation of a host with a block under it. -/
def derivation (host : Host) (pos : Position) (b : Derivation .block) : Derivation .expr :=
  match host with
  | .tag name => .tag name pos [] (.nesting .noContent [] (.someBlock b))
  | .while test => .whileLoop test pos (.someBlock b)
  | .if test => .conditional test pos (.someBlock b) .endAlternates
  | .each iteration => .each iteration pos b
  | .block name mode => .namedBlock name mode pos (.someBlock b)
  | .mixin name args => .mixin name args pos (.someBlock b)
  | .code c _ => .code c pos (.someBlock b)

/-- Only a mixin has a block in the body of a mixin, where there is none around it. -/
theorem terminal_of_inMixin {host : Host} (h : (host.scope .outermost).inMixin = true) :
    host.lexeme.terminal = .mixin := by
  cases host with
  | mixin name args => rfl
  | _ => cases h

section Derivation

variable (host : Host) (pos : Position) (b : Derivation .block)

theorem tokens_derivation : (host.derivation pos b).tokens = ⟨host.lexeme, pos⟩ :: b.tokens := by
  cases host with
  | «if» test => exact congrArg _ (List.append_nil _)
  | _ => rfl

theorem meaning_derivation (o : Options) :
    (host.derivation pos b).meaning o =
      host.node (o.place pos) (b.meaning o).loc (b.meaning o).nodes := by
  cases b
  cases host <;> rfl

theorem trail_derivation (o : Options) : (host.derivation pos b).trail o = b.trail o := by
  cases host <;> simp [derivation, Derivation.trail, Derivation.meaning, HeadItem.trail]

/-- At the end of the input nothing goes on behind the block under a host. -/
theorem greedy_derivation (h : b.Greedy .finish) : (host.derivation pos b).Greedy .finish := by
  cases host with
  | tag name => exact b.greedy_blockBody h
  | «if» test => exact ⟨h, (by decide : Terminal.eos ∉ [.elseIf, .else])⟩
  | each iteration => exact ⟨h, nofun⟩
  | _ => exact h

theorem lawful_derivation {scope : Grammar.Scope} (h : b.Lawful (host.scope scope)) :
    (host.derivation pos b).Lawful scope := by
  cases host with
  | tag name => exact ⟨List.nodup_nil, trivial, h⟩
  | «if» test => exact ⟨h, trivial⟩
  | code c unbuffered => exact ⟨fun hc => absurd hc (by simp [unbuffered]), h⟩
  | _ => exact h

end Derivation
end Host

namespace Grammar

open Reader

variable {o : Options} {inner : Inner} {scope : Scope} {pos indent : Position}
  {us : List Token} {e : ParseError} {events : List Event}

theorem fails_block (h : (items inner scope .outdent).Fails o us e events) :
    (block inner scope).Fails o (⟨.indent, indent⟩ :: us) e events := by
  have hindent : (expect .indent).Takes o [⟨.indent, indent⟩] us ⟨.indent, indent⟩ [] :=
    fun _ => rfl
  exact .behind hindent (.locate_bind h.bind)

variable (h : (inner.block scope).Fails o (⟨.indent, indent⟩ :: us) e events)
include h

theorem fails_block? : (inner.block? scope).Fails o (⟨.indent, indent⟩ :: us) e events := by
  have hindent : (lookingAt .indent).Takes o [] (⟨.indent, indent⟩ :: us) true [] := fun _ => rfl
  exact .behind hindent h.bind

theorem fails_blockAt (loc : Location) :
    (inner.blockAt scope loc).Fails o (⟨.indent, indent⟩ :: us) e events := (fails_block? h).bind

/-- In front of a block a body takes nothing. -/
theorem fails_body (hr : 0 < inner.rounds) (loc : Location) (closable : Bool) :
    (body inner scope loc closable).Fails o (⟨.indent, indent⟩ :: us) e events := by
  have hattributes : (attributes inner.rounds).Takes o [] (⟨.indent, indent⟩ :: us) .empty [] :=
    takes_attributes [] hr List.nodup_nil (by decide : Terminal.indent ∉ headStarts)
  have hcontent : (content inner scope loc closable).Takes o [] (⟨.indent, indent⟩ :: us)
      (.none loc) [] := fun _ => rfl
  have haccept : (accept .dot).Takes o [] (⟨.indent, indent⟩ :: us) false [] := fun _ => rfl
  have hskip : skipNewlines.Takes o [] (⟨.indent, indent⟩ :: us) () [] := fun _ => rfl
  exact .behind hattributes (.behind haccept (.behind hcontent (.behind hskip
    (fails_blockAt h loc).bind.bind)))

omit h

/-- **A host fails as the block under it does.** -/
theorem fails_expr (host : Host) (hr : 0 < inner.rounds)
    (h : (inner.block (host.scope scope)).Fails o (⟨.indent, indent⟩ :: us) e events) :
    (expr inner scope).Fails o (⟨host.lexeme, pos⟩ :: ⟨.indent, indent⟩ :: us) e events := by
  cases host with
  | tag name => exact .peek_bind (.locate_bind (.skip_bind (fails_body h hr _ true).bind))
  | «while» test => exact .peek_bind (.locate_bind (.skip_bind (fails_blockAt h _).bind))
  | «if» test => exact .peek_bind (.locate_bind (.skip_bind (fails_blockAt h _).bind))
  | each iteration => exact .peek_bind (.locate_bind (.skip_bind h.bind))
  | block name mode => exact .peek_bind (.locate_bind (.skip_bind (fails_blockAt h _).bind))
  | mixin name args => exact .peek_bind (.locate_bind (.skip_bind (fails_block? h).bind))
  | code c unbuffered =>
    have hline : (codeLine inner scope c (o.place pos)).Fails o (⟨.indent, indent⟩ :: us) e
        events := by
      refine .peek_bind ?_
      rw [if_pos (by rfl), unbuffered]
      exact h.bind
    exact .peek_bind (.locate_bind (.skip_bind hline))

end Grammar
end Pug
