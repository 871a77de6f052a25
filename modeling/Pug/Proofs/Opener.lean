/-
# Openers

An opener is a token with a body of its own behind it: the name of an element, the expression
of one, or the name of a mixin that is called. The three productions read the same body, but
that no slash closes a call, and each gives what it has read to its own node.
-/

import Pug.Proofs.Reading.Document

namespace Pug

/-- A token behind which a body comes. -/
inductive Opener where
  | tag (name : String)
  | interpolation (expr : String)
  | call (name : String) (args : Option String)

namespace Opener

/-- The lexeme of an opener. -/
def lexeme : Opener → Lexeme
  | .tag name => .tag name
  | .interpolation expr => .interpolation expr
  | .call name args => .call name args

/-- Whether a slash may close what an opener begins. -/
def closable : Opener → Bool
  | .call _ _ => false
  | _ => true

/-- The node of an opener at `loc` with a body. -/
def node (x : Opener) (loc : Location) (b : Grammar.Body) : Node :=
  match x with
  | .tag name => .tag name b.selfClosing b.textOnly (isInlineName name) b.attrs b.block loc
  | .interpolation expr => .interpolatedTag expr b.selfClosing b.textOnly b.attrs b.block loc
  | .call name args => .mixin name args true b.attrs (Grammar.callBody b.block) loc

/-- The derivation of an opener with a head and a body behind it. -/
def derivation (x : Opener) (pos : Position) (head : List HeadItem)
    (body : Derivation (.body x.closable)) : Derivation .expr :=
  match x with
  | .tag name => .tag name pos head body
  | .interpolation expr => .interpolatedTag expr pos head body
  | .call name args => .call name args pos head body

@[simp] theorem spliced_node (x : Opener) (loc : Location) (b : Grammar.Body) :
    (x.node loc b).spliced = [x.node loc b] := by
  cases x <;> rfl

section Derivation

variable (x : Opener) (pos : Position) (head : List HeadItem) (body : Derivation (.body x.closable))

theorem tokens_derivation :
    (x.derivation pos head body).tokens =
      ⟨x.lexeme, pos⟩ :: (head.flatMap HeadItem.tokens ++ body.tokens) := by
  cases x <;> rfl

theorem meaning_derivation (o : Options) :
    (x.derivation pos head body).meaning o =
      x.node (o.place pos) (body.meaning o (o.place pos) (HeadItem.attributes o head)) := by
  cases x <;> rfl

theorem trail_derivation (o : Options) :
    (x.derivation pos head body).trail o = HeadItem.trail o false head ++ body.trail o := by
  cases x <;> rfl

variable {x pos head body}

theorem greedy_derivation {a : Lookahead} (hhead : (a.before body.tokens).next ∉ headStarts)
    (hbody : body.Greedy a) : (x.derivation pos head body).Greedy a := by
  cases x <;> exact ⟨hhead, hbody⟩

theorem lawful_derivation {scope : Grammar.Scope} (hhead : HeadItem.Distinct head)
    (hbody : body.Lawful scope) : (x.derivation pos head body).Lawful scope := by
  cases x <;> exact ⟨hhead, hbody⟩

end Derivation

section Reading

open Grammar Reader

variable (x : Opener) (inner : Inner) (scope : Scope) (o : Options) (pos : Position)

/-- **An opener is read with the body behind it.** -/
theorem run_expr (c : Cursor) (hc : c.peek = ⟨x.lexeme, pos⟩) :
    (expr inner scope).run o c =
      ((body inner scope (o.place pos) x.closable).run o c.advance).andThen
        fun b rest => ⟨.done (x.node (o.place pos) b) rest, []⟩ := by
  rw [Grammar.expr, run_bind, run_peek, Run.andThen_done, Run.after_nil, hc]
  cases x <;> rfl

end Reading
end Opener
end Pug
