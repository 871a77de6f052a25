/-
# Cases

    case      = Case Indent (Comment | Newline | branch)* Outdent
    branch    = When [expansion] | Default expansion
    expansion = Colon expr | block

A `when` before a line break or before the end of the case has no body. Comments
between the branches are dropped.

The branches end only before an outdent, which is gone past as it is: to expect it
there comes to the same (`caseOf_eq_expect`).
-/

import Pug.Grammar.Inner

namespace Pug
namespace Grammar

open Reader

/-- The body of a branch: a block, or a colon and the one production in it. -/
def expansion (inner : Inner) (scope : Scope) : Reader Block := do
  let t ← peek
  if t.terminal = .colon then
    skip
    let loc ← locate t.pos
    return (← inner.expr scope).asBody loc
  else
    inner.block scope

/-- The body of a `when`, if it has one. -/
def whenBody (inner : Inner) (scope : Scope) : Reader (Option Block) := do
  let t ← peek
  if t.terminal = .newline ∨ t.terminal = .outdent then
    return none
  else
    return some (← expansion inner scope)

/-- The branches that one item adds to a case. The outdent stays in place. -/
def caseItem (inner : Inner) (scope : Scope) : Reader (Option (List Node)) := do
  let t ← peek
  let loc ← locate t.pos
  match t.lexeme with
  | .outdent => return none
  | .comment _ _ => do
    skip
    return some []
  | .newline => do
    skip
    return some []
  | .when expr => do
    skip
    return some [.when expr (← whenBody inner scope) loc]
  | .default => do
    skip
    return some [.when defaultExpr (some (← expansion inner scope)) loc]
  | _ => unexpected t [.when, .default, .newline]

/-- A case behind its expression. -/
def caseOf (inner : Inner) (scope : Scope) (expr : String) (loc : Location) : Reader Node := do
  let t ← expect .indent
  let place ← locate t.pos
  let branches ← many (caseItem inner scope) inner.rounds
  skip
  return .case expr ⟨branches.flatten, place⟩ loc

/-- The items of a case end only where the case ends. -/
theorem terminal_of_caseItem {inner : Inner} {scope : Scope} {o : Options} {c rest : Cursor}
    {events : List Event} (h : (caseItem inner scope).run o c = ⟨.done none rest, events⟩) :
    rest.peek.terminal = .outdent := by
  unfold caseItem at h
  simp only [run_bind, run_peek, run_locate, Run.andThen_done, Run.after_nil] at h
  split at h
  · rename_i hl
    obtain ⟨rfl, _⟩ : c = rest ∧ [] = events := by simpa using h
    exact congrArg Lexeme.terminal hl
  · simp at h
  · simp at h
  · exact absurd h (Run.andThen_some_ne_none _ _ _ _)
  · exact absurd h (Run.andThen_some_ne_none _ _ _ _)
  · simp at h

/-- **Nothing but an outdent ends a case.** -/
theorem caseOf_eq_expect (inner : Inner) (scope : Scope) (expr : String) (loc : Location) :
    caseOf inner scope expr loc = do
      let t ← expect .indent
      let place ← locate t.pos
      let branches ← many (caseItem inner scope) inner.rounds
      let _ ← expect .outdent
      return .case expr ⟨branches.flatten, place⟩ loc := by
  unfold caseOf
  refine bind_congr fun t => bind_congr fun place => ?_
  refine many_bind_congr (fun o c rest events hitem as => ?_) _
  simp [run_expect, terminal_of_caseItem hitem]

end Grammar
end Pug
