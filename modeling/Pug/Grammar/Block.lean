/-
# Lists of productions

    item  = Newline | html | expr
    block = Indent item* Outdent

A template is such a list too, up to the end of the input. A production that
gives a block adds the nodes of the block to the list.

The items of a block end only before an outdent, which is gone past as it is: to
expect it there comes to the same (`block_eq_expect`).
-/

import Pug.Grammar.Html

namespace Pug
namespace Grammar

open Reader

/-- The nodes that one item adds to a list which ends at `stop`. -/
def item (inner : Inner) (scope : Scope) (stop : Terminal) : Reader (Option (List Node)) := do
  let t ← peek
  if t.terminal = stop then
    return none
  else
    match t.terminal with
    | .newline => do
      skip
      return some []
    | .textHtml => return some (← html inner scope)
    | _ => return some (← inner.expr scope).spliced

/-- The nodes of a list that ends at `stop`. The terminal stays in place. -/
def items (inner : Inner) (scope : Scope) (stop : Terminal) : Reader (List Node) := do
  return (← many (item inner scope stop) inner.rounds).flatten

/-- An indented list, at the place of its indent. -/
def block (inner : Inner) (scope : Scope) : Reader Block := do
  let t ← expect .indent
  let loc ← locate t.pos
  let nodes ← items inner scope .outdent
  skip
  return ⟨nodes, loc⟩

/-- The items of a list end only where the list has to end. -/
theorem terminal_of_item {inner : Inner} {scope : Scope} {stop : Terminal} {o : Options}
    {c rest : Cursor} {events : List Event}
    (h : (item inner scope stop).run o c = ⟨.done none rest, events⟩) :
    rest.peek.terminal = stop := by
  unfold item at h
  by_cases hstop : c.peek.terminal = stop
  · obtain ⟨rfl, _⟩ : c = rest ∧ [] = events := by simpa [hstop] using h
    exact hstop
  · simp only [run_bind, run_peek, Run.andThen_done, Run.after_nil, if_neg hstop] at h
    split at h
    · simp [Run.after] at h
    · exact absurd h (Run.andThen_some_ne_none _ _ _ _)
    · exact absurd h (Run.andThen_some_ne_none _ _ _ _)

/-- **Nothing but an outdent ends a block.** -/
theorem block_eq_expect (inner : Inner) (scope : Scope) :
    block inner scope = do
      let t ← expect .indent
      let loc ← locate t.pos
      let nodes ← items inner scope .outdent
      let _ ← expect .outdent
      return ⟨nodes, loc⟩ := by
  unfold block items
  refine bind_congr fun t => bind_congr fun loc => ?_
  simp only [bind_assoc, pure_bind]
  refine many_bind_congr (fun o c rest events hitem as => ?_) _
  simp [run_expect, terminal_of_item hitem]

end Grammar
end Pug
