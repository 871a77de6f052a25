/-
# Filters

    filter = Filter [group] (Text | filter | [verbatim])

A filter in the place of the text of another one is the only node of its block.
-/

import Pug.Grammar.Attributes
import Pug.Grammar.Text

namespace Pug
namespace Grammar

open Reader

/-- A filter behind its attributes. In the place of its text another one may stand, which
`nested` reads behind its name. -/
def filterContent (inner : Inner) (scope : Scope) (nested : String → Location → Reader Node)
    (name : String) (loc : Location) (attrs : List Attribute) : Reader Node := do
  let t ← peek
  let place ← locate t.pos
  match t.lexeme with
  | .text value => do
    skip
    return .filter name attrs ⟨[.text value false place], place⟩ loc
  | .filter inside => do
    skip
    let node ← nested inside place
    return .filter name attrs ⟨[node], loc⟩ loc
  | _ => return .filter name attrs (← verbatimAt inner scope loc) loc

/-- A filter behind its name. -/
def filter (inner : Inner) (scope : Scope) : Nat → String → Location → Reader Node
  | 0, _, _ => exhausted
  | rounds + 1, name, loc => do
    let attrs ← filterAttributes inner.rounds
    filterContent inner scope (filter inner scope rounds) name loc attrs

end Grammar
end Pug
