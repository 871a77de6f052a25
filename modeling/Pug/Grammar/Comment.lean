/-
# Comments

    comment = Comment [verbatim]

A comment with a verbatim region under it is a node of another kind than one
without.
-/

import Pug.Grammar.Text

namespace Pug
namespace Grammar

open Reader

/-- A comment behind its text; a verbatim region under it belongs to it. -/
def comment (inner : Inner) (scope : Scope) (value : String) (buffered : Bool)
    (loc : Location) : Reader Node := do
  match ← verbatim? inner scope with
  | some body => return .blockComment value buffered body loc
  | none => return .comment value buffered loc

end Grammar
end Pug
