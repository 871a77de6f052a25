/-
# What tokens carry into the tree

The expressions, loop heads and block modes that a token brings with it and that
the node made from it keeps unchanged. Expressions are text in the language
of the template's host; they are never looked into.
-/

namespace Pug

/-- A piece of host code: whether its value is put out, and whether it is escaped
on the way. -/
structure Code where
  source : String
  buffered : Bool
  escaped : Bool
  deriving DecidableEq

/-- The head of a loop over a collection: the name of the item, the name of its
key if one is wanted, and the collection. -/
structure Iteration where
  item : String
  key : Option String
  collection : String
  deriving DecidableEq

/-- What a named block does with the block of that name in the parent template. -/
inductive BlockMode where
  | replace
  | append
  | prepend
  deriving DecidableEq

end Pug
