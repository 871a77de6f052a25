/-
# Positions in a template

Whoever cuts a template into tokens gives every token a line and a column.
They are copied into the tree, into errors and into warnings, and nothing is
computed from them: any two 64-bit words are a position.
-/

namespace Pug

/-- A line and a column of a template. -/
structure Position where
  line : UInt64
  column : UInt64
  deriving DecidableEq

namespace Position

/-- Where a template without any token ends. -/
def first : Position := ⟨1, 1⟩

/-- The position of a template as a whole, which no character of it has. -/
def whole : Position := ⟨0, 0⟩

end Position

/-- A position together with the name of the template's file, if it has one. -/
structure Location extends Position where
  filename : Option String
  deriving DecidableEq

end Pug
