/-
# Indents behind mixins

The tokens of a template open and close levels of indents. A level that is opened right
behind the token of a mixin is the body of the mixin, and what stands on it or on a level
further in stands in the mixin. `Indents` keeps track of this along the tokens, one token
at a time.
-/

import Pug.Token.Basic

namespace Pug

/-- The levels of indents that are open in front of a token. -/
structure Indents where
  /-- Whether the token right before is that of a mixin. -/
  afterMixin : Bool
  /-- For each open level, the innermost first, whether it is the body of a mixin. -/
  levels : List Bool
  deriving DecidableEq

namespace Indents

/-- The levels in front of a template. -/
def none : Indents := ⟨false, []⟩

/-- The levels behind one more token. An outdent that closes nothing is passed over. -/
def next (s : Indents) (t : Token) : Indents where
  afterMixin := t.terminal = .mixin
  levels :=
    match t.terminal with
    | .indent => s.afterMixin :: s.levels
    | .outdent => s.levels.tail
    | _ => s.levels

/-- The levels behind more tokens. -/
def after (s : Indents) (ts : List Token) : Indents := ts.foldl next s

/-- Whether some open level is the body of a mixin. -/
def inMixin (s : Indents) : Bool := s.levels.any id

@[simp] theorem after_nil (s : Indents) : s.after [] = s := rfl

@[simp] theorem after_cons (s : Indents) (t : Token) (ts : List Token) :
    s.after (t :: ts) = (s.next t).after ts := rfl

@[simp] theorem after_append (s : Indents) (ts us : List Token) :
    s.after (ts ++ us) = (s.after ts).after us :=
  List.foldl_append

end Indents

/-- **An indent behind a mixin opens its body,** and an outdent closes it. -/
example : ((Indents.none.after [⟨.mixin "m" none, ⟨1, 1⟩⟩, ⟨.indent, ⟨2, 1⟩⟩]).inMixin,
    (Indents.none.after [⟨.mixin "m" none, ⟨1, 1⟩⟩, ⟨.indent, ⟨2, 1⟩⟩,
      ⟨.outdent, ⟨3, 1⟩⟩]).inMixin) = (true, false) := by decide

end Pug
