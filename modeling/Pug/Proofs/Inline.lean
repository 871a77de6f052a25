/-
# Items of a text

A text is made of pieces of text and of code, of interpolations, and of line breaks. An
interpolation holds a production that is read in front of the bracket that closes it, and takes
everything up to there. Where a production ends depends on the token behind it only, so an
interpolation is the same in front of whatever tokens, and among whatever items.
-/

import Pug.Proofs.Coupling.Ahead

namespace Pug

open Grammar

/-- The tokens of a production between the brackets of an interpolation, which is read in front of
the second one and takes all of them. -/
structure Interpolation (o : Options) (scope : Scope) where
  start : Position
  ts : List Token
  stop : Position
  node : Node
  read : ∃ depth finish rest events,
    (expr (.ofDepth depth) scope).run o
        (.before finish (ts ++ ⟨.endInterpolation, stop⟩ :: rest)) =
      ⟨.done node (.before finish (⟨.endInterpolation, stop⟩ :: rest)), events⟩

/-- An item of a text. -/
inductive Inline (o : Options) (scope : Scope) where
  | plain (p : Plain)
  | interpolation (i : Interpolation o scope)
  | newline (pos : Position)

variable {o : Options} {scope : Scope}

namespace Interpolation

/-- The tokens of an interpolation. -/
def tokens (i : Interpolation o scope) : List Token :=
  ⟨.startInterpolation, i.start⟩ :: (i.ts ++ [⟨.endInterpolation, i.stop⟩])

/-- **An interpolation is a fragment** in front of every token. -/
theorem exists_fragment (i : Interpolation o scope) :
    ∃ f : Derivation .fragment, f.tokens = i.tokens ∧ f.meaning o = i.node ∧
      (∀ a, f.Greedy a) ∧ f.Lawful scope := by
  obtain ⟨start, ts, stop, node, depth, finish, rest, events, hrun⟩ := i
  obtain ⟨us, hus, e, hts, hg, hl⟩ := ensures_expr (sound_ofDepth depth) o finish _ _ _ hrun
  obtain rfl : ⟨.endInterpolation, stop⟩ :: rest = us := (Cursor.mk.inj hus).2.1
  obtain rfl : ts = e.tokens := List.append_cancel_right hts
  have hahead : (Cursor.before finish (e.tokens ++ ⟨.endInterpolation, stop⟩ :: rest)).ahead =
      e.tokens ++ ⟨.endInterpolation, stop⟩ :: beforeEos rest :=
    beforeEos_append_cons e.eosFree nofun
  obtain ⟨rfl, -⟩ := eq_meaning_of_done hrun hahead hg hl
  exact ⟨.interpolated start e stop, rfl, rfl, fun _ => hg, hl⟩

end Interpolation

namespace Inline

/-- The tokens of an item. -/
def tokens : Inline o scope → List Token
  | plain p => [p.token]
  | interpolation i => i.tokens
  | newline pos => [⟨.newline, pos⟩]

/-- The node of an item. That of a line break is text too. -/
def node : Inline o scope → Node
  | plain p => p.node o
  | interpolation i => i.node
  | newline pos => .text "\n" false (o.place pos)

/-- Whether an item is a line break. -/
def isNewline : Inline o scope → Bool
  | newline _ => true
  | _ => false

/-- Whether an item is a piece of text or of code. -/
def isPlain : Inline o scope → Bool
  | plain _ => true
  | _ => false

/-- **Every item but a line break is a fragment** in front of every token. -/
theorem exists_fragment (i : Inline o scope) (hi : i.isNewline = false) :
    ∃ f : Derivation .fragment, f.tokens = i.tokens ∧ f.meaning o = i.node ∧
      (∀ a, f.Greedy a) ∧ f.Lawful scope := by
  cases i with
  | plain p => exact ⟨.plain p, rfl, rfl, fun _ => trivial, trivial⟩
  | interpolation i => exact i.exists_fragment
  | newline pos => cases hi

end Inline
end Pug
