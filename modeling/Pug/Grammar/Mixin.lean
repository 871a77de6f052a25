/-
# Mixins

    mixin      = Mixin [block]
    call       = Call body
    mixinBlock = MixinBlock

A mixin with a block is defined; without one it is called, in the way of old. In
the block of a definition, at any depth, a placeholder stands for the block of
the call.
-/

import Pug.Grammar.Element

namespace Pug
namespace Grammar

open Reader

/-- A mixin behind its name and its parameters. -/
def mixin (inner : Inner) (name : String) (args : Option String) (loc : Location) :
    Reader Node := do
  match ← inner.block? .mixinBody with
  | some body => return .mixin name args false .empty (some body) loc
  | none => do
    warn (.legacyMixinCall name) loc
    return .mixin name args true .empty none loc

/-- The body of a call: a block without nodes is none. -/
def callBody (b : Block) : Option Block := if b.isEmpty then none else some b

/-- A call behind the name of the mixin and the arguments. -/
def call (inner : Inner) (scope : Scope) (name : String) (args : Option String)
    (loc : Location) : Reader Node := do
  let b ← body inner scope loc false
  return .mixin name args true b.attrs (callBody b.block) loc

/-- The place of the block of a call. -/
def mixinBlock (scope : Scope) (loc : Location) : Reader Node := do
  if scope.inMixin then
    return .mixinBlock loc
  else
    reject .blockOutsideMixin loc.toPosition

end Grammar
end Pug
