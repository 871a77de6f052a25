/-
# Attributes

    group = StartAttributes Attribute* EndAttributes
    head  = (Id | Class | AndAttributes | group)*

In the head of an element no name but `class` occurs twice, whether as a shorthand
or in a group. A second group is doubtful and raises a warning before it is
read. The groups of filters may repeat names.

A head ends before the first token that is no item of it. A shorthand is gone past
only where the token is one, so a name that is repeated is all that can be wrong
with it.
-/

import Pug.Grammar.Inner

namespace Pug
namespace Grammar

open Reader

/-- Whether an attribute of this name may not follow the attributes read so far. -/
def repeats (attrs : List Attribute) (name : String) : Bool :=
  name ≠ "class" && attrs.any fun a => a.name = name

/-- What is wrong with a name that is repeated. -/
def repetition (name : String) : Fault :=
  if name = "id" then .duplicateId else .duplicateAttribute name

/-- The attributes read so far and one more, which is refused if it repeats a name. -/
def addDistinct (attrs : List Attribute) (a : Attribute) : Reader (List Attribute) := do
  if repeats attrs a.name then
    reject (repetition a.name) a.loc.toPosition
  else
    return attrs ++ [a]

/-- The attributes read so far and the next one of a group. The token behind the
last attribute is taken and put back. -/
def groupItem (distinct : Bool) (attrs : List Attribute) : Reader (Option (List Attribute)) := do
  let t ← advance
  let loc ← locate t.pos
  match t.lexeme with
  | .attribute name value escaped =>
    if distinct then
      return some (← addDistinct attrs ⟨name, value, escaped, loc⟩)
    else
      return some (attrs ++ [⟨name, value, escaped, loc⟩])
  | _ => do
    defer t
    return none

/-- The attributes read so far and those of a group, behind its first delimiter. -/
def groupTail (rounds : Nat) (distinct : Bool) (attrs : List Attribute) :
    Reader (List Attribute) := do
  let attrs ← iterate (groupItem distinct) rounds attrs
  let _ ← expect .endAttributes
  return attrs

/-- The attributes read so far and those of a group. -/
def group (rounds : Nat) (distinct : Bool) (attrs : List Attribute) :
    Reader (List Attribute) := do
  let _ ← expect .startAttributes
  groupTail rounds distinct attrs

/-- The attributes of a filter, if it has a group of them. -/
def filterAttributes (rounds : Nat) : Reader (List Attribute) := do
  if ← lookingAt .startAttributes then
    group rounds false []
  else
    return []

/-- The part of a head that is read so far. -/
structure Head extends Attributes where
  /-- Whether a group was read. -/
  grouped : Bool
  deriving DecidableEq

namespace Head

/-- The head of which nothing is read. -/
def empty : Head := ⟨.empty, false⟩

end Head

/-- The part of a head that is read so far, and its next item. -/
def headItem (rounds : Nat) (head : Head) : Reader (Option Head) := do
  let t ← peek
  let loc ← locate t.pos
  match t.lexeme with
  | .idName value => do
    skip
    let listed ← addDistinct head.listed ⟨"id", value, false, loc⟩
    return some { head with listed }
  | .className value => do
    skip
    let listed ← addDistinct head.listed ⟨"class", value, false, loc⟩
    return some { head with listed }
  | .andAttributes expr => do
    skip
    return some { head with spreads := head.spreads ++ [⟨expr, loc⟩] }
  | .startAttributes => do
    emitIf head.grouped (.warned ⟨.multipleAttributeGroups, loc⟩)
    let listed ← group rounds true head.listed
    return some { head with listed, grouped := true }
  | _ => return none

/-- The attributes of an element. -/
def attributes (rounds : Nat) : Reader Attributes := do
  return (← iterate (headItem rounds) rounds .empty).toAttributes

end Grammar
end Pug
