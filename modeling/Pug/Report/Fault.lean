/-
# Errors

The first violation of the grammar ends a reading. What is wrong is a fault; an
error is a fault at the location of the token that shows it. Each fault has a
code, which never changes, and a message, which is for reading:

| fault | code |
| --- | --- |
| `unexpected` | `UNEXPECTED_TOKEN` |
| `duplicateId` | `DUPLICATE_ID` |
| `duplicateAttribute` | `DUPLICATE_ATTRIBUTE` |
| `blockOutsideMixin` | `BLOCK_OUTSIDE_MIXIN` |
| `bufferedCodeBlock` | `BLOCK_IN_BUFFERED_CODE` |
| `malformedVerbatim` | `MALFORMED_VERBATIM_TOKEN` |
-/

import Pug.Token.Basic

namespace Pug

/-- What is wrong with a template. -/
inductive Fault where
  /-- A token that the grammar does not have in its place, with the terminals that
  it has there, as far as they are named. -/
  | unexpected (found : Terminal) (expected : List Terminal)
  /-- A second `id` of one element. -/
  | duplicateId
  /-- A second attribute of one name, other than `id` and `class`, of one element. -/
  | duplicateAttribute (name : String)
  /-- The place of a mixin's block, outside the body of a mixin. -/
  | blockOutsideMixin
  /-- A block under code whose value is put out. -/
  | bufferedCodeBlock
  /-- A token that does not occur in a verbatim region, or the end of the input
  inside one. -/
  | malformedVerbatim (found : Terminal)
  deriving DecidableEq

namespace Fault

/-- The code of a fault. -/
def code : Fault → String
  | .unexpected _ _ => "UNEXPECTED_TOKEN"
  | .duplicateId => "DUPLICATE_ID"
  | .duplicateAttribute _ => "DUPLICATE_ATTRIBUTE"
  | .blockOutsideMixin => "BLOCK_OUTSIDE_MIXIN"
  | .bufferedCodeBlock => "BLOCK_IN_BUFFERED_CODE"
  | .malformedVerbatim _ => "MALFORMED_VERBATIM_TOKEN"

/-- The name of a terminal between backquotes. -/
def quoted (terminal : Terminal) : String := "`" ++ terminal.name ++ "`"

/-- The terminals after the first one of an enumeration: commas between them, and
`or` before the last. -/
def furtherNames : List Terminal → String
  | [] => ""
  | [terminal] => " or " ++ quoted terminal
  | terminal :: terminals => ", " ++ quoted terminal ++ furtherNames terminals

/-- The end of a message, which enumerates the terminals that were expected. -/
def expectation : List Terminal → String
  | [] => ""
  | terminal :: terminals => ", expected " ++ quoted terminal ++ furtherNames terminals

/-- The message of a fault. -/
def message : Fault → String
  | .unexpected found expected => "unexpected token " ++ quoted found ++ expectation expected
  | .duplicateId => "duplicate attribute \"id\" is not allowed"
  | .duplicateAttribute name => "duplicate attribute \"" ++ name ++ "\" is not allowed"
  | .blockOutsideMixin => "anonymous blocks are not allowed unless they are part of a mixin"
  | .bufferedCodeBlock => "buffered code cannot have a block attached to it"
  | .malformedVerbatim found =>
      "unexpected token " ++ quoted found ++ " inside a verbatim text block"

end Fault

/-- A fault at a location. -/
structure ParseError where
  fault : Fault
  loc : Location
  deriving DecidableEq

namespace ParseError

/-- A location at the head of a message, short if the file has a name. -/
def place : Location → String
  | ⟨pos, some filename⟩ =>
      filename ++ ":" ++ pos.line.toNat.repr ++ ":" ++ pos.column.toNat.repr
  | ⟨pos, none⟩ => "line " ++ pos.line.toNat.repr ++ ", column " ++ pos.column.toNat.repr

/-- The message of an error with its location. -/
def message (e : ParseError) : String := place e.loc ++ ": " ++ e.fault.message

end ParseError

/-- **The last of several terminals follows `or`, the others a comma.** -/
example : (Fault.unexpected .outdent [.when, .default, .newline]).message =
    "unexpected token `outdent`, expected `when`, `default` or `newline`" := by decide

example : (Fault.unexpected .text [.path]).message =
    "unexpected token `text`, expected `path`" := by decide

end Pug
