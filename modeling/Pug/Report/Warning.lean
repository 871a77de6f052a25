/-
# Warnings

Warnings tell of constructs that are out of date or doubtful. They never end a
reading.
-/

import Pug.Position

namespace Pug

/-- What a warning is about. -/
inductive Advice where
  /-- A mixin without a body, which is the old way to call one. -/
  | legacyMixinCall (name : String)
  /-- A second group of attributes of one element. -/
  | multipleAttributeGroups
  /-- An included path with an extension that is no longer in use. -/
  | legacyTemplateExtension (path preferred : String)
  deriving DecidableEq

namespace Advice

/-- The text of an advice. -/
def message : Advice → String
  | .legacyMixinCall name =>
      "deprecated method of calling mixin `" ++ name ++ "`, use `+" ++ name ++ "` instead"
  | .multipleAttributeGroups => "you should not have tags with multiple attribute groups"
  | .legacyTemplateExtension path preferred =>
      "the extension of \"" ++ path ++ "\" is deprecated, use " ++ preferred ++ " instead"

end Advice

/-- An advice at a location. -/
structure Warning where
  advice : Advice
  loc : Location
  deriving DecidableEq

namespace Warning

/-- The text of a warning, with the line and the name of the file if it has one. -/
def message (w : Warning) : String :=
  let line := "line " ++ w.loc.line.toNat.repr ++ ": " ++ w.advice.message
  match w.loc.filename with
  | some filename => filename ++ ", " ++ line
  | none => line

end Warning
end Pug
