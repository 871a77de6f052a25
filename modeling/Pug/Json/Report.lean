/-
# Errors and warnings as JSON

Errors and warnings are objects with the members of their location and a `kind`,
which is the name of a variant, or an object that has what belongs to the variant
under its name.
-/

import Pug.Json.Token
import Pug.Report.Fault
import Pug.Report.Warning

namespace Pug
namespace Json

/-- Reads nothing, which is what belongs to a variant without members. -/
def unit? : Json → Option Unit
  | .null => some ()
  | _ => none

end Json

namespace Fault

/-- A fault as JSON. -/
def toJson : Fault → Json
  | .unexpected found expected =>
      .object [("UnexpectedToken",
        .object [("found", found.toJson), ("expected", .ofList Terminal.toJson expected)])]
  | .duplicateId => .string "DuplicateIdentifier"
  | .duplicateAttribute name =>
      .object [("DuplicateAttribute", .object [("name", .string name)])]
  | .blockOutsideMixin => .string "BlockOutsideMixin"
  | .bufferedCodeBlock => .string "CodeBlockOnBufferedExpression"
  | .malformedVerbatim found =>
      .object [("MalformedVerbatimToken", .object [("found", found.toJson)])]

/-- Reads a fault. -/
def ofJson? (j : Json) : Option Fault := do
  match ← j.variant? with
  | ("UnexpectedToken", value) =>
    let found ← value.required Terminal.ofJson? "found"
    let expected ← value.required (Json.list? Terminal.ofJson?) "expected"
    return .unexpected found expected
  | ("DuplicateIdentifier", value) => value.unit?.map fun _ => .duplicateId
  | ("DuplicateAttribute", value) =>
    return .duplicateAttribute (← value.required Json.string? "name")
  | ("BlockOutsideMixin", value) => value.unit?.map fun _ => .blockOutsideMixin
  | ("CodeBlockOnBufferedExpression", value) => value.unit?.map fun _ => .bufferedCodeBlock
  | ("MalformedVerbatimToken", value) =>
    return .malformedVerbatim (← value.required Terminal.ofJson? "found")
  | _ => none

end Fault

namespace ParseError

/-- An error as JSON. -/
def toJson (e : ParseError) : Json := .object (e.loc.members ++ [("kind", e.fault.toJson)])

/-- Reads an error. -/
def ofJson? (j : Json) : Option ParseError := do
  let loc ← Location.ofJson? j
  let fault ← j.required Fault.ofJson? "kind"
  return ⟨fault, loc⟩

end ParseError

namespace Advice

/-- An advice as JSON. -/
def toJson : Advice → Json
  | .legacyMixinCall name => .object [("LegacyMixinCall", .object [("name", .string name)])]
  | .multipleAttributeGroups => .string "MultipleAttributeGroups"
  | .legacyTemplateExtension path preferred =>
      .object [("LegacyTemplateExtension",
        .object [("path", .string path), ("preferred", .string preferred)])]

/-- Reads an advice. -/
def ofJson? (j : Json) : Option Advice := do
  match ← j.variant? with
  | ("LegacyMixinCall", value) => return .legacyMixinCall (← value.required Json.string? "name")
  | ("MultipleAttributeGroups", value) => value.unit?.map fun _ => .multipleAttributeGroups
  | ("LegacyTemplateExtension", value) =>
    let path ← value.required Json.string? "path"
    let preferred ← value.required Json.string? "preferred"
    return .legacyTemplateExtension path preferred
  | _ => none

end Advice

namespace Warning

/-- A warning as JSON. -/
def toJson (w : Warning) : Json := .object (w.loc.members ++ [("kind", w.advice.toJson)])

/-- Reads a warning. -/
def ofJson? (j : Json) : Option Warning := do
  let loc ← Location.ofJson? j
  let advice ← j.required Advice.ofJson? "kind"
  return ⟨advice, loc⟩

end Warning
end Pug
