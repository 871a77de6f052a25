/-
# Options as JSON

Every member of the options has a default. Options are also made step by step,
each step setting one of them.
-/

import Pug.Json.Basic
import Pug.Options

namespace Pug
namespace Options

/-- Options as JSON. -/
def toJson (o : Options) : Json :=
  .object [("filename", .ofString? o.filename), ("extension", .string o.extension),
    ("legacy_extensions", .ofList .string o.legacyExtensions)]

/-- Reads options. -/
def ofJson? : Json → Option Options
  | .object members => do
    let j := Json.object members
    let filename ← j.optional Json.string? "filename"
    let extension ← j.defaulted Json.string? "extension" default.extension
    let legacyExtensions ←
      j.defaulted (Json.list? Json.string?) "legacy_extensions" default.legacyExtensions
    return ⟨filename, extension, legacyExtensions⟩
  | _ => none

/-- Reads a setting, which is an object of one member. -/
def Setting.ofJson? : Json → Option Setting
  | .object [("filename", value)] => value.string?.map .filename
  | .object [("extension", value)] => value.string?.map .extension
  | .object [("legacy_extensions", value)] => (Json.list? Json.string? value).map .legacyExtensions
  | _ => none

end Options
end Pug
