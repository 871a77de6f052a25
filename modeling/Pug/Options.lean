/-
# Options of a reading

Options name the file that a template comes from, and say by the end of an
included path what is included: a template, a template under an extension of
old, or a file that is put in as it is.

| path ends in | target |
| --- | --- |
| the extension | `template` |
| one of the legacy extensions, but not the extension | `legacyTemplate` |
| none of them | `raw` |

The empty extension is the end of no path.
-/

import Pug.Text.Blank

namespace Pug

/-- What a reading is told besides the tokens. -/
structure Options where
  filename : Option String
  extension : String
  legacyExtensions : List String
  deriving DecidableEq

/-- What an included path leads to. -/
inductive Target where
  | template
  | legacyTemplate
  | raw
  deriving DecidableEq

namespace Options

/-- The options of a reading that is told nothing. -/
def default : Options := ⟨none, ".pug", [".jade"]⟩

/-- A choice for one of the options. -/
inductive Setting where
  | filename (filename : String)
  | extension (extension : String)
  | legacyExtensions (extensions : List String)
  deriving DecidableEq

/-- The options with one of them set. -/
def set (o : Options) : Setting → Options
  | .filename filename => { o with filename := some filename }
  | .extension extension => { o with extension }
  | .legacyExtensions legacyExtensions => { o with legacyExtensions }

/-- Whether a path ends in an extension. -/
def hasExtension (path extension : String) : Bool :=
  extension ≠ "" && Text.endsIn path extension

/-- What a path leads to. -/
def target (o : Options) (path : String) : Target :=
  if hasExtension path o.extension then .template
  else if o.legacyExtensions.any (hasExtension path) then .legacyTemplate
  else .raw

end Options
end Pug
