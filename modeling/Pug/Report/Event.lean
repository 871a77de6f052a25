/-
# Events of a reading

A reading leaves a trail of events in the order in which they happen. Two views
are taken of it: the warnings, for those who collect them, and the records of a
log with a level, a message and named values.

| event | level | named values |
| --- | --- | --- |
| `started` | trace | the name of the file |
| `shorthand` | trace | the line |
| `discarded` | debug | the path, the number of nodes thrown away |
| `unfiltered` | debug | the path, the number of filters without effect |
| `warned` | warn | the name of the file, the line |

Tokens put back are events too, but no record is made of them.
-/

import Pug.Report.Warning

namespace Pug

/-- Something that happens while a template is read. -/
inductive Event where
  /-- The reading begins. -/
  | started (filename : Option String)
  /-- A shorthand begins an element without a name, which makes it a `div`. -/
  | shorthand (line : UInt64)
  /-- The block under the include of a file that is no template is thrown away. -/
  | discarded (path : String) (nodes : Nat)
  /-- The filters of the include of a template have no effect. -/
  | unfiltered (path : String) (filters : Nat)
  /-- A warning is raised. -/
  | warned (warning : Warning)
  /-- A token is put back, with so many tokens put back after that. -/
  | deferred (count : Nat)
  deriving DecidableEq

/-- How much a record matters. -/
inductive Level where
  | trace
  | debug
  | warn
  deriving DecidableEq

namespace Level

/-- The name of a level. -/
def name : Level → String
  | .trace => "TRACE"
  | .debug => "DEBUG"
  | .warn => "WARN"

end Level

/-- An entry of a log. -/
structure Record where
  level : Level
  message : String
  values : List (String × String)
  deriving DecidableEq

namespace Event

/-- How a log names the file of a template. -/
def displayName (filename : Option String) : String := filename.getD "<anonymous>"

/-- The record of an event. -/
def record? : Event → Option Record
  | .started filename =>
      some ⟨.trace, "parsing template", [("filename", displayName filename)]⟩
  | .shorthand line =>
      some ⟨.trace, "desugaring shorthand into an implicit div", [("line", line.toNat.repr)]⟩
  | .discarded path nodes =>
      some ⟨.debug, "discarding block attached to a raw include",
        [("path", path), ("nodes", nodes.repr)]⟩
  | .unfiltered path filters =>
      some ⟨.debug, "ignoring filters on a template include",
        [("path", path), ("filters", filters.repr)]⟩
  | .warned w =>
      some ⟨.warn, w.advice.message,
        [("filename", displayName w.loc.filename), ("line", w.loc.line.toNat.repr)]⟩
  | .deferred _ => none

/-- The warning that an event is, if it is one. -/
def warning? : Event → Option Warning
  | .warned w => some w
  | _ => none

end Event
end Pug
