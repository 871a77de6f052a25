/-
# Collecting warnings

A collector keeps the warnings of one reading after the other, in the order in
which they are raised. Errors do not stop it.
-/

import Pug.Reader.Basic

namespace Pug

/-- The warnings collected so far. -/
structure Collector where
  warnings : List Warning
  deriving DecidableEq

namespace Collector

/-- The collector that has no warnings yet. -/
def empty : Collector := ⟨[]⟩

/-- The collector with the warnings of one more run. -/
def gather {α : Type} (c : Collector) (r : Run α) : Collector := ⟨c.warnings ++ r.warnings⟩

end Collector
end Pug
