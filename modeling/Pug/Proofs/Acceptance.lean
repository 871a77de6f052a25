/-
# Which templates are accepted

The grammar of `Pug.Proofs.Derivation.Basic` is the language that is read: a list of
tokens is accepted exactly when the tokens before its first end-of-stream token have
a derivation that is greedy at the end of the input and lawful outside of every mixin.
Neither direction is about particular options, so these have no say in it.
-/

import Pug.Proofs.Reading.Document

namespace Pug

/-- **A list of tokens is accepted exactly when it is derived.** A reading is done, with
some tree, if and only if the tokens before the first end-of-stream token are those of a
greedy and lawful derivation. -/
theorem parse_done_iff_derivation (o : Options) (ts : List Token) :
    (∃ tree rest, (parse o ts).outcome = .done tree rest) ↔
      ∃ d : Derivation .items, d.Reads ts := by
  constructor
  · rintro ⟨tree, rest, h⟩
    exact exists_derivation_of_parse h
  · rintro ⟨d, hd⟩
    obtain ⟨rest, h⟩ := parse_of_derivation o hd
    exact ⟨_, rest, congrArg Run.outcome h⟩

end Pug
