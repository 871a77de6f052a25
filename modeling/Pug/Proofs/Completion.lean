/-
# Templates that lack tokens

No tokens that are accepted lead into a dead end: whenever the only complaint about a template
is that it ends, there is a way to go on.
-/

import Pug.Proofs.Complaint.Document

namespace Pug

/-- **What fails only for lack of tokens can be completed.** If a reading fails at the end of the
input, then it is done once some tokens are added there. -/
theorem exists_completion_of_failed {o : Options} {ts : List Token} {e : ParseError}
    (hfree : EosFree ts) (h : (parse o ts).outcome = .failed e)
    (hend : e.fault.found? = some .eos) :
    ∃ more, EosFree more ∧ ∃ tree rest, (parse o (ts ++ more)).outcome = .done tree rest := by
  obtain ⟨more, d, htokens, hg, hl⟩ := (settled_of_failed h).2 hend hfree
  rw [List.append_nil] at htokens
  have hall : EosFree (ts ++ more) := htokens ▸ d.eosFree
  have hbefore : d.tokens = beforeEos (ts ++ more) := by rw [beforeEos_of_eosFree hall, htokens]
  have hreads : d.Reads (ts ++ more) := ⟨hbefore, hg, hl⟩
  obtain ⟨rest, hrun⟩ := parse_of_derivation o hreads
  exact ⟨more, ((eosFree_append ts more).1 hall).2, _, rest, congrArg Run.outcome hrun⟩

/-- The line `p(a=1`, which lacks the end of its group. -/
theorem exists_completion_of_group :
    ∃ more, EosFree more ∧ ∃ tree rest, (parse .default ([⟨.tag "p", ⟨1, 1⟩⟩,
      ⟨.startAttributes, ⟨1, 2⟩⟩, ⟨.attribute "a" "1" true, ⟨1, 3⟩⟩] ++ more)).outcome =
        .done tree rest :=
  exists_completion_of_failed (o := .default)
    (e := ⟨.unexpected .eos [.endAttributes], ⟨⟨1, 3⟩, none⟩⟩) (by simp) (by rfl) (by rfl)

end Pug
