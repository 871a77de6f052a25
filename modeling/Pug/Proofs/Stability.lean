/-
# Errors in front of more tokens

An error stays if tokens are added at the end of the input, unless the end of the input
explains it. This is so if the complaint is about the end itself, and it may be so if it is
about a line break at the end: an alternate of a conditional can follow there. No other
production has to see more than the token that it complains about.
-/

import Pug.Proofs.Extension.Production

namespace Pug

/-- **An error is stable under extension of the input.** If a reading fails with an error that
is not about the end of the input, and not about a line break where the input ends in one,
then every reading of more tokens fails with the same error at the same place, and the
same warnings are raised before. -/
theorem parse_append_of_failed {o : Options} {ts : List Token} {e : ParseError}
    (h : (parse o ts).outcome = .failed e) (hend : e.fault.found? ≠ some .eos)
    (hnewline : endsInNewline ts = false ∨ e.fault.found? ≠ some .newline)
    (more : List Token) :
    (parse o (ts ++ more)).outcome = .failed e ∧
      (parse o (ts ++ more)).warnings = (parse o ts).warnings := by
  have hbudget : budget ts ≤ budget (ts ++ more) := by
    unfold budget
    rw [List.length_append]
    omega
  have hrepeats := (Grammar.steady_document o more hbudget ts).firm (Cursor.ofList ts).finish
    (Cursor.ofList (ts ++ more)).finish
  have hstarved : ¬ Frame.Explains ⟨more, false⟩ ts e := by
    rintro (heos | ⟨hfound, hlast, -⟩ | ⟨-, hmixin⟩)
    · exact hend heos
    · rcases hnewline with hnone | hne
      · rw [hnone] at hlast
        cases hlast
      · exact hne hfound
    · cases hmixin
  change Reader.Repeats _ _ _ _ (parse o ts) (parse o (ts ++ more)) at hrepeats
  generalize parse o ts = run at h hrepeats
  generalize parse o (ts ++ more) = run' at hrepeats
  cases hrepeats with
  | dry hdry =>
    cases hdry with
    | done _ _ => cases h
    | failed hs =>
      cases h
      exact absurd hs hstarved
    | exhausted => cases h
  | done _ => cases h
  | failed => exact ⟨h, rfl⟩

/-- An outdent past a line break behind `if x` has no place, whatever comes behind it. -/
theorem parse_append_outdent :
    (parse .default ([⟨.if "x", ⟨1, 1⟩⟩, ⟨.newline, ⟨2, 1⟩⟩, ⟨.outdent, ⟨2, 1⟩⟩] ++
        [⟨.else, ⟨3, 1⟩⟩])).outcome =
      .failed ⟨.unexpected .outdent [], ⟨⟨2, 1⟩, none⟩⟩ :=
  (parse_append_of_failed (o := .default)
    (e := ⟨.unexpected .outdent [], ⟨⟨2, 1⟩, none⟩⟩) (by rfl) (by decide)
    (.inl (by decide)) [⟨.else, ⟨3, 1⟩⟩]).1

end Pug
