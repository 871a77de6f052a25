/-
# That readings come to an end

Every reading is done or fails. A production that is read goes past a token, and what it leaves is
what is behind these tokens in the input, with nothing put back; the end of the input is never gone
past. So the depth of nesting and the rounds of a loop are bounded by the number of tokens.
-/

import Pug.Proofs.Survey.Document

namespace Pug

open Grammar

/-- A reading whose loops may take more rounds than there are tokens is not exhausted. -/
theorem document_ne_exhausted (o : Options) {ts : List Token} {depth : Nat}
    (hdepth : ts.length + 2 ≤ depth) :
    ((document (.ofDepth depth)).run o (Cursor.ofList ts)).outcome ≠ .exhausted := by
  obtain ⟨depth, rfl⟩ : ∃ more, depth = more + 1 := ⟨depth - 1, by omega⟩
  have hsurveys := surveys_document (surveys_ofDepth o (Cursor.ofList ts).finish depth)
    (Nat.lt_of_succ_le (Nat.le_of_succ_le_succ hdepth))
  change Reader.Surveyed _ _ _ _ _
    ((document (.ofDepth (depth + 1))).run o (Cursor.ofList ts)) at hsurveys
  generalize (document (.ofDepth (depth + 1))).run o (Cursor.ofList ts) = run at hsurveys ⊢
  cases hsurveys with
  | done hts hus hreports hq => exact nofun
  | failed hts hus hreports hcomplains => exact nofun

/-- **Every reading comes to an end, and a production makes progress.**

* No reading is exhausted.
* A production that is read from a cursor where nothing is put back goes past some tokens of the
  input, of which none is the end of the input. Nothing is put back behind it.
* Never is more than one token put back.
* A bound on the depth of nesting suffices that depends on the number of tokens only. -/
theorem readings_end_with_progress :
    (∀ o ts, (parse o ts).outcome ≠ .exhausted) ∧
    (∀ depth scope o c node rest, c.deferred = [] →
      ((Grammar.expr (.ofDepth depth) scope).run o c).outcome = .done node rest →
        rest.deferred = [] ∧ rest.finish = c.finish ∧
        ∃ us, us ≠ [] ∧ EosFree us ∧ c.upcoming = us ++ rest.upcoming) ∧
    (∀ o ts count, .deferred count ∈ (parse o ts).events → count ≤ 1) ∧
    ∃ fuel : Nat → Nat, ∀ o ts depth, fuel ts.length ≤ depth →
      ((document (.ofDepth depth)).run o (Cursor.ofList ts)).outcome ≠ .exhausted := by
  refine ⟨fun o ts => document_ne_exhausted o (Nat.le_refl _), ?_, ?_,
    fun n => n + 2, fun o ts depth => document_ne_exhausted o⟩
  · intro depth scope o c node rest hdeferred hrun
    rcases c with ⟨deferred, ts, finish⟩
    obtain rfl := hdeferred
    match h : (Grammar.expr (.ofDepth depth) scope).run o ⟨[], ts, finish⟩ with
    | ⟨outcome, events⟩ =>
      rw [h] at hrun
      obtain rfl : outcome = .done node rest := hrun
      obtain ⟨vs, rfl, d, hts, -, -⟩ :=
        ensures_expr (sound_ofDepth depth) o finish node rest events h
      have htokens : d.tokens ≠ [] := List.ne_nil_of_length_pos d.length_expr_pos
      exact ⟨rfl, rfl, d.tokens, htokens, d.eosFree, hts⟩
  · intro o ts count hmem
    have hsurveyed := surveyed_parse o ts
    generalize parse o ts = run at hmem hsurveyed
    cases hsurveyed with
    | done hts hus hreports hq => exact hreports.deferred count hmem
    | failed hts hus hreports hcomplains => exact hreports.deferred count hmem

/-- Of `.a` in front of a line break, for which a token is put back, the line break is left. -/
theorem progress_of_shorthand :
    ∃ node rest, ((Grammar.expr (.ofDepth 2) .outermost).run .default
        (Cursor.ofList [⟨.className "a", ⟨1, 1⟩⟩, ⟨.newline, ⟨2, 1⟩⟩, ⟨.eos, ⟨2, 1⟩⟩])).outcome =
          .done node rest ∧
      rest.deferred = [] ∧ ∃ us, us ≠ [] ∧ EosFree us ∧
        [⟨.className "a", ⟨1, 1⟩⟩, ⟨.newline, ⟨2, 1⟩⟩, ⟨.eos, ⟨2, 1⟩⟩] = us ++ rest.upcoming := by
  have hprogress := readings_end_with_progress.2.1 2 .outermost .default
    (Cursor.ofList [⟨.className "a", ⟨1, 1⟩⟩, ⟨.newline, ⟨2, 1⟩⟩, ⟨.eos, ⟨2, 1⟩⟩]) _ _ rfl (by rfl)
  exact ⟨_, _, by rfl, hprogress.1, hprogress.2.2⟩

end Pug
