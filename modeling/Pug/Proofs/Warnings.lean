/-
# Which warnings are raised

A reading ends at one token of its input: at the end of the input if it is done, and at the token
that its error is about if it fails. Its warnings are those that the tokens before this one give
rise to, each token by itself: nothing is warned of twice, and nothing is lost with what a reading
throws away or with what it read before it failed.
-/

import Pug.Proofs.Survey.Document

namespace Pug

/-- A reading with this outcome ends at the token `n` of its input: no token before is the end of
the input, and the token `n` is the end of the input, or the error is at this token and what it
says of it is so. -/
def EndsAt (o : Options) (ts : List Token) (n : Nat) (outcome : Outcome Block) : Prop :=
  n ≤ ts.length ∧ EosFree (ts.take n) ∧
    match outcome with
    | .done _ _ => ((Cursor.ofList ts).lookahead n).terminal = .eos
    | .failed e => e.loc = ⟨((Cursor.ofList ts).lookahead n).pos, o.filename⟩ ∧
        e.fault.Fits (ts.take n).getLast? ((Cursor.ofList ts).lookahead n)
    | .exhausted => False

/-- The token behind the first tokens of an input is the first one of the others. -/
theorem lookahead_length (us rest : List Token) :
    (Cursor.ofList (us ++ rest)).lookahead us.length =
      (Cursor.before (Cursor.ofList (us ++ rest)).finish rest).peek := by
  rw [Cursor.peek, Cursor.lookahead_eq, Cursor.lookahead_eq]
  cases rest <;> simp [Cursor.before, Cursor.toList, Cursor.ofList, Cursor.eos]

/-- **The warnings of a reading are exactly those of the tokens before its end,** in order. The
token `i` gives rise to

* `legacyMixinCall` at its place, if it is that of a mixin and no indent comes behind it;
* `multipleAttributeGroups` at its place, if it begins a group of attributes and the head in which
  it stands has a group before it;
* `legacyTemplateExtension` at the place of the include, if it is the path of one and ends, without
  the blanks around it, in a legacy extension but not in the extension.

All of them are in the file that is read. -/
theorem exists_warnings_eq (o : Options) (ts : List Token) :
    ∃ n, EndsAt o ts n (parse o ts).outcome ∧
      (parse o ts).warnings = (List.range n).flatMap (noticeAt o ts) ∧
      ∀ w ∈ (parse o ts).warnings, w.loc.filename = o.filename := by
  have hsurveyed := surveyed_parse o ts
  generalize parse o ts = run at hsurveyed ⊢
  have hwarnings : ∀ {us rest : List Token} {events : List Event} {outcome : Outcome Block},
      ts = us ++ rest → Reports o .open us (Lookahead.of rest).next events →
      (⟨outcome, events⟩ : Run Block).warnings = (List.range us.length).flatMap (noticeAt o ts) ∧
        ∀ w ∈ (⟨outcome, events⟩ : Run Block).warnings, w.loc.filename = o.filename := by
    rintro us rest events outcome rfl hreports
    have hlen : us.length ≤ (us ++ rest).length := by simp
    have heq : (⟨outcome, events⟩ : Run Block).warnings =
        (List.range us.length).flatMap (noticeAt o (us ++ rest)) := by
      rw [Run.warnings, hreports.warnings, ← notices_take o (us ++ rest) hlen, List.take_left,
        lookahead_length, Cursor.terminal_peek_before]
    refine ⟨heq, fun w hw => ?_⟩
    rw [heq] at hw
    obtain ⟨i, -, hi⟩ := List.mem_flatMap.1 hw
    exact filename_of_mem_notice hi
  cases hsurveyed with
  | @done tree us rest events hts hus hreports hq =>
    refine ⟨us.length, ?_, hwarnings hts hreports⟩
    subst hts
    refine ⟨by simp, by rwa [List.take_left], ?_⟩
    rw [lookahead_length, Cursor.terminal_peek_before]
    exact hq.2
  | @failed e us rest events hts hus hreports hcomplains =>
    refine ⟨us.length, ?_, hwarnings hts hreports⟩
    subst hts
    refine ⟨by simp, by rwa [List.take_left], ?_, ?_⟩
    · rw [lookahead_length]
      exact hcomplains.loc_eq
    · rw [List.take_left, lookahead_length]
      exact hcomplains.fits

/-- **Only the second group of a head is warned of,** also if the reading fails behind it. -/
example : (parse .default [⟨.tag "p", ⟨1, 1⟩⟩, ⟨.startAttributes, ⟨1, 2⟩⟩, ⟨.endAttributes, ⟨1, 3⟩⟩,
    ⟨.startAttributes, ⟨1, 4⟩⟩, ⟨.endAttributes, ⟨1, 5⟩⟩, ⟨.path "x", ⟨1, 6⟩⟩]).warnings =
    [⟨.multipleAttributeGroups, ⟨⟨1, 4⟩, none⟩⟩] := by rfl

end Pug
