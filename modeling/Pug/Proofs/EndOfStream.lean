/-
# The end of the stream

What comes behind the first end-of-stream token is never read, and the input goes on behind its
last token as if such a token stood there. So a list of tokens is read as its tokens before the
first end-of-stream token and that one token behind them.
-/

import Pug.Proofs.Coupling.Template

namespace Pug

/-- The end-of-stream token of an input: the first one in it, or else one at the place of the
last token. An input without tokens ends at the first position. -/
def endOfStream (ts : List Token) : Token :=
  (fromEos ts).headD ⟨.eos, (ts.getLast?.map Token.pos).getD .first⟩

/-- The tokens of an input before the end of the stream, and the token that ends it. -/
def uptoEos (ts : List Token) : List Token := beforeEos ts ++ [endOfStream ts]

theorem lexeme_endOfStream (ts : List Token) : (endOfStream ts).lexeme = .eos :=
  (Cursor.ofList ts).stop_lexeme

/-- What comes behind the first end-of-stream token is dropped. -/
theorem uptoEos_append {us : List Token} (hus : EosFree us) (pos : Position)
    (rest : List Token) : uptoEos (us ++ ⟨.eos, pos⟩ :: rest) = us ++ [⟨.eos, pos⟩] := by
  rw [uptoEos, beforeEos_append hus rfl, endOfStream, fromEos_append hus]
  rfl

/-- An input without such a token ends at the place of its last token. -/
theorem uptoEos_of_eosFree {ts : List Token} (hts : EosFree ts) :
    uptoEos ts = ts ++ [⟨.eos, (ts.getLast?.map Token.pos).getD .first⟩] := by
  have hnone : fromEos (ts ++ []) = [] := fromEos_append hts []
  rw [List.append_nil] at hnone
  rw [uptoEos, beforeEos_of_eosFree hts, endOfStream, hnone]
  rfl

/-- The tokens ahead are the same before both inputs, and so is the end of the stream. -/
theorem meets_uptoEos (ts : List Token) :
    (Coupling.relocated .stay).Meets 0 (.ofList ts) (.ofList (uptoEos ts)) := by
  have hfree := eosFree_beforeEos ts
  have heos := lexeme_endOfStream ts
  refine ⟨?_, Cursor.stop_ofList_eos hfree heos []⟩
  change (Cursor.ofList (uptoEos ts)).ahead = Relocation.stay.move (beforeEos ts)
  rw [move_stay_tokens]
  exact Cursor.ahead_ofList_eos hfree heos []

/-- **Only the tokens up to the first end-of-stream token matter,** and an input without one is
read as if it had one at the place of its last token. -/
theorem parse_uptoEos (o : Options) (ts : List Token) :
    ∃ verdict, (parse o ts).verdict? = some verdict ∧
      (parse o (uptoEos ts)).verdict? = some verdict ∧
      (parse o (uptoEos ts)).warnings = (parse o ts).warnings := by
  have hsound := Coupling.sound_relocated .stay o
  obtain ⟨verdict, hts, hupto, hwarnings⟩ := hsound.exists_same_verdict rfl (meets_uptoEos ts)
  exact ⟨verdict, hts, hupto, hwarnings trivial⟩

end Pug
