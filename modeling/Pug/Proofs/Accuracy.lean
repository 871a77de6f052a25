/-
# Where errors are

An error tells what is wrong with one token, and it is at this token. What it says of the
token is so, and there are few things that it can say: complaints that a terminal is missing
name one of the lists in `expectations`.
-/

import Pug.Proofs.Complaint.Document

namespace Pug

/-- **Every error is accurate.** A reading that fails has come to a token without going past the
end of the input. The error is at the position of this token, in the file that is read, and
what it says of the token is so. -/
theorem exists_token_of_failed {o : Options} {ts : List Token} {e : ParseError}
    (h : (parse o ts).outcome = .failed e) :
    ∃ i, i ≤ ts.length ∧ EosFree (ts.take i) ∧
      e.loc = ⟨((Cursor.ofList ts).lookahead i).pos, o.filename⟩ ∧
      e.fault.Fits (ts.take i).getLast? ((Cursor.ofList ts).lookahead i) := by
  obtain ⟨us, rest, rfl, hus, hloc, hfits⟩ := (settled_of_failed h).1
  have htoken : (Cursor.ofList (us ++ rest)).lookahead us.length =
      (Cursor.before (Cursor.ofList (us ++ rest)).finish rest).peek := by
    rw [Cursor.peek, Cursor.lookahead_eq, Cursor.lookahead_eq]
    cases rest <;> simp [Cursor.before, Cursor.toList, Cursor.ofList, Cursor.eos]
  refine ⟨us.length, by simp, ?_, ?_, ?_⟩
  · rwa [List.take_left]
  · rwa [htoken]
  · rwa [List.take_left, htoken]

/-- A block under code whose value is put out is refused at the indent behind the code. -/
theorem exists_token_of_bufferedCode :
    ∃ i, i ≤ 2 ∧ EosFree ([⟨.code ⟨"x", true, true⟩, ⟨1, 1⟩⟩, ⟨.indent, ⟨2, 1⟩⟩].take i) ∧
      (⟨⟨2, 1⟩, none⟩ : Location) = ⟨((Cursor.ofList [⟨.code ⟨"x", true, true⟩, ⟨1, 1⟩⟩,
        ⟨.indent, ⟨2, 1⟩⟩]).lookahead i).pos, none⟩ ∧
      Fault.bufferedCodeBlock.Fits
        ([⟨.code ⟨"x", true, true⟩, ⟨1, 1⟩⟩, ⟨.indent, ⟨2, 1⟩⟩].take i).getLast?
        ((Cursor.ofList [⟨.code ⟨"x", true, true⟩, ⟨1, 1⟩⟩, ⟨.indent, ⟨2, 1⟩⟩]).lookahead i) :=
  @exists_token_of_failed .default [⟨.code ⟨"x", true, true⟩, ⟨1, 1⟩⟩, ⟨.indent, ⟨2, 1⟩⟩]
    ⟨.bufferedCodeBlock, ⟨⟨2, 1⟩, none⟩⟩ (by rfl)

end Pug
