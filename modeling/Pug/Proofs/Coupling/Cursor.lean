/-
# What is ahead of a cursor

A cursor is seen as the tokens ahead of it up to the end of the stream (`Cursor.ahead`), and the
end-of-stream token there (`Cursor.stop`). What comes behind that is never read, and whether a token
has been put back is of no account.
-/

import Pug.Proofs.Reading.Document

namespace Pug

theorem eosFree_beforeEos (ts : List Token) : EosFree (beforeEos ts) := by
  intro t ht
  have hall := List.all_eq_true.1 (List.all_takeWhile (l := ts)) t ht
  simpa using hall

theorem fromEos_append {us : List Token} (hus : EosFree us) (rest : List Token) :
    fromEos (us ++ rest) = fromEos rest :=
  List.dropWhile_append_of_pos (by simpa [EosFree] using hus)

theorem beforeEos_append_of_eosFree {us : List Token} (hus : EosFree us) (rest : List Token) :
    beforeEos (us ++ rest) = us ++ beforeEos rest :=
  List.takeWhile_append_of_pos (by simpa [EosFree] using hus)

/-- Tokens with an end-of-stream token among them have a first one. -/
theorem exists_first_eos {ts : List Token} (h : ¬ EosFree ts) :
    ∃ us t rest, ts = us ++ t :: rest ∧ EosFree us ∧ t.lexeme = .eos := by
  have hsplit := beforeEos_append_fromEos ts
  cases hfrom : fromEos ts with
  | nil =>
    rw [hfrom, List.append_nil] at hsplit
    exact absurd (hsplit ▸ eosFree_beforeEos ts) h
  | cons t rest =>
    have hnot := List.head?_dropWhile_not (fun t : Token => decide (t.lexeme ≠ .eos)) ts
    rw [show ts.dropWhile _ = t :: rest from hfrom] at hnot
    rw [hfrom] at hsplit
    exact ⟨beforeEos ts, t, rest, hsplit.symm, eosFree_beforeEos ts, by simpa using hnot⟩

namespace Cursor

/-- The tokens ahead of a cursor up to the end of the stream. -/
def ahead (c : Cursor) : List Token := beforeEos c.toList

/-- The end-of-stream token behind them. -/
def stop (c : Cursor) : Token := (fromEos c.toList).headD c.eos

/-- The cursor with the current token gone past and put back. -/
def putBack (c : Cursor) : Cursor := c.advance.defer c.peek

@[simp] theorem eos_advance (c : Cursor) : c.advance.eos = c.eos :=
  congrArg (Token.mk .eos) (finish_advance c)

@[simp] theorem eos_skipNewlines (c : Cursor) : c.skipNewlines.eos = c.eos :=
  congrArg (Token.mk .eos) (finish_skipNewlines c)

theorem peek_eq_headD (c : Cursor) : c.peek = c.toList.headD c.eos := by
  rw [peek, lookahead_eq, List.getD_eq_getElem?_getD, ← List.head?_eq_getElem?,
    List.headD_eq_head?_getD]

theorem stop_lexeme (c : Cursor) : c.stop.lexeme = .eos := by
  unfold stop fromEos
  cases h : c.toList.dropWhile (·.lexeme ≠ .eos) with
  | nil => rfl
  | cons t ts =>
    have hnot := List.head?_dropWhile_not (fun t : Token => decide (t.lexeme ≠ .eos)) c.toList
    rw [h] at hnot
    simpa using hnot

/-- **The current token is the first one ahead,** or the end of the stream. -/
theorem peek_eq (c : Cursor) : c.peek = c.ahead.headD c.stop := by
  rw [peek_eq_headD]
  unfold ahead stop beforeEos fromEos
  cases c.toList with
  | nil => rfl
  | cons t ts => by_cases h : t.lexeme = .eos <;> simp [h]

theorem peek_of_ahead_nil {c : Cursor} (h : c.ahead = []) : c.peek = c.stop := by
  rw [peek_eq, h]
  rfl

theorem peek_of_ahead {c : Cursor} {t : Token} {us : List Token} (h : c.ahead = t :: us) :
    c.peek = t := by
  rw [peek_eq, h]
  rfl

/-- The first token ahead is the first one of the input, and it is not the end of the stream. -/
theorem toList_of_ahead {c : Cursor} {t : Token} {us : List Token} (h : c.ahead = t :: us) :
    ∃ vs, c.toList = t :: vs ∧ t.lexeme ≠ .eos ∧ beforeEos vs = us := by
  unfold ahead beforeEos at h
  cases hlist : c.toList with
  | nil =>
    rw [hlist] at h
    cases h
  | cons t' vs =>
    by_cases ht : t'.lexeme = .eos
    · simp [hlist, ht] at h
    · rw [hlist, List.takeWhile_cons_of_pos (by simpa using ht), List.cons.injEq] at h
      rcases h with ⟨rfl, rfl⟩
      exact ⟨vs, rfl, ht, rfl⟩

/-- A current token that is not the end of the stream is ahead. -/
theorem exists_ahead {c : Cursor} (h : c.peek.lexeme ≠ .eos) : ∃ us, c.ahead = c.peek :: us := by
  cases hahead : c.ahead with
  | nil =>
    rw [peek_of_ahead_nil hahead] at h
    exact absurd c.stop_lexeme h
  | cons t us => exact ⟨us, by rw [peek_of_ahead hahead]⟩

/-- **Going past the current token takes it from those ahead.** -/
theorem ahead_advance {c : Cursor} {t : Token} {us : List Token} (h : c.ahead = t :: us) :
    c.advance.ahead = us := by
  obtain ⟨vs, hlist, -, rfl⟩ := toList_of_ahead h
  rw [ahead, toList_advance, hlist]
  rfl

theorem stop_advance {c : Cursor} {t : Token} {us : List Token} (h : c.ahead = t :: us) :
    c.advance.stop = c.stop := by
  obtain ⟨vs, hlist, hne, -⟩ := toList_of_ahead h
  rw [stop, toList_advance, eos_advance, stop, hlist]
  simp [fromEos, hne]

theorem toList_putBack (c : Cursor) : c.putBack.toList = c.toList.headD c.eos :: c.toList.tail := by
  rw [putBack, toList_defer, toList_advance, peek_eq_headD]

@[simp] theorem ahead_putBack (c : Cursor) : c.putBack.ahead = c.ahead := by
  unfold ahead
  rw [toList_putBack]
  cases c.toList with
  | nil => rfl
  | cons t ts => rfl

@[simp] theorem stop_putBack (c : Cursor) : c.putBack.stop = c.stop := by
  unfold stop
  rw [toList_putBack]
  cases c.toList with
  | nil => rfl
  | cons t ts =>
    have hfinish : c.putBack.eos = c.eos := eos_advance c
    rw [hfinish]
    rfl

theorem beforeEos_dropWhile (ts : List Token) :
    beforeEos (ts.dropWhile Token.isNewline) = (beforeEos ts).dropWhile Token.isNewline := by
  induction ts with
  | nil => rfl
  | cons t ts ih =>
    by_cases ht : t.isNewline = true
    · have hne : t.lexeme ≠ .eos := by
        intro heos
        simp [Token.isNewline, Token.terminal, heos, Lexeme.terminal] at ht
      have hcons : beforeEos (t :: ts) = t :: beforeEos ts :=
        List.takeWhile_cons_of_pos (by simpa using hne)
      rw [hcons, List.dropWhile_cons_of_pos ht, List.dropWhile_cons_of_pos ht, ih]
    · rw [List.dropWhile_cons_of_neg ht]
      by_cases heos : t.lexeme = .eos
      · simp [beforeEos, heos]
      · have hcons : beforeEos (t :: ts) = t :: beforeEos ts :=
          List.takeWhile_cons_of_pos (by simpa using heos)
        rw [hcons, List.dropWhile_cons_of_neg ht]

theorem fromEos_dropWhile (ts : List Token) :
    fromEos (ts.dropWhile Token.isNewline) = fromEos ts := by
  induction ts with
  | nil => rfl
  | cons t ts ih =>
    by_cases ht : t.isNewline = true
    · have hne : t.lexeme ≠ .eos := by
        intro heos
        simp [Token.isNewline, Token.terminal, heos, Lexeme.terminal] at ht
      rw [List.dropWhile_cons_of_pos ht, ih]
      simp [fromEos, hne]
    · rw [List.dropWhile_cons_of_neg ht]

@[simp] theorem ahead_skipNewlines (c : Cursor) :
    c.skipNewlines.ahead = c.ahead.dropWhile Token.isNewline := by
  unfold ahead
  rw [toList_skipNewlines, beforeEos_dropWhile]

@[simp] theorem stop_skipNewlines (c : Cursor) : c.skipNewlines.stop = c.stop := by
  unfold stop
  rw [toList_skipNewlines, fromEos_dropWhile, eos_skipNewlines]

section OfList

variable {us us' : List Token} {t : Token}

theorem ahead_ofList_append (hus : EosFree us) (rest : List Token) :
    (ofList (us ++ rest)).ahead = us ++ beforeEos rest := beforeEos_append_of_eosFree hus rest

theorem stop_ofList_append (hus : EosFree us) (rest : List Token) :
    (ofList (us ++ rest)).stop = (fromEos rest).headD (ofList (us ++ rest)).eos := by
  rw [stop, toList_ofList, fromEos_append hus]

/-- Nothing from the first end-of-stream token on is ahead. -/
theorem ahead_ofList_eos (hus : EosFree us) (ht : t.lexeme = .eos) (rest : List Token) :
    (ofList (us ++ t :: rest)).ahead = us := by
  have hnext : (Lookahead.of (t :: rest)).next = .eos := congrArg Lexeme.terminal ht
  exact beforeEos_append hus hnext

theorem stop_ofList_eos (hus : EosFree us) (ht : t.lexeme = .eos) (rest : List Token) :
    (ofList (us ++ t :: rest)).stop = t := by
  rw [stop_ofList_append hus]
  simp [fromEos, ht]

/-- The place of the end of an input is known from its last token. -/
theorem eos_ofList_append (h : us.getLast? = us'.getLast?) (rest : List Token) :
    (ofList (us ++ rest)).eos = (ofList (us' ++ rest)).eos := by
  have hlast : (us ++ rest).getLast? = (us' ++ rest).getLast? := by
    rw [List.getLast?_append, List.getLast?_append, h]
  exact congrArg (fun last => Token.mk .eos ((last.map Token.pos).getD .first)) hlast

end OfList

end Cursor
end Pug
