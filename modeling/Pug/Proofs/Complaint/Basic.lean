/-
# What a reader complains about

A reading that fails tells what is wrong and where. Two things are shown of every error, and
both go through the productions in one pass:

* the error is `Accurate`: it is about the token at its position, and what it says of this
  token is so (`Fault.Fits`);
* if the error is about the end of the input, then some tokens can be added with which the
  reader has a derivation (`Completable`). Where the reader stands behind something else,
  nothing that comes before it may go on with these tokens (`Completes`).

`Settles o finish m ts Q C` says this of `m` in front of `ts`: an error is accurate, and `C`
holds if the error is about the end of the input, while `Q` holds of the value and the tokens
that are left if there is no error.
-/

import Pug.Proofs.Derivation.Closing
import Pug.Proofs.Extension.Basic

namespace Pug

open Lookahead

/-- The lists of terminals that messages enumerate. -/
def expectations : List (List Terminal) :=
  [[], [.indent], [.endInterpolation], [.endAttributes], [.path], [.when, .default, .newline],
    [.text, .interpolatedCode, .code, .colon, .slash, .newline, .eos],
    [.text, .interpolatedCode, .code, .colon, .newline, .eos]]

/-- What a fault says of the token `t` is so, where `behind` comes right before it. -/
def Fault.Fits (behind : Option Token) (t : Token) : Fault → Prop
  | .unexpected found expected =>
      found = t.terminal ∧ expected ∈ expectations ∧ found ∉ expected
  | .malformedVerbatim found =>
      found = t.terminal ∧ found ∉ [.text, .newline, .endPipelessText]
  | .duplicateId =>
      (∃ value, t.lexeme = .idName value) ∨
        ∃ value escaped, t.lexeme = .attribute "id" value escaped
  | .duplicateAttribute name =>
      name ≠ "id" ∧ name ≠ "class" ∧ ∃ value escaped, t.lexeme = .attribute name value escaped
  | .blockOutsideMixin => t.lexeme = .mixinBlock
  | .bufferedCodeBlock =>
      t.lexeme = .indent ∧ ∃ before c, behind = some before ∧ before.lexeme = .code c ∧
        c.buffered = true

/-- Only a complaint about a block under code needs the token before. -/
theorem Fault.Fits.of_none {fault : Fault} {t : Token} (h : fault.Fits none t)
    (behind : Option Token) : fault.Fits behind t := by
  cases fault with
  | bufferedCodeBlock =>
    obtain ⟨-, before, c, hbehind, -⟩ := h
    cases hbehind
  | _ => exact h

/-- A token of another terminal is not the end of the input. -/
theorem lexeme_ne_eos {t : Token} {terminal : Terminal} (h : t.terminal = terminal)
    (hne : terminal ≠ .eos) : t.lexeme ≠ .eos := by
  rintro heos
  refine hne (h.symm.trans ?_)
  unfold Token.terminal
  rw [heos]
  rfl

/-- The tokens in front of `rest` are gone past, and the end of the input is not among them. -/
def Passes (ts rest : List Token) : Prop := ∃ us, ts = us ++ rest ∧ EosFree us

namespace Passes

variable {ts mid rest : List Token}

theorem refl : Passes ts ts := ⟨[], rfl, eosFree_nil⟩

theorem trans (h : Passes ts mid) (hmid : Passes mid rest) : Passes ts rest := by
  obtain ⟨us, rfl, hus⟩ := h
  obtain ⟨vs, rfl, hvs⟩ := hmid
  exact ⟨us ++ vs, (List.append_assoc us vs rest).symm, (eosFree_append us vs).2 ⟨hus, hvs⟩⟩

theorem cons {t : Token} (ht : t.lexeme ≠ .eos) : Passes (t :: rest) rest :=
  ⟨[t], rfl, by simpa using ht⟩

theorem eosFree (h : Passes ts rest) (hts : EosFree ts) : EosFree rest := by
  obtain ⟨us, rfl, -⟩ := h
  exact ((eosFree_append us rest).1 hts).2

end Passes

theorem passes_dropWhile (ts : List Token) : Passes ts (ts.dropWhile Token.isNewline) := by
  obtain ⟨newlines, hts, -⟩ := exists_newlineTokens ts
  exact ⟨newlineTokens newlines, hts, eosFree_newlineTokens newlines⟩

/-- An error of a reading of `ts` is about the token at its place, to which the reader has come
without going past the end of the input. -/
def Accurate (o : Options) (finish : Position) (ts : List Token) (e : ParseError) : Prop :=
  ∃ us rest, ts = us ++ rest ∧ EosFree us ∧
    e.loc = o.place (Cursor.before finish rest).peek.pos ∧
    e.fault.Fits us.getLast? (Cursor.before finish rest).peek

theorem Accurate.of_passes {o : Options} {finish : Position} {ts mid : List Token}
    {e : ParseError} (h : Accurate o finish mid e) (hmid : Passes ts mid) :
    Accurate o finish ts e := by
  obtain ⟨us, rest, rfl, hus, hloc, hfits⟩ := h
  obtain ⟨vs, rfl, hvs⟩ := hmid
  refine ⟨vs ++ us, rest, (List.append_assoc vs us rest).symm,
    (eosFree_append vs us).2 ⟨hvs, hus⟩, hloc, ?_⟩
  cases us with
  | nil => exact hfits.of_none _
  | cons u us =>
    obtain ⟨last, hlast⟩ : ∃ last, (u :: us).getLast? = some last :=
      ⟨_, List.getLast?_eq_some_getLast (List.cons_ne_nil u us)⟩
    rw [List.getLast?_append, hlast]
    rwa [hlast] at hfits

/-- From a place further ahead no more is seen of the tokens that are added. -/
theorem Lookahead.Prolongs.append {starts : List Terminal} {us more : List Token}
    (h : Prolongs starts (.of us) (.of (us ++ more))) (ts : List Token) :
    Prolongs starts (.of (ts ++ us)) (.of (ts ++ us ++ more)) := by
  rw [List.append_assoc, Lookahead.of_append, Lookahead.of_append ts]
  exact h.before ts

/-- Some tokens can be added to `ts` with which `P` holds. -/
def Completable (P : List Token → Prop) (ts : List Token) : Prop := ∃ more, P (ts ++ more)

/-- Some tokens can be added to `ts` with which `P` holds, and nothing before `ts` goes on with
them that did not go on before. -/
def Completes (P : List Token → Prop) (ts : List Token) : Prop :=
  ∃ more, Prolongs closers (.of ts) (.of (ts ++ more)) ∧ P (ts ++ more)

section Completes

variable {P P' : List Token → Prop} {s : Symbol} {scope : Grammar.Scope}
  {ts us mid rest tail : List Token} {t : Token} {l : Lexeme} {pos : Position}

theorem Completes.completable (h : Completes P ts) : Completable P ts := by
  obtain ⟨more, -, hP⟩ := h
  exact ⟨more, hP⟩

theorem Completes.mono (h : Completes P ts) (hP : ∀ more, P (ts ++ more) → P' (ts ++ more)) :
    Completes P' ts := by
  obtain ⟨more, hp, h⟩ := h
  exact ⟨more, hp, hP more h⟩

theorem Completable.mono (h : Completable P ts) (hP : ∀ more, P (ts ++ more) → P' (ts ++ more)) :
    Completable P' ts := by
  obtain ⟨more, h⟩ := h
  exact ⟨more, hP more h⟩

/-- Tokens come before what is completed. -/
theorem Completes.append (h : Completes P us) (hP : ∀ vs, P vs → P' (ts ++ vs)) :
    Completes P' (ts ++ us) := by
  obtain ⟨more, hp, h⟩ := h
  refine ⟨more, hp.append ts, ?_⟩
  rw [List.append_assoc]
  exact hP _ h

theorem Completes.cons (h : Completes P us) (hP : ∀ vs, P vs → P' (t :: vs)) :
    Completes P' (t :: us) := by
  have happend : Completes P' ([t] ++ us) := h.append hP
  exact happend

theorem Completable.cons (h : Completable P us) (hP : ∀ vs, P vs → P' (t :: vs)) :
    Completable P' (t :: us) := by
  obtain ⟨more, h⟩ := h
  exact ⟨more, hP _ h⟩

/-- From a place before a token that is no line break, what is added is not seen. -/
theorem Completes.of_token (hl : l.terminal ≠ .newline)
    (h : Completable P (⟨l, pos⟩ :: us)) : Completes P (⟨l, pos⟩ :: us) := by
  obtain ⟨more, h⟩ := h
  refine ⟨more, ?_, h⟩
  have hsame : Lookahead.of (⟨l, pos⟩ :: us ++ more) = Lookahead.of (⟨l, pos⟩ :: us) := by
    simp [Lookahead.of, Token.isNewline, Token.terminal, hl]
  rw [hsame]
  exact .rfl

/-- What is derived in front of the end of the input is derived in front of what closes it. -/
theorem Derives.prolong (h : Derives s scope ts []) (hp : Prolongs closers finish (.of tail)) :
    Derives s scope (ts ++ tail) tail := by
  obtain ⟨d, rfl, hg, hl⟩ := h
  rw [List.append_nil]
  exact ⟨d, rfl, d.greedy_of_prolongs hp hg, hl⟩

/-- What is derived in front of tokens is derived in front of more of them that it does not
go on with. -/
theorem Derives.extend {more : List Token} (h : Derives s scope ts mid)
    (hp : Prolongs closers (.of mid) (.of (mid ++ more))) :
    Derives s scope (ts ++ more) (mid ++ more) := by
  obtain ⟨d, rfl, hg, hl⟩ := h
  exact ⟨d, List.append_assoc _ _ _, d.greedy_of_prolongs hp hg, hl⟩

/-- **What is derived in front of tokens goes before their completion.** -/
theorem Derives.completes (h : Derives s scope ts mid) (hc : Completes P mid)
    (hP : ∀ us vs, Derives s scope us vs → P vs → P' us) : Completes P' ts := by
  obtain ⟨more, hp, hmore⟩ := hc
  refine ⟨more, ?_, hP _ _ (h.extend hp) hmore⟩
  obtain ⟨d, rfl, -, -⟩ := h
  exact hp.append d.tokens

end Completes

namespace Reader

variable {α β σ : Type}

/-- How a run in front of `ts` may end. -/
inductive Settled (o : Options) (finish : Position) (ts : List Token) (Q : α → List Token → Prop)
    (C : Prop) : Run α → Prop where
  | done {a : α} {rest : List Token} {events : List Event} (hpasses : Passes ts rest)
      (hq : Q a rest) : Settled o finish ts Q C ⟨.done a (.before finish rest), events⟩
  | failed {e : ParseError} {events : List Event} (haccurate : Accurate o finish ts e)
      (hend : e.fault.found? = some .eos → EosFree ts → C) :
      Settled o finish ts Q C ⟨.failed e, events⟩
  | exhausted {events : List Event} : Settled o finish ts Q C ⟨.exhausted, events⟩

/-- In front of `ts`, `m` is done, and `Q` holds, or it fails with an accurate error, and `C`
holds if the error is about the end of the input. -/
def Settles (o : Options) (finish : Position) (m : Reader α) (ts : List Token)
    (Q : α → List Token → Prop) (C : Prop) : Prop :=
  Settled o finish ts Q C (m.run o (.before finish ts))

variable {o : Options} {finish : Position} {ts us mid : List Token} {C C' : Prop}

theorem Settled.after {Q : α → List Token → Prop} {run : Run α} (h : Settled o finish ts Q C run)
    (events : List Event) : Settled o finish ts Q C (run.after events) := by
  cases h with
  | done hpasses hq => exact .done hpasses hq
  | failed haccurate hend => exact .failed haccurate hend
  | exhausted => exact .exhausted

theorem Settled.of_passes {Q : α → List Token → Prop} {run : Run α}
    (h : Settled o finish mid Q C run) (hmid : Passes ts mid) : Settled o finish ts Q C run := by
  cases h with
  | done hpasses hq => exact .done (hmid.trans hpasses) hq
  | failed haccurate hend =>
    exact .failed (haccurate.of_passes hmid) fun heos hfree => hend heos (hmid.eosFree hfree)
  | exhausted => exact .exhausted

namespace Settles

variable {P : α → List Token → Prop} {Q : β → List Token → Prop}

/-- What a reader is known to ensure when it is done. -/
theorem ensuring {m : Reader α} (h : Settles o finish m ts (fun _ _ => True) C)
    (he : m.Ensures ts P) : Settles o finish m ts P C := by
  unfold Settles at h ⊢
  generalize hrun : m.run o (.before finish ts) = run at h
  cases h with
  | done hpasses hq =>
    obtain ⟨rest, hrest, hP⟩ := he o finish _ _ _ hrun
    cases hrest
    exact .done hpasses hP
  | failed haccurate hend => exact .failed haccurate hend
  | exhausted => exact .exhausted

theorem imp {m : Reader α} (h : Settles o finish m ts P C) (hC : C → C') :
    Settles o finish m ts P C' := by
  unfold Settles at h ⊢
  generalize m.run o (.before finish ts) = run at h ⊢
  cases h with
  | done hpasses hq => exact .done hpasses hq
  | failed haccurate hend => exact .failed haccurate fun heos hfree => hC (hend heos hfree)
  | exhausted => exact .exhausted

theorem mono {P' : α → List Token → Prop} {m : Reader α} (h : Settles o finish m ts P C)
    (hP : ∀ a rest, P a rest → P' a rest) : Settles o finish m ts P' C := by
  unfold Settles at h ⊢
  generalize m.run o (.before finish ts) = run at h ⊢
  cases h with
  | done hpasses hq => exact .done hpasses (hP _ _ hq)
  | failed haccurate hend => exact .failed haccurate hend
  | exhausted => exact .exhausted

theorem pure {a : α} (h : P a ts) : Settles o finish (Pure.pure a) ts P C := .done .refl h

/-- Where no item follows there is nothing to be completed. -/
theorem pure_none {R : Option α → List Token → Prop} :
    Settles o finish (Pure.pure none) ts (fun x mid => x.isSome → R x mid) C :=
  pure fun h => absurd h Bool.false_ne_true

theorem exhausted : Settles o finish (Reader.exhausted : Reader α) ts P C := Settled.exhausted

/-- **In a sequence the second reader settles what the first one leaves.** -/
theorem bind {m : Reader α} {k : α → Reader β} (hm : Settles o finish m ts P C)
    (hk : ∀ a mid, P a mid → Settles o finish (k a) mid Q C) :
    Settles o finish (m >>= k) ts Q C := by
  unfold Settles at hm ⊢
  rw [run_bind]
  generalize m.run o (.before finish ts) = run at hm ⊢
  cases hm with
  | done hpasses hq => exact ((hk _ _ hq).of_passes hpasses).after _
  | failed haccurate hend => exact .failed haccurate hend
  | exhausted => exact .exhausted

/-- A complaint about the current token. -/
theorem reject {fault : Fault} {t : Token} (ht : t = (Cursor.before finish ts).peek)
    (hfits : fault.Fits none t) (hend : ts = [] → fault.found? = some .eos → C) :
    Settles o finish (Reader.reject fault t.pos) ts P C := by
  subst ht
  refine .failed ⟨[], ts, rfl, eosFree_nil, rfl, hfits⟩ fun heos hfree => ?_
  cases ts with
  | nil => exact hend rfl heos
  | cons t us =>
    -- No token of the input is its end, so that a complaint about it is about another place.
    have hfound : fault.found? = none ∨ fault.found? = some t.terminal := by
      cases fault with
      | unexpected found expected => exact .inr (congrArg some hfits.1)
      | malformedVerbatim found => exact .inr (congrArg some hfits.1)
      | _ => exact .inl rfl
    rw [heos] at hfound
    rcases hfound with hnone | hsome
    · cases hnone
    · have hlexeme : t.lexeme = .eos := Lexeme.eq_of_terminal (Option.some.inj hsome).symm rfl
      exact absurd hlexeme ((eosFree_cons t us).1 hfree).1

/-- A complaint about a token of the input: no input that is at its end makes it. -/
theorem reject_cons {fault : Fault} {t : Token} (hfits : fault.Fits none t) :
    Settles o finish (Reader.reject fault t.pos) (t :: us) P C :=
  reject rfl hfits fun hts => absurd hts (List.cons_ne_nil t us)

/-- The complaint that a token has no place where it is. -/
theorem unexpected {t : Token} (ht : t = (Cursor.before finish ts).peek)
    {expected : List Terminal} (hexpected : expected ∈ expectations)
    (hfound : t.terminal ∉ expected) (hend : ts = [] → C) :
    Settles o finish (Reader.unexpected t expected) ts P C :=
  reject ht ⟨rfl, hexpected, hfound⟩ fun hts _ => hend hts

/-- The complaint that a token of the input has no place where it is. -/
theorem unexpected_cons {t : Token} {expected : List Terminal}
    (hexpected : expected ∈ expectations) (hfound : t.terminal ∉ expected) :
    Settles o finish (Reader.unexpected t expected) (t :: us) P C :=
  reject_cons ⟨rfl, hexpected, hfound⟩

theorem options_bind {k : Options → Reader β} (hk : Settles o finish (k o) ts Q C) :
    Settles o finish (options >>= k) ts Q C := hk

theorem locate_bind {pos : Position} {k : Location → Reader β}
    (hk : Settles o finish (k (o.place pos)) ts Q C) :
    Settles o finish (locate pos >>= k) ts Q C := hk

theorem emit_bind {e : Event} {k : Unit → Reader β} (hk : Settles o finish (k ()) ts Q C) :
    Settles o finish (emit e >>= k) ts Q C := Settled.after hk [e]

theorem emitIf_bind {condition : Bool} {e : Event} {k : Unit → Reader β}
    (hk : Settles o finish (k ()) ts Q C) : Settles o finish (emitIf condition e >>= k) ts Q C := by
  cases condition with
  | false => exact hk
  | true => exact emit_bind hk

/-- **The current token is the first one,** or the end of the input. -/
theorem peek_bind {k : Token → Reader β}
    (hnil : ts = [] → Settles o finish (k ⟨.eos, finish⟩) [] Q C)
    (hcons : ∀ l pos us, ts = ⟨l, pos⟩ :: us →
      Settles o finish (k ⟨l, pos⟩) (⟨l, pos⟩ :: us) Q C) :
    Settles o finish (peek >>= k) ts Q C := by
  cases ts with
  | nil => exact hnil rfl
  | cons t us => exact hcons _ _ us rfl

/-- Whatever the current token is, it is what is seen first. -/
theorem any_bind {k : Token → Reader β}
    (hk : ∀ t, t = (Cursor.before finish ts).peek → Settles o finish (k t) ts Q C) :
    Settles o finish (peek >>= k) ts Q C := hk _ rfl

theorem skip_bind {l : Lexeme} {pos : Position} (hl : l ≠ .eos) {k : Unit → Reader β}
    (hk : Settles o finish (k ()) us Q C) :
    Settles o finish (skip >>= k) (⟨l, pos⟩ :: us) Q C :=
  Settled.of_passes hk (.cons hl)

theorem skipNewlines_bind {k : Unit → Reader β}
    (hk : ∀ newlines us, ts = newlineTokens newlines ++ us → (Lookahead.of us).next ≠ .newline →
      Settles o finish (k ()) us Q C) : Settles o finish (skipNewlines >>= k) ts Q C := by
  obtain ⟨newlines, hts, hnext⟩ := exists_newlineTokens ts
  exact Settled.of_passes (hk newlines _ hts hnext) (passes_dropWhile ts)

theorem skipNewlines_cons {newlines : List Position} {l : Lexeme} {pos : Position}
    {k : Unit → Reader β} (hl : l.terminal ≠ .newline)
    (hk : Settles o finish (k ()) (⟨l, pos⟩ :: us) Q C) :
    Settles o finish (skipNewlines >>= k) (newlineTokens newlines ++ ⟨l, pos⟩ :: us) Q C := by
  refine skipNewlines_bind fun newlines' vs hts hnext => ?_
  have hdrop := dropWhile_newlineTokens newlines hl pos us
  rw [hts, dropWhile_newlineTokens_append newlines' hnext] at hdrop
  exact hdrop ▸ hk

/-- **Past the line breaks comes the first token that is none,** or the end of the input. -/
theorem past_bind {k : Token → Reader β}
    (hnil : ∀ newlines, ts = newlineTokens newlines → Settles o finish (k ⟨.eos, finish⟩) ts Q C)
    (hcons : ∀ newlines l pos us, ts = newlineTokens newlines ++ ⟨l, pos⟩ :: us →
      l.terminal ≠ .newline → Settles o finish (k ⟨l, pos⟩) ts Q C) :
    Settles o finish (peekPastNewlines >>= k) ts Q C := by
  obtain ⟨newlines, hts, hnext⟩ := exists_newlineTokens ts
  have hrun : (peekPastNewlines >>= k).run o (.before finish ts) =
      (k (Cursor.before finish (ts.dropWhile Token.isNewline)).peek).run o
        (.before finish ts) := rfl
  unfold Settles
  rw [hrun]
  cases h : ts.dropWhile Token.isNewline with
  | nil =>
    rw [h] at hts
    exact hnil newlines (hts.trans (List.append_nil _))
  | cons t us =>
    rw [h] at hts hnext
    exact hcons newlines t.lexeme t.pos us hts hnext

theorem lookingAt_bind {terminal : Terminal} {k : Bool → Reader β}
    (hk : Settles o finish (k ((Lookahead.of ts).next = terminal)) ts Q C) :
    Settles o finish (lookingAt terminal >>= k) ts Q C := by
  unfold Settles
  rw [run_bind, run_lookingAt, Cursor.terminal_peek_before]
  exact hk

/-- A terminal that comes next is taken where it is expected. -/
theorem expect_cons {l : Lexeme} {pos : Position} {terminal : Terminal} (hl : l ≠ .eos)
    (h : l.terminal = terminal) {k : Token → Reader β}
    (hk : Settles o finish (k ⟨l, pos⟩) us Q C) :
    Settles o finish (expect terminal >>= k) (⟨l, pos⟩ :: us) Q C := by
  unfold Settles
  rw [run_bind, run_expect, if_pos (by exact h)]
  exact Settled.of_passes hk (.cons hl)

/-- A terminal that is expected comes next, or there is a complaint that names it. -/
theorem expect_bind {terminal : Terminal} (hne : terminal ≠ .eos)
    (hexpected : [terminal] ∈ expectations) {k : Token → Reader β} (hend : ts = [] → C)
    (hk : ∀ t us, ts = t :: us → t.terminal = terminal → Settles o finish (k t) us Q C) :
    Settles o finish (expect terminal >>= k) ts Q C := by
  have hrefuse : ∀ t, t = (Cursor.before finish ts).peek → t.terminal ≠ terminal →
      Settles o finish ((Reader.unexpected t [terminal] : Reader Token) >>= k) ts Q C := by
    intro t ht hterminal
    exact bind (P := fun _ _ => False)
      (unexpected ht hexpected (by simpa using hterminal) hend) fun _ _ h => h.elim
  rw [expect, bind_assoc]
  refine any_bind fun t ht => ?_
  by_cases h : t.terminal = terminal
  · simp only [if_pos h]
    cases ts with
    | nil =>
      subst ht
      exact absurd h.symm hne
    | cons u us =>
      obtain rfl : t = u := ht
      exact Settled.of_passes (hk t us rfl h) (.cons (lexeme_ne_eos h hne))
  · simp only [if_neg h]
    exact hrefuse t ht h

/-- A terminal is accepted exactly when it comes next. -/
theorem accept_bind {terminal : Terminal} (hne : terminal ≠ .eos) {k : Bool → Reader β}
    (hsome : ∀ t us, ts = t :: us → t.terminal = terminal → Settles o finish (k true) us Q C)
    (hnone : (Lookahead.of ts).next ≠ terminal → Settles o finish (k false) ts Q C) :
    Settles o finish (accept terminal >>= k) ts Q C := by
  unfold Settles
  rw [run_bind, run_accept, Cursor.terminal_peek_before]
  by_cases h : (Lookahead.of ts).next = terminal
  · rw [if_pos h]
    cases ts with
    | nil => exact absurd h.symm hne
    | cons t us =>
      exact (Settled.of_passes (hsome t us rfl h) (.cons (lexeme_ne_eos h hne))).after []
  · rw [if_neg h]
    exact (hnone h).after []

/-- **What a loop knows at the end of the input**, if each round hands it back. -/
theorem many {item : Reader (Option α)} {G : List Token → Prop}
    (hitem : ∀ ts, Settles o finish item ts (fun x mid => x.isSome → G mid → G ts) (G ts))
    (rounds : Nat) (ts : List Token) :
    Settles o finish (Reader.many item rounds) ts (fun _ _ => True) (G ts) := by
  induction rounds generalizing ts with
  | zero => exact exhausted
  | succ rounds ih =>
    refine bind (hitem ts) fun x mid hx => ?_
    cases x with
    | none => exact pure trivial
    | some a => exact bind ((ih mid).imp (hx rfl)) fun _ _ _ => pure trivial

/-- **What a loop with a state knows at the end of the input**, if each round hands it back. -/
theorem iterate {step : σ → Reader (Option σ)} {G : σ → List Token → Prop}
    (hstep : ∀ s ts, Settles o finish (step s) ts
      (fun x mid => ∀ s', x = some s' → G s' mid → G s ts) (G s ts)) (rounds : Nat) (s : σ)
    (ts : List Token) :
    Settles o finish (Reader.iterate step rounds s) ts (fun _ _ => True) (G s ts) := by
  induction rounds generalizing s ts with
  | zero => exact exhausted
  | succ rounds ih =>
    refine bind (hstep s ts) fun x mid hx => ?_
    cases x with
    | none => exact pure trivial
    | some s' => exact (ih s' mid).imp (hx s' rfl)

end Settles
end Reader

namespace Grammar.Inner

/-- The readers of an `Inner` settle all tokens, and a production or a block that lacks
tokens can be completed. -/
structure Settles (o : Options) (finish : Position) (inner : Inner) : Prop where
  sound : inner.Sound
  expr : ∀ scope ts, Reader.Settles o finish (inner.expr scope) ts
    (fun _ rest => Derives .expr scope ts rest) (Completable (Derives .expr scope · []) ts)
  block : ∀ scope ts, Reader.Settles o finish (inner.block scope) ts
    (fun _ rest => Derives .block scope ts rest) (Completable (Derives .block scope · []) ts)

end Grammar.Inner
end Pug
