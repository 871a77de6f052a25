/-
# What a run goes past

A run is looked at from where its tokens stand. The `Standing` of a token says on which levels
of indents and in which site it is, and it is kept along the tokens that the run goes past.
`Surveys o finish s m ts Q` says of the run of `m` in front of `ts`, where `s` is the standing:

* it comes to an end, and has gone past the first tokens of `ts` and no end of the input;
* its warnings are those that these tokens give rise to, and no more than one token was put
  back at a time;
* if it is done, `Q` holds of its value, of the standing that is reached and of what is left;
* if it fails, what is wrong is wrong with the token that is reached, and the place of a mixin's
  block is refused only if no mixin is around it.

So no run is exhausted whose loops may take more rounds than there are tokens, and which may
nest so deep (`Inner.Surveys`).
-/

import Pug.Proofs.Complaint.Basic
import Pug.Proofs.Survey.Indents
import Pug.Proofs.Survey.Notices

namespace Pug

/-- The levels of indents and the site in front of a token. -/
structure Standing extends Indents where
  site : Site

namespace Site

/-- In this site, nothing goes on with the terminal `next`. -/
def Over : Site → Terminal → Prop
  | .open, _ => True
  | .head _, next => next ∉ headStarts
  | .inclusion _, _ => False

end Site

namespace Standing

/-- The standing of the first token of a template. -/
def start : Standing := ⟨.none, .open⟩

/-- The standing behind most tokens: on some levels, with nothing to be gone on with. -/
def behind (levels : List Bool) : Standing := ⟨⟨false, levels⟩, .open⟩

/-- The standing in a head. -/
def inHead (levels : List Bool) (grouped : Bool) : Standing := ⟨⟨false, levels⟩, .head grouped⟩

/-- The standing in the filters of an include. -/
def inInclusion (levels : List Bool) (pos : Position) : Standing :=
  ⟨⟨false, levels⟩, .inclusion pos⟩

/-- The standing behind one more token. -/
def next (s : Standing) (t : Token) : Standing := ⟨s.toIndents.next t, s.site.next t⟩

/-- The standing behind more tokens. -/
def after (s : Standing) (ts : List Token) : Standing :=
  ⟨s.toIndents.after ts, s.site.after ts⟩

@[simp] theorem after_nil (s : Standing) : s.after [] = s := rfl

@[simp] theorem after_cons (s : Standing) (t : Token) (ts : List Token) :
    s.after (t :: ts) = (s.next t).after ts := rfl

@[simp] theorem after_append (s : Standing) (ts us : List Token) :
    s.after (ts ++ us) = (s.after ts).after us := by
  simp [after]

/-- Neither a mixin nor a head nor an include goes on with the terminal `next`. -/
structure Calm (s : Standing) (next : Terminal) : Prop where
  body : s.afterMixin = true → next ≠ .indent
  ended : s.site.Over next

/-- In front of `ts`, a production that stands on `levels` is over. -/
structure Rests (s : Standing) (levels : List Bool) (ts : List Token) : Prop where
  levels_eq : s.levels = levels
  calm : s.Calm (Lookahead.of ts).next

variable {levels : List Bool} {ts : List Token}

theorem Rests.behind : (Standing.behind levels).Rests levels ts :=
  ⟨rfl, nofun, trivial⟩

theorem Rests.inHead {grouped : Bool} (h : (Lookahead.of ts).next ∉ headStarts) :
    (Standing.inHead levels grouped).Rests levels ts := ⟨rfl, nofun, h⟩

/-- Line breaks that are gone past change no levels. -/
theorem Rests.newlines {s : Standing} {newlines : List Position} {us : List Token}
    (h : s.Rests levels (newlineTokens newlines ++ us)) :
    (s.after (newlineTokens newlines)).Rests levels us := by
  cases newlines with
  | nil => exact h
  | cons pos newlines =>
    have hafter : s.after (newlineTokens (pos :: newlines)) = Standing.behind s.levels := by
      change (Standing.behind s.levels).after (newlineTokens newlines) = Standing.behind s.levels
      induction newlines with
      | nil => rfl
      | cons place newlines ih => exact ih ⟨h.levels_eq, h.calm⟩
    rw [hafter, h.levels_eq]
    exact .behind

end Standing

/-- The terminals of the tokens behind which something goes on or the levels change. -/
def movers : List Terminal :=
  [.mixin, .indent, .outdent, .tag, .interpolation, .call, .idName, .className, .startAttributes,
    .andAttributes, .attribute, .endAttributes, .include, .filter]

/-- **Behind most tokens nothing goes on,** and the levels are as before. -/
theorem Standing.next_eq_behind {s : Standing} {t : Token} (h : t.terminal ∉ movers) :
    s.next t = .behind s.levels := by
  have hindents : s.toIndents.next t = ⟨false, s.levels⟩ := by
    unfold Indents.next
    generalize t.terminal = terminal at h ⊢
    cases terminal <;> simp [movers] at h ⊢
  have hsite : s.site.next t = .open := by
    unfold Site.next
    generalize t.terminal = terminal at h ⊢
    cases terminal <;> simp [movers] at h ⊢
  rw [next, hindents, hsite]
  rfl

theorem Standing.Rests.next {s : Standing} {levels : List Bool} {l : Lexeme} {pos : Position}
    {us : List Token} (hlevels : s.levels = levels) (hl : l.terminal ∉ movers) :
    (s.next ⟨l, pos⟩).Rests levels us := by
  rw [next_eq_behind (by exact hl), hlevels]
  exact .behind

/-- The terminals of the tokens that give rise to warnings. -/
def noticed : List Terminal := [.mixin, .startAttributes, .path]

/-- **Most tokens give rise to no warning.** -/
theorem notice_eq_nil {o : Options} {site : Site} {t : Token} {behind : Terminal}
    (h : t.terminal ∉ noticed) : notice o site t behind = [] := by
  rcases t with ⟨l, pos⟩
  cases l with
  | mixin name args => exact absurd h (by simp [Token.terminal, Lexeme.terminal, noticed])
  | startAttributes => exact absurd h (by simp [Token.terminal, Lexeme.terminal, noticed])
  | path path => exact absurd h (by simp [Token.terminal, Lexeme.terminal, noticed])
  | _ => rfl

theorem notices_newlineTokens {o : Options} {site : Site} {stop : Terminal}
    (newlines : List Position) : notices o site (newlineTokens newlines) stop = [] := by
  induction newlines generalizing site with
  | nil => rfl
  | cons pos newlines ih =>
    change notice o site ⟨.newline, pos⟩ _ ++ notices o _ (newlineTokens newlines) stop = []
    rw [ih]
    rfl

/-- Events with the warnings that the tokens `us` in a site give rise to if `stop` comes
behind them, and with at most one token put back at a time. -/
structure Reports (o : Options) (site : Site) (us : List Token) (stop : Terminal)
    (events : List Event) : Prop where
  warnings : events.filterMap Event.warning? = notices o site us stop
  deferred : ∀ count, .deferred count ∈ events → count ≤ 1

namespace Reports

variable {o : Options} {site : Site} {us vs : List Token} {stop : Terminal}
  {events more : List Event}

theorem nil : Reports o site [] stop [] := ⟨rfl, nofun⟩

theorem append (h : Reports o site us (follower vs stop) events)
    (hmore : Reports o (site.after us) vs stop more) :
    Reports o site (us ++ vs) stop (events ++ more) where
  warnings := by rw [List.filterMap_append, h.warnings, hmore.warnings, notices_append]
  deferred := fun count hmem => (List.mem_append.1 hmem).elim (h.deferred count)
    (hmore.deferred count)

/-- A token that gives rise to no warning leaves no event. -/
theorem quiet {t : Token} (h : notice o site t stop = []) : Reports o site [t] stop [] where
  warnings := by
    rw [notices_cons, follower_nil, h]
    rfl
  deferred := nofun

/-- Events that are no warnings, of which none is a token put back. -/
theorem of_silent (h : ∀ e ∈ events, e.warning? = none ∧ ∀ count, e = .deferred count → count ≤ 1) :
    Reports o site [] stop events where
  warnings := List.filterMap_eq_nil_iff.2 fun e he => (h e he).1
  deferred := fun count hmem => (h _ hmem).2 count rfl

end Reports

/-- An error about the token in front of `rest`, behind the tokens `us` that stand at `s`. -/
structure Complains (o : Options) (finish : Position) (s : Standing) (us rest : List Token)
    (e : ParseError) : Prop where
  loc_eq : e.loc = o.place (Cursor.before finish rest).peek.pos
  fits : e.fault.Fits us.getLast? (Cursor.before finish rest).peek
  outside : e.fault = .blockOutsideMixin → (s.after us).inMixin = false

/-- The token before may stand behind others. -/
theorem Fault.Fits.append {fault : Fault} {t : Token} {us : List Token}
    (h : fault.Fits us.getLast? t) (vs : List Token) : fault.Fits (vs ++ us).getLast? t := by
  cases us with
  | nil => exact Fault.Fits.of_none h _
  | cons u us =>
    obtain ⟨last, hlast⟩ : ∃ last, (u :: us).getLast? = some last :=
      ⟨_, List.getLast?_eq_some_getLast (List.cons_ne_nil u us)⟩
    rw [List.getLast?_append, hlast]
    rwa [hlast] at h

namespace Reader

variable {α β σ : Type}

/-- How a run in front of `ts` may end. -/
inductive Surveyed (o : Options) (finish : Position) (s : Standing) (ts : List Token)
    (Q : α → Standing → List Token → Prop) : Run α → Prop where
  | done {a : α} {us rest : List Token} {events : List Event} (hts : ts = us ++ rest)
      (hus : EosFree us) (hreports : Reports o s.site us (Lookahead.of rest).next events)
      (hq : Q a (s.after us) rest) :
      Surveyed o finish s ts Q ⟨.done a (.before finish rest), events⟩
  | failed {e : ParseError} {us rest : List Token} {events : List Event} (hts : ts = us ++ rest)
      (hus : EosFree us) (hreports : Reports o s.site us (Lookahead.of rest).next events)
      (hcomplains : Complains o finish s us rest e) :
      Surveyed o finish s ts Q ⟨.failed e, events⟩

/-- The run of `m` in front of `ts`, which stand at `s`, comes to an end, and `Q` holds if it
is done. -/
def Surveys (o : Options) (finish : Position) (s : Standing) (m : Reader α) (ts : List Token)
    (Q : α → Standing → List Token → Prop) : Prop :=
  Surveyed o finish s ts Q (m.run o (.before finish ts))

variable {o : Options} {finish : Position} {s : Standing} {ts us mid : List Token}

/-- **A run behind tokens and their events is a run from in front of them.** -/
theorem Surveyed.behind {Q : α → Standing → List Token → Prop} {run : Run α}
    {events : List Event} (hts : ts = us ++ mid) (hus : EosFree us)
    (hreports : Reports o s.site us (Lookahead.of mid).next events)
    (h : Surveyed o finish (s.after us) mid Q run) :
    Surveyed o finish s ts Q (run.after events) := by
  subst hts
  have happend : ∀ {vs rest : List Token} {more : List Event}, mid = vs ++ rest →
      Reports o (s.after us).site vs (Lookahead.of rest).next more →
      Reports o s.site (us ++ vs) (Lookahead.of rest).next (events ++ more) := by
    rintro vs rest more rfl hmore
    refine .append ?_ hmore
    rwa [follower_of]
  cases h with
  | @done a vs rest more hmid hvs hmore hq =>
    have hsplit : us ++ mid = (us ++ vs) ++ rest := by rw [hmid, List.append_assoc]
    refine .done hsplit ((eosFree_append us vs).2 ⟨hus, hvs⟩) (happend hmid hmore) ?_
    rwa [Standing.after_append]
  | @failed e vs rest more hmid hvs hmore hcomplains =>
    have hsplit : us ++ mid = (us ++ vs) ++ rest := by rw [hmid, List.append_assoc]
    refine .failed hsplit ((eosFree_append us vs).2 ⟨hus, hvs⟩) (happend hmid hmore)
      ⟨hcomplains.loc_eq, hcomplains.fits.append us, fun h => ?_⟩
    rw [Standing.after_append]
    exact hcomplains.outside h

/-- A run behind one token, which leaves its events. -/
theorem Surveyed.cons {Q : α → Standing → List Token → Prop} {run : Run α} {t : Token}
    {events : List Event} (ht : t.lexeme ≠ .eos)
    (hreports : Reports o s.site [t] (Lookahead.of us).next events)
    (h : Surveyed o finish (s.next t) us Q run) :
    Surveyed o finish s (t :: us) Q (run.after events) := by
  have hsplit : t :: us = [t] ++ us := rfl
  exact .behind hsplit (by simpa using ht) hreports h

/-- A run with silent events before its own. -/
theorem Surveyed.after {Q : α → Standing → List Token → Prop} {run : Run α}
    {events : List Event}
    (hsilent : ∀ e ∈ events, e.warning? = none ∧ ∀ count, e = .deferred count → count ≤ 1)
    (h : Surveyed o finish s ts Q run) : Surveyed o finish s ts Q (run.after events) := by
  have hsplit : ts = [] ++ ts := rfl
  exact .behind hsplit eosFree_nil (.of_silent hsilent) h

/-- What a round of a loop is to do: `I` holds again in front of fewer tokens, or `E` holds
where the round declines. -/
def Rounds (I E : Standing → List Token → Prop) (size : Nat) (x : Option α) (s : Standing)
    (ts : List Token) : Prop :=
  (x = none → E s ts) ∧ (x ≠ none → I s ts ∧ ts.length < size)

theorem Rounds.none {I E : Standing → List Token → Prop} {size : Nat} (h : E s ts) :
    Rounds I E size (Option.none : Option α) s ts := ⟨fun _ => h, fun hne => absurd rfl hne⟩

theorem Rounds.some {I E : Standing → List Token → Prop} {size : Nat} {a : α} (h : I s ts)
    (hlen : ts.length < size) : Rounds I E size (Option.some a) s ts :=
  ⟨nofun, fun _ => ⟨h, hlen⟩⟩

namespace Surveys

variable {P : α → Standing → List Token → Prop} {Q : β → Standing → List Token → Prop}

theorem mono {P' : α → Standing → List Token → Prop} {m : Reader α}
    (h : Surveys o finish s m ts P)
    (hP : ∀ a s' rest, rest.length ≤ ts.length → P a s' rest → P' a s' rest) :
    Surveys o finish s m ts P' := by
  unfold Surveys at h ⊢
  generalize m.run o (.before finish ts) = run at h ⊢
  cases h with
  | @done a us rest events hts hus hreports hq =>
    have hlen : rest.length ≤ ts.length := by
      rw [hts, List.length_append]
      omega
    exact .done hts hus hreports (hP _ _ _ hlen hq)
  | failed hts hus hreports hcomplains => exact .failed hts hus hreports hcomplains

/-- What a reader is known to ensure when it is done. -/
theorem ensuring {R : α → List Token → Prop} {m : Reader α} (h : Surveys o finish s m ts P)
    (he : m.Ensures ts R) :
    Surveys o finish s m ts fun a s' rest => P a s' rest ∧ R a rest := by
  unfold Surveys at h ⊢
  generalize hrun : m.run o (.before finish ts) = run at h
  cases h with
  | done hts hus hreports hq =>
    obtain ⟨rest, hrest, hR⟩ := he o finish _ _ _ hrun
    cases hrest
    exact .done hts hus hreports ⟨hq, hR⟩
  | failed hts hus hreports hcomplains => exact .failed hts hus hreports hcomplains

theorem pure {a : α} (h : P a s ts) : Surveys o finish s (Pure.pure a) ts P :=
  Surveyed.done rfl eosFree_nil .nil h

/-- **In a sequence the second reader surveys what the first one leaves.** -/
theorem bind {m : Reader α} {k : α → Reader β} (hm : Surveys o finish s m ts P)
    (hk : ∀ a s' mid, mid.length ≤ ts.length → P a s' mid → Surveys o finish s' (k a) mid Q) :
    Surveys o finish s (m >>= k) ts Q := by
  unfold Surveys at hm ⊢
  rw [run_bind]
  generalize m.run o (.before finish ts) = run at hm ⊢
  cases hm with
  | @done a us rest events hts hus hreports hq =>
    have hlen : rest.length ≤ ts.length := by
      rw [hts, List.length_append]
      omega
    exact Surveyed.behind hts hus hreports (hk _ _ _ hlen hq)
  | failed hts hus hreports hcomplains => exact .failed hts hus hreports hcomplains

/-- A sequence whose last step makes a value of what was read. -/
theorem bind_pure {m : Reader α} {f : α → β}
    (hm : Surveys o finish s m ts fun a s' rest => Q (f a) s' rest) :
    Surveys o finish s (m >>= fun a => Pure.pure (f a)) ts Q :=
  hm.bind fun _ _ _ _ h => pure h

/-- A complaint about the current token. -/
theorem reject {fault : Fault} {t : Token} (ht : t = (Cursor.before finish ts).peek)
    (hfits : fault.Fits none t) (houtside : fault ≠ .blockOutsideMixin) :
    Surveys o finish s (Reader.reject fault t.pos) ts P := by
  subst ht
  exact Surveyed.failed rfl eosFree_nil .nil ⟨rfl, hfits, fun h => absurd h houtside⟩

/-- The complaint that a token has no place where it is. -/
theorem unexpected {t : Token} (ht : t = (Cursor.before finish ts).peek)
    {expected : List Terminal} (hexpected : expected ∈ expectations)
    (hfound : t.terminal ∉ expected) :
    Surveys o finish s (Reader.unexpected t expected) ts P :=
  reject ht ⟨rfl, hexpected, hfound⟩ (by intro h; cases h)

theorem options_bind {k : Options → Reader β} (hk : Surveys o finish s (k o) ts Q) :
    Surveys o finish s (options >>= k) ts Q := hk

theorem locate_bind {pos : Position} {k : Location → Reader β}
    (hk : Surveys o finish s (k (o.place pos)) ts Q) :
    Surveys o finish s (locate pos >>= k) ts Q := hk

theorem emit_bind {e : Event} (hwarning : e.warning? = none) (hdeferred : ∀ n, e ≠ .deferred n)
    {k : Unit → Reader β} (hk : Surveys o finish s (k ()) ts Q) :
    Surveys o finish s (emit e >>= k) ts Q := by
  have hsilent : ∀ e' ∈ [e], e'.warning? = none ∧ ∀ count, e' = .deferred count → count ≤ 1 := by
    intro e' he'
    obtain rfl := List.mem_singleton.1 he'
    exact ⟨hwarning, fun n h => absurd h (hdeferred n)⟩
  exact Surveyed.after hsilent hk

theorem emitIf_bind {condition : Bool} {e : Event} (hwarning : e.warning? = none)
    (hdeferred : ∀ n, e ≠ .deferred n) {k : Unit → Reader β}
    (hk : Surveys o finish s (k ()) ts Q) :
    Surveys o finish s (emitIf condition e >>= k) ts Q := by
  cases condition with
  | false => exact hk
  | true => exact emit_bind hwarning hdeferred hk

/-- **The current token is the first one,** or the end of the input. -/
theorem peek_bind {k : Token → Reader β}
    (hnil : ts = [] → Surveys o finish s (k ⟨.eos, finish⟩) [] Q)
    (hcons : ∀ l pos us, ts = ⟨l, pos⟩ :: us →
      Surveys o finish s (k ⟨l, pos⟩) (⟨l, pos⟩ :: us) Q) :
    Surveys o finish s (peek >>= k) ts Q := by
  cases ts with
  | nil => exact hnil rfl
  | cons t us => exact hcons _ _ us rfl

/-- Whatever the current token is, it is what is seen first. -/
theorem any_bind {k : Token → Reader β}
    (hk : ∀ t, t = (Cursor.before finish ts).peek → Surveys o finish s (k t) ts Q) :
    Surveys o finish s (peek >>= k) ts Q := hk _ rfl

/-- A token that gives rise to no warning is gone past. -/
theorem skip_bind {l : Lexeme} {pos : Position} (hl : l.terminal ∉ .eos :: noticed)
    {k : Unit → Reader β} (hk : Surveys o finish (s.next ⟨l, pos⟩) (k ()) us Q) :
    Surveys o finish s (skip >>= k) (⟨l, pos⟩ :: us) Q := by
  have heos : l ≠ .eos := fun h => hl (h ▸ List.mem_cons_self)
  have hquiet : (⟨l, pos⟩ : Token).terminal ∉ noticed := fun h => hl (List.mem_cons_of_mem _ h)
  exact Surveyed.cons heos (.quiet (notice_eq_nil hquiet)) hk

/-- Line breaks are gone past. -/
theorem skipNewlines_bind {levels : List Bool} (hs : s.Rests levels ts) {k : Unit → Reader β}
    (hk : ∀ s' us, us.length ≤ ts.length → s'.Rests levels us →
      (Lookahead.of us).next ≠ .newline → Surveys o finish s' (k ()) us Q) :
    Surveys o finish s (skipNewlines >>= k) ts Q := by
  obtain ⟨newlines, hts, hnext⟩ := exists_newlineTokens ts
  have hlen : (ts.dropWhile Token.isNewline).length ≤ ts.length :=
    (List.dropWhile_suffix _).length_le
  have hrests : (s.after (newlineTokens newlines)).Rests levels
      (ts.dropWhile Token.isNewline) := .newlines (hts ▸ hs)
  exact Surveyed.behind hts (eosFree_newlineTokens newlines)
    ⟨(notices_newlineTokens newlines).symm, nofun⟩ (hk _ _ hlen hrests hnext)

theorem skipNewlines_cons {levels : List Bool} {newlines : List Position} {l : Lexeme}
    {pos : Position} (hs : s.Rests levels (newlineTokens newlines ++ ⟨l, pos⟩ :: us))
    {k : Unit → Reader β} (hl : l.terminal ≠ .newline)
    (hk : ∀ s', s'.Rests levels (⟨l, pos⟩ :: us) →
      Surveys o finish s' (k ()) (⟨l, pos⟩ :: us) Q) :
    Surveys o finish s (skipNewlines >>= k) (newlineTokens newlines ++ ⟨l, pos⟩ :: us) Q := by
  have h : Surveyed o finish (s.after (newlineTokens newlines)) (⟨l, pos⟩ :: us) Q
      ((k ()).run o (.before finish (⟨l, pos⟩ :: us))) := hk _ hs.newlines
  unfold Surveys
  rw [run_bind, run_skipNewlines, Cursor.skipNewlines_before, dropWhile_newlineTokens _ hl]
  exact h.behind rfl (eosFree_newlineTokens newlines)
    ⟨(notices_newlineTokens newlines).symm, nofun⟩

/-- **Past the line breaks comes the first token that is none,** or the end of the input. -/
theorem past_bind {k : Token → Reader β}
    (hnil : ∀ newlines, ts = newlineTokens newlines → Surveys o finish s (k ⟨.eos, finish⟩) ts Q)
    (hcons : ∀ newlines l pos us, ts = newlineTokens newlines ++ ⟨l, pos⟩ :: us →
      l.terminal ≠ .newline → Surveys o finish s (k ⟨l, pos⟩) ts Q) :
    Surveys o finish s (peekPastNewlines >>= k) ts Q := by
  obtain ⟨newlines, hts, hnext⟩ := exists_newlineTokens ts
  have hrun : (peekPastNewlines >>= k).run o (.before finish ts) =
      (k (Cursor.before finish (ts.dropWhile Token.isNewline)).peek).run o
        (.before finish ts) := rfl
  unfold Surveys
  rw [hrun]
  cases h : ts.dropWhile Token.isNewline with
  | nil =>
    rw [h] at hts
    exact hnil newlines (hts.trans (List.append_nil _))
  | cons t us =>
    rw [h] at hts hnext
    exact hcons newlines t.lexeme t.pos us hts hnext

theorem lookingAt_bind {terminal : Terminal} {k : Bool → Reader β}
    (hk : Surveys o finish s (k ((Lookahead.of ts).next = terminal)) ts Q) :
    Surveys o finish s (lookingAt terminal >>= k) ts Q := by
  unfold Surveys
  rw [run_bind, run_lookingAt, Cursor.terminal_peek_before]
  exact hk

/-- A terminal that is expected comes next, or there is a complaint that names it. -/
theorem expect_bind {terminal : Terminal} (hterminal : terminal ∉ .eos :: noticed)
    (hexpected : [terminal] ∈ expectations) {k : Token → Reader β}
    (hk : ∀ t us, ts = t :: us → t.terminal = terminal → Surveys o finish (s.next t) (k t) us Q) :
    Surveys o finish s (expect terminal >>= k) ts Q := by
  rw [expect, bind_assoc]
  refine any_bind fun t ht => ?_
  by_cases h : t.terminal = terminal
  · simp only [if_pos h, bind_assoc, pure_bind]
    cases ts with
    | nil =>
      subst ht
      exact absurd (h ▸ List.mem_cons_self) hterminal
    | cons u us =>
      obtain rfl : t = u := ht
      refine skip_bind (l := t.lexeme) ?_ (hk t us rfl h)
      rwa [← h] at hterminal
  · simp only [if_neg h]
    have hrefuse : Surveys o finish s (Reader.unexpected t [terminal] : Reader Token) ts
        fun _ _ _ => False := unexpected ht hexpected (by simpa using h)
    exact hrefuse.bind fun _ _ _ _ h => h.elim

/-- A terminal is accepted exactly when it comes next. -/
theorem accept_bind {terminal : Terminal} (hterminal : terminal ∉ .eos :: noticed)
    {k : Bool → Reader β}
    (hsome : ∀ t us, ts = t :: us → t.terminal = terminal →
      Surveys o finish (s.next t) (k true) us Q)
    (hnone : (Lookahead.of ts).next ≠ terminal → Surveys o finish s (k false) ts Q) :
    Surveys o finish s (accept terminal >>= k) ts Q := by
  rw [accept, bind_assoc]
  refine lookingAt_bind ?_
  by_cases h : (Lookahead.of ts).next = terminal
  · simp only [decide_eq_true h, if_true, bind_assoc, pure_bind]
    cases ts with
    | nil => exact absurd (h ▸ List.mem_cons_self) hterminal
    | cons t us =>
      refine skip_bind (l := t.lexeme) ?_ (hsome t us rfl h)
      rwa [← h] at hterminal
  · simp only [decide_eq_false h]
    exact hnone h

/-- **A loop comes to an end** if each round goes past a token and there are more rounds than
tokens. -/
theorem many {item : Reader (Option α)} {I E : Standing → List Token → Prop}
    (hitem : ∀ s ts, I s ts → Surveys o finish s item ts (Rounds I E ts.length)) {rounds : Nat}
    (hrounds : ts.length < rounds) (hs : I s ts) :
    Surveys o finish s (Reader.many item rounds) ts fun _ => E := by
  induction rounds generalizing s ts with
  | zero => exact absurd hrounds (Nat.not_lt_zero _)
  | succ rounds ih =>
    refine (hitem s ts hs).bind fun x s' mid _ hx => ?_
    cases x with
    | none => exact pure (hx.1 rfl)
    | some a =>
      obtain ⟨hI, hlen⟩ := hx.2 nofun
      exact (ih (by omega) hI).bind_pure

/-- **A loop with a state comes to an end** if each round goes past a token and there are more
rounds than tokens. -/
theorem iterate {step : σ → Reader (Option σ)} {I : σ → Standing → List Token → Prop}
    {E : σ → Standing → List Token → Prop}
    (hstep : ∀ a s ts, I a s ts → Surveys o finish s (step a) ts fun x s' mid =>
      (x = none → E a s' mid) ∧ ∀ b, x = some b → I b s' mid ∧ mid.length < ts.length)
    {rounds : Nat} (hrounds : ts.length < rounds) {a : σ} (hs : I a s ts) :
    Surveys o finish s (Reader.iterate step rounds a) ts E := by
  induction rounds generalizing s ts a with
  | zero => exact absurd hrounds (Nat.not_lt_zero _)
  | succ rounds ih =>
    refine (hstep a s ts hs).bind fun x s' mid _ hx => ?_
    cases x with
    | none => exact pure (hx.1 rfl)
    | some b =>
      obtain ⟨hI, hlen⟩ := hx.2 b rfl
      exact ih (by omega) hI

end Surveys
end Reader

namespace Grammar.Inner

/-- The readers of an `Inner` survey fewer than `size` tokens, if the scope tells whether they
stand in a mixin. A production leaves the levels as they are, and nothing goes on with what it
leaves; behind a block nothing can. -/
structure Surveys (o : Options) (finish : Position) (inner : Inner) (size : Nat) : Prop where
  sound : inner.Sound
  rounds : size < inner.rounds
  expr : ∀ scope levels s ts, ts.length < size → s.Rests levels ts →
    scope.inMixin = levels.any id →
    Reader.Surveys o finish s (inner.expr scope) ts fun _ s' rest => s'.Rests levels rest
  block : ∀ scope s ts, ts.length < size → scope.inMixin = (s.afterMixin :: s.levels).any id →
    Reader.Surveys o finish s (inner.block scope) ts fun _ s' _ => s' = .behind s.levels

end Grammar.Inner

/-- What has a production or a block in front is longer than what is behind. -/
theorem Derives.length_lt {s : Symbol} {scope : Grammar.Scope} {ts rest : List Token}
    (hpos : ∀ d : Derivation s, 0 < d.tokens.length) (h : Derives s scope ts rest) :
    rest.length < ts.length := by
  obtain ⟨d, rfl, -, -⟩ := h
  have hd := hpos d
  rw [List.length_append]
  omega

namespace Grammar.Inner.Surveys

variable {o : Options} {finish : Position} {inner : Inner} {size : Nat} {scope : Scope}
  {s : Standing} {levels : List Bool} {ts : List Token}

/-- A production goes past a token. -/
theorem expr_progress (hi : inner.Surveys o finish size) (hscope : scope.inMixin = levels.any id)
    (hs : s.Rests levels ts) (hlen : ts.length < size) :
    Reader.Surveys o finish s (inner.expr scope) ts fun _ s' rest =>
      s'.Rests levels rest ∧ rest.length < ts.length :=
  ((hi.expr scope levels s ts hlen hs hscope).ensuring (hi.sound.expr scope ts)).mono
    fun _ _ _ _ h => ⟨h.1, h.2.length_lt Derivation.length_expr_pos⟩

/-- A block goes past a token. -/
theorem block_progress (hi : inner.Surveys o finish size)
    (hscope : scope.inMixin = (s.afterMixin :: s.levels).any id) (hlen : ts.length < size) :
    Reader.Surveys o finish s (inner.block scope) ts fun _ s' rest =>
      s' = .behind s.levels ∧ rest.length < ts.length :=
  ((hi.block scope s ts hlen hscope).ensuring (hi.sound.block scope ts)).mono
    fun _ _ _ _ h => ⟨h.1, h.2.length_lt Derivation.length_block_pos⟩

end Grammar.Inner.Surveys
end Pug
