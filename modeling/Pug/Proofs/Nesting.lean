/-
# Templates under a host

A template is read in the same way as the block under a host: the loop that ends at the end
of the input and the loop that ends at an outdent agree. If a template is read, a derivation
of it is one of the block too, since an outdent closes what the end of the input closes. If
it is refused, so is the block, and with the same error, unless the error is about the end of
the input or about an outdent. The block under a mixin is refused a little less often, since
the place of a mixin's block may be in it.
-/

import Pug.Proofs.Extension.Production
import Pug.Proofs.Nesting.Host
import Pug.Proofs.Standalone

namespace Pug

namespace Run

variable {α β : Type} {e : ParseError} {events more : List Event}

theorem eq_of_outcome {r : Run α} {outcome : Outcome α} (h : r.outcome = outcome) :
    r = ⟨outcome, r.events⟩ := by
  cases h
  rfl

/-- A run that only goes on with a value fails where it would fail anyway. -/
theorem of_andThen_done {r : Run α} {f : α → β}
    (h : (r.andThen fun a c => ⟨.done (f a) c, []⟩) = ⟨.failed e, events⟩) :
    r = ⟨.failed e, events⟩ := by
  obtain ⟨_ | _ | _, _⟩ := r
  · cases h
  · cases h
    rfl
  · cases h

theorem of_after_failed {r : Run α} (h : r.after events = ⟨.failed e, more⟩) :
    ∃ events', r = ⟨.failed e, events'⟩ ∧ more = events ++ events' := by
  obtain ⟨outcome, events'⟩ := r
  cases h
  exact ⟨events', rfl, rfl⟩

end Run

namespace Reader

variable {α β : Type} {frame : Frame} {o : Options} {ts : List Token} {e : ParseError}
  {events : List Event} {finish finish' : Position}

/-- **What goes on behind a run fails in the frame too**, with an error that the frame does not
explain, if the run is repeated there. -/
theorem Repeats.failed_andThen {run run' : Run α} {k k' : α → Reader β}
    (h : Repeats frame ts finish finish' run run')
    (hrun : (run.andThen fun a rest => (k a).run o rest) = ⟨.failed e, events⟩)
    (hframe : ¬ frame.Explains ts e)
    (hdry : ∀ a rest, frame.Spent rest →
      Dry frame rest finish ((k a).run o (.before finish rest)))
    (hk : ∀ a rest later, rest <:+ ts → (k a).run o (.before finish rest) = ⟨.failed e, later⟩ →
      (k' a).run o (.before finish' (rest ++ frame.more)) = ⟨.failed e, later⟩) :
    (run'.andThen fun a rest => (k' a).run o rest) = ⟨.failed e, events⟩ := by
  cases h with
  | dry h =>
    cases h with
    | @done a rest _ hrest hspent =>
      rw [Run.andThen_done] at hrun
      obtain ⟨later, hlater, rfl⟩ := Run.of_after_failed hrun
      have hrest' := hdry a rest hspent
      rw [hlater] at hrest'
      cases hrest' with
      | failed h => exact absurd (h.of_suffix hrest) hframe
    | failed h =>
      cases hrun
      exact absurd h hframe
    | exhausted => cases hrun
  | @done a rest _ hrest =>
    obtain ⟨later, hlater, rfl⟩ := Run.of_after_failed hrun
    rw [Run.andThen_done, hk a rest later hrest hlater]
    rfl
  | failed =>
    cases hrun
    rfl

end Reader

namespace Grammar

open Reader

variable {frame : Frame} {o : Options} {scope : Scope} {ts us : List Token}
  {e : ParseError} {events : List Event} {finish : Position}

/-- No production begins at an outdent. -/
theorem found?_of_outdent {depth rounds : Nat} {pos : Position}
    (h : (many (item (.ofDepth depth) scope .eos) rounds).run o
      (.before finish (⟨.outdent, pos⟩ :: us)) = ⟨.failed e, events⟩) :
    e.fault.found? = some .outdent := by
  cases rounds with
  | zero => cases h
  | succ rounds =>
    cases depth with
    | zero => cases h
    | succ depth =>
      cases h
      rfl

/-- In front of a token that ends neither of two lists, an item is the same in both. -/
theorem run_item_of_ne {inner : Inner} {t : Token} {stop stop' : Terminal}
    (hstop : t.terminal ≠ stop) (hstop' : t.terminal ≠ stop') :
    (item inner scope stop).run o (.before finish (t :: us)) =
      (item inner scope stop').run o (.before finish (t :: us)) := by
  simp only [item, run_bind, run_peek, Cursor.peek_before_cons, Run.andThen_done, if_neg hstop,
    if_neg hstop']

/-- **A list up to an outdent is refused as a list up to the end of the input is.** The induction
is on the rounds of the loop. -/
theorem fails_many_item {depth depth' : Nat} (hdepth : depth ≤ depth') {rounds rounds' : Nat}
    (hrounds : rounds ≤ rounds') (hfree : EosFree ts)
    (hrun : (many (item (.ofDepth depth) scope .eos) rounds).run o (.before finish ts) =
      ⟨.failed e, events⟩)
    (hframe : ¬ frame.Explains ts e) (hout : e.fault.found? ≠ some .outdent) :
    (many (item (.ofDepth depth') (frame.scope scope) .outdent) rounds').Fails o
      (ts ++ frame.more) e events := by
  have hinner : (Inner.ofDepth depth).Steady frame o (Inner.ofDepth depth') :=
    steady_ofDepth o hdepth
  induction rounds generalizing rounds' ts events with
  | zero => cases hrun
  | succ rounds ih =>
    obtain ⟨rounds', rfl⟩ := Nat.exists_eq_succ_of_ne_zero (Nat.ne_zero_of_lt hrounds)
    cases ts with
    | nil => cases hrun
    | cons t us =>
      rcases t with ⟨l, pos⟩
      have heos : Token.terminal ⟨l, pos⟩ ≠ .eos := by
        intro hl
        refine ((eosFree_cons ⟨l, pos⟩ us).1 hfree).1 ?_
        exact Lexeme.eq_of_terminal hl rfl
      have houtdent : Token.terminal ⟨l, pos⟩ ≠ .outdent := by
        intro hl
        obtain rfl : l = .outdent := Lexeme.eq_of_terminal hl rfl
        exact hout (found?_of_outdent hrun)
      rw [many, run_bind, run_item_of_ne heos houtdent] at hrun
      intro finish'
      rw [many, run_bind]
      refine ((steady_item hinner scope .outdent).firm finish finish').failed_andThen hrun hframe
        (fun x rest hspent => ?_) fun x rest later hrest hlater => ?_
      · cases x with
        | none => exact .done List.suffix_rfl hspent
        | some nodes =>
          have hmany : Steady frame o (many (item (.ofDepth depth) scope .eos) rounds)
              (many (item (.ofDepth depth') (frame.scope scope) .eos) rounds) rest :=
            .many (fun _ => steady_item hinner scope .eos) (Nat.le_refl rounds) rest
          exact (hmany.bind fun _ _ => .pure).dry hspent finish
      · cases x with
        | none => cases hlater
        | some nodes =>
          have hfails := ih (Nat.le_of_succ_le_succ hrounds) (fun t ht => hfree t (hrest.subset ht))
            (Run.of_andThen_done hlater) (fun h => hframe (h.of_suffix hrest))
          exact hfails.bind finish'

theorem fails_items {depth depth' : Nat} (hdepth : depth ≤ depth') (hfree : EosFree ts)
    (hrun : (items (.ofDepth depth) scope .eos).run o (.before finish ts) = ⟨.failed e, events⟩)
    (hframe : ¬ frame.Explains ts e) (hout : e.fault.found? ≠ some .outdent) :
    (items (.ofDepth depth') (frame.scope scope) .outdent).Fails o (ts ++ frame.more) e events := by
  have hrounds : (Inner.ofDepth depth).rounds ≤ (Inner.ofDepth depth').rounds := by
    simpa using hdepth
  have hmany := fails_many_item hdepth hrounds hfree (Run.of_andThen_done hrun) hframe hout
  exact hmany.bind

/-- A template is refused where the list of its items is. -/
theorem failed_of_document {inner : Inner}
    (h : (document inner).run o (.before finish ts) = ⟨.failed e, events⟩) :
    ∃ later, (items inner .outermost .eos).run o (.before finish ts) = ⟨.failed e, later⟩ ∧
      events = .started o.filename :: later := by
  have hitems : (((items inner .outermost .eos).run o (.before finish ts)).andThen
      fun nodes rest => ⟨.done (⟨nodes, ⟨.whole, o.filename⟩⟩ : Block) rest, []⟩).after
        [.started o.filename] = ⟨.failed e, events⟩ := h
  obtain ⟨later, hlater, rfl⟩ := Run.of_after_failed hitems
  exact ⟨later, Run.of_andThen_done hlater, rfl⟩

/-- A host at the beginning of a template is refused as the list under it is. -/
theorem fails_document_host (host : Host) {depth : Nat} {pos indent : Position}
    (h : (items (.ofDepth depth) (host.scope .outermost) .outdent).Fails o us e events) :
    (document (.ofDepth (depth + 2))).Fails o
      (⟨host.lexeme, pos⟩ :: ⟨.indent, indent⟩ :: us) e (.started o.filename :: events) := by
  have hblock : ((Inner.ofDepth (depth + 1)).block (host.scope .outermost)).Fails o
      (⟨.indent, indent⟩ :: us) e events := fails_block h
  have hexpr : ((Inner.ofDepth (depth + 2)).expr .outermost).Fails o
      (⟨host.lexeme, pos⟩ :: ⟨.indent, indent⟩ :: us) e events :=
    fails_expr host (by simp) hblock
  have hitem : (item (.ofDepth (depth + 2)) .outermost .eos).Fails o
      (⟨host.lexeme, pos⟩ :: ⟨.indent, indent⟩ :: us) e events := by
    cases host <;> exact .peek_bind hexpr.bind
  have hmany : (many (item (.ofDepth (depth + 2)) .outermost .eos) (depth + 2)).Fails o
      (⟨host.lexeme, pos⟩ :: ⟨.indent, indent⟩ :: us) e events := hitem.bind
  exact .options_bind (.emit_bind (Fails.bind hmany.bind))

/-- **A host is refused as the template under it is.** A host, an indent and an outdent are three
tokens, so the bound on the depth is greater by three. -/
theorem fails_document (hfree : EosFree ts) (host : Host) {depth : Nat}
    {pos indent outdent : Position}
    (h : (document (.ofDepth depth)).run o (.before finish ts) = ⟨.failed e, events⟩)
    (heos : e.fault.found? ≠ some .eos) (hout : e.fault.found? ≠ some .outdent)
    (hmixin : host.lexeme.terminal = .mixin → e.fault ≠ .blockOutsideMixin) :
    (document (.ofDepth (depth + 3))).Fails o (host.nest pos indent outdent ts) e events := by
  have hframe : ¬ Frame.Explains
      ⟨[⟨.outdent, outdent⟩], (host.scope .outermost).inMixin⟩ ts e := by
    rintro (h | ⟨-, -, halternates⟩ | ⟨hblock, hin⟩)
    · exact heos h
    · exact absurd halternates (by decide : Terminal.outdent ∉ [.elseIf, .else])
    · exact hmixin (Host.terminal_of_inMixin hin) hblock
  obtain ⟨later, hlater, rfl⟩ := failed_of_document h
  have hscope : Frame.scope ⟨[⟨.outdent, outdent⟩], (host.scope .outermost).inMixin⟩ .outermost =
      host.scope .outermost := rfl
  have hitems := fails_items (Nat.le_add_right depth 1) hfree hlater hframe hout
  rw [hscope] at hitems
  exact fails_document_host host hitems

end Grammar

section Nest

variable {o : Options} {ts : List Token} (hfree : EosFree ts) (host : Host)
  (pos indent outdent : Position)
include hfree

theorem parse_nest_of_done {b : Block} {rest : Cursor} (h : (parse o ts).outcome = .done b rest) :
    (∃ rest, (parse o (host.nest pos indent outdent ts)).outcome =
      .done ⟨[host.node (o.place pos) (o.place indent) b.nodes], ⟨.whole, o.filename⟩⟩ rest) ∧
    (parse o (host.nest pos indent outdent ts)).warnings = (parse o ts).warnings := by
  let content : Indented o := ⟨indent, ts, outdent, b, hfree, rest, h⟩
  obtain ⟨d, htokens, hmeaning, hwarnings, hgreedy, hlawful⟩ := content.exists_derivation
  have hparse := parse_single (o := o) (host.greedy_derivation pos d (hgreedy .finish))
    (host.lawful_derivation pos d (hlawful _))
  rw [host.tokens_derivation, htokens, host.meaning_derivation, hmeaning, host.spliced_node,
    host.trail_derivation, hwarnings] at hparse
  exact hparse

theorem parse_nest_of_failed {e : ParseError} (h : (parse o ts).outcome = .failed e)
    (heos : e.fault.found? ≠ some .eos) (hout : e.fault.found? ≠ some .outdent)
    (hmixin : host.lexeme.terminal = .mixin → e.fault ≠ .blockOutsideMixin) :
    (parse o (host.nest pos indent outdent ts)).outcome = .failed e ∧
    (parse o (host.nest pos indent outdent ts)).warnings = (parse o ts).warnings := by
  have hrun : (Grammar.document (.ofDepth (budget ts))).run o (Cursor.ofList ts) =
      ⟨.failed e, (parse o ts).events⟩ := Run.eq_of_outcome h
  have hbudget : budget (host.nest pos indent outdent ts) = budget ts + 3 := by
    simp [budget, Host.nest]
  have hnest : parse o (host.nest pos indent outdent ts) = ⟨.failed e, (parse o ts).events⟩ := by
    unfold parse
    rw [hbudget]
    exact Grammar.fails_document hfree host hrun heos hout hmixin _
  rw [hnest]
  exact ⟨rfl, rfl⟩

end Nest

/-- **A template is read as the block under a host is.** If it is read, then so is a host with
the template in a block under it: the only node is that of the host, with the nodes of the
template in its body. If it is refused with an error that is not about the end of the input
and not about an outdent, then so is the host, with the same error. This holds for a mixin
unless the error is about the place of a mixin's block. The warnings are the same in both
cases. -/
theorem parse_nest {o : Options} {ts : List Token} (hfree : EosFree ts) (host : Host)
    (pos indent outdent : Position) :
    (∀ b rest, (parse o ts).outcome = .done b rest →
      (∃ rest, (parse o (host.nest pos indent outdent ts)).outcome =
        .done ⟨[host.node (o.place pos) (o.place indent) b.nodes], ⟨.whole, o.filename⟩⟩ rest) ∧
      (parse o (host.nest pos indent outdent ts)).warnings = (parse o ts).warnings) ∧
    ∀ e, (parse o ts).outcome = .failed e → e.fault.found? ≠ some .eos →
      e.fault.found? ≠ some .outdent →
      (host.lexeme.terminal = .mixin → e.fault ≠ .blockOutsideMixin) →
      (parse o (host.nest pos indent outdent ts)).outcome = .failed e ∧
      (parse o (host.nest pos indent outdent ts)).warnings = (parse o ts).warnings :=
  ⟨fun _ _ => parse_nest_of_done hfree host pos indent outdent,
    fun _ => parse_nest_of_failed hfree host pos indent outdent⟩

/-- A mixin that is called in the way of old, in the body of another one and in a loop with a
`when` behind it. -/
theorem parse_nest_call :
    ((∃ rest, (parse .default [⟨.mixin "m" none, ⟨1, 1⟩⟩, ⟨.indent, ⟨2, 1⟩⟩,
        ⟨.mixin "n" none, ⟨2, 3⟩⟩, ⟨.outdent, ⟨3, 1⟩⟩]).outcome =
      .done ⟨[.mixin "m" none false .empty
        (some ⟨[.mixin "n" none true .empty none ⟨⟨2, 3⟩, none⟩], ⟨⟨2, 1⟩, none⟩⟩)
        ⟨⟨1, 1⟩, none⟩], ⟨.whole, none⟩⟩ rest) ∧
      (parse .default [⟨.mixin "m" none, ⟨1, 1⟩⟩, ⟨.indent, ⟨2, 1⟩⟩,
        ⟨.mixin "n" none, ⟨2, 3⟩⟩, ⟨.outdent, ⟨3, 1⟩⟩]).warnings =
      [⟨.legacyMixinCall "n", ⟨⟨2, 3⟩, none⟩⟩]) ∧
    (parse .default [⟨.while "x", ⟨1, 1⟩⟩, ⟨.indent, ⟨2, 1⟩⟩, ⟨.mixin "n" none, ⟨2, 3⟩⟩,
        ⟨.when "y", ⟨2, 5⟩⟩, ⟨.outdent, ⟨3, 1⟩⟩]).outcome =
      .failed ⟨.unexpected .when [], ⟨⟨2, 5⟩, none⟩⟩ ∧
      (parse .default [⟨.while "x", ⟨1, 1⟩⟩, ⟨.indent, ⟨2, 1⟩⟩, ⟨.mixin "n" none, ⟨2, 3⟩⟩,
        ⟨.when "y", ⟨2, 5⟩⟩, ⟨.outdent, ⟨3, 1⟩⟩]).warnings =
      [⟨.legacyMixinCall "n", ⟨⟨2, 3⟩, none⟩⟩] :=
  ⟨(@parse_nest .default [⟨.mixin "n" none, ⟨2, 3⟩⟩] (by simp) (.mixin "m" none) ⟨1, 1⟩ ⟨2, 1⟩
      ⟨3, 1⟩).1 ⟨[.mixin "n" none true .empty none ⟨⟨2, 3⟩, none⟩], ⟨.whole, none⟩⟩ _ rfl,
    (@parse_nest .default [⟨.mixin "n" none, ⟨2, 3⟩⟩, ⟨.when "y", ⟨2, 5⟩⟩] (by simp) (.while "x")
      ⟨1, 1⟩ ⟨2, 1⟩ ⟨3, 1⟩).2 ⟨.unexpected .when [], ⟨⟨2, 5⟩, none⟩⟩ rfl (by decide) (by decide)
      nofun⟩

end Pug
