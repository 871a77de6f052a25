/-
# What a reader reaches

What a reader takes from a list of tokens, it takes before every cursor with these tokens ahead,
whether or not some of them were put back, and however little it may nest, unless that is too
little. So `Takes`, which is about plain lists, says what is reached from any cursor.
-/

import Pug.Proofs.Coupling.Template

namespace Pug

open Coupling

/-- A run is done with `a`, with the tokens `ahead` up to `stop`, and has raised the warnings; or it
is exhausted. -/
inductive Run.Reaches {α : Type} (a : α) (ahead : List Token) (stop : Token)
    (warnings : List Warning) : Run α → Prop where
  | done {c : Cursor} {events : List Event} (hahead : c.ahead = ahead) (hstop : c.stop = stop)
      (hwarnings : events.filterMap Event.warning? = warnings) :
      Reaches a ahead stop warnings ⟨.done a c, events⟩
  | exhausted {events : List Event} : Reaches a ahead stop warnings ⟨.exhausted, events⟩

namespace Cursor

variable {ts : List Token}

theorem ahead_before (hts : EosFree ts) (finish : Position) : (before finish ts).ahead = ts :=
  beforeEos_of_eosFree hts

theorem stop_before (hts : EosFree ts) (finish : Position) :
    (before finish ts).stop = ⟨.eos, finish⟩ := by
  have hfrom : fromEos (ts ++ []) = [] := fromEos_append hts []
  rw [List.append_nil] at hfrom
  change (fromEos ts).headD ⟨.eos, finish⟩ = _
  rw [hfrom]
  rfl

theorem stop_eq (c : Cursor) : c.stop = ⟨.eos, c.stop.pos⟩ :=
  congrArg (Token.mk · c.stop.pos) c.stop_lexeme

theorem eosFree_ahead (c : Cursor) : EosFree c.ahead := eosFree_beforeEos c.toList

/-- A cursor is as good as the one before the tokens ahead of it. -/
theorem meets_before (depth : Nat) (c : Cursor) :
    (relocated .stay).Meets depth c (.before c.stop.pos c.ahead) := by
  refine ⟨?_, ?_⟩
  · change _ = Relocation.stay.move c.ahead
    rw [move_stay_tokens, ahead_before c.eosFree_ahead]
  · rw [stop_before c.eosFree_ahead]
    exact c.stop_eq.symm

end Cursor

/-- **What a reader takes is reached from every cursor with these tokens ahead,** by every reader
that corresponds to it. -/
theorem Reader.Takes.reaches {α : Type} [Movable α] {o : Options} {m m' : Reader α} {a : α}
    {us rest : List Token} {events : List Event} (hm' : m'.Takes o us rest a events)
    (hm : Reader.Coupled (relocated .stay) o ((relocated .stay).Meets 0) m m'
      fun _ => (relocated .stay).Meets 0)
    (hstay : ∀ a : α, Relocation.stay.move a = a) {c : Cursor} (hc : c.ahead = us ++ rest) :
    Run.Reaches a rest c.stop (events.filterMap Event.warning?) (m.run o c) := by
  have hrest : EosFree rest := ((eosFree_append us rest).1 (hc ▸ c.eosFree_ahead)).2
  have hagrees := hm c (.before c.stop.pos c.ahead) (c.meets_before 0)
  have hrun : m'.run ((relocated .stay).places.options o) (.before c.stop.pos c.ahead) =
      ⟨.done a (.before c.stop.pos rest), events⟩ := by
    rw [hc]
    exact hm' c.stop.pos
  rw [hrun] at hagrees
  generalize m.run o c = run at hagrees
  generalize hdone : (⟨.done a (.before c.stop.pos rest), events⟩ : Run α) = run' at hagrees
  cases hagrees with
  | @done b d _ more _ hq hevents =>
    obtain ⟨⟨hb, rfl⟩, rfl⟩ : (a = (relocated .stay).places.move b ∧ _) ∧ _ := by
      simpa using hdone
    obtain rfl : a = b := hb.trans (hstay b)
    refine .done ?_ ?_ ?_
    · have hahead : (Cursor.before c.stop.pos rest).ahead = Relocation.stay.move d.ahead := hq.1
      rw [← move_stay_tokens d.ahead, ← hahead, Cursor.ahead_before hrest]
    · have hstop : (Cursor.before c.stop.pos rest).stop = d.stop := hq.2
      rw [← hstop, Cursor.stop_before hrest]
      exact c.stop_eq.symm
    · exact ((hevents trivial).trans (move_stay_warnings _)).symm
  | failed => cases hdone
  | exhausted => exact .exhausted
  | exhausted' => cases hdone
  | refused he => exact he.elim

namespace Grammar

variable {o : Options} {scope : Scope} {depth : Nat} {c c' : Cursor} {node : Node}
  {events : List Event}

/-- **A production that is done means each derivation of its tokens,** however deep the reader may
nest. -/
theorem eq_meaning_of_done (h : (expr (.ofDepth depth) scope).run o c = ⟨.done node c', events⟩)
    {e : Derivation .expr} {rest : List Token} (hahead : c.ahead = e.tokens ++ rest)
    (hg : e.Greedy (.of rest)) (hl : e.Lawful scope) : node = e.meaning o ∧ c'.ahead = rest := by
  have hsound := sound_relocated .stay o
  have htakes := takes_expr (covers_ofDepth o e.tokens.length) e (Nat.le_refl _) hg hl
  have hreaches := htakes.reaches (coupled_expr hsound (coupled_ofDepth hsound depth _) scope)
    Node.move_stay hahead
  rw [h] at hreaches
  cases hreaches with
  | done hrest => exact ⟨rfl, hrest⟩

/-- **A production that is done has a derivation,** from whichever cursor it is read. -/
theorem exists_derivation_of_done
    (h : (expr (.ofDepth depth) scope).run o c = ⟨.done node c', events⟩) :
    ∃ e : Derivation .expr, c.ahead = e.tokens ++ c'.ahead ∧ e.Greedy (.of c'.ahead) ∧
      e.Lawful scope ∧ node = e.meaning o := by
  -- The tokens ahead are read from a plain list, with as much depth as they can need.
  have hlevels : scope.inMixin = [scope.inMixin].any id := (Bool.or_false _).symm
  have hsurveys := surveys_expr (surveys_ofDepth o c.stop.pos c.ahead.length) hlevels .behind
    (Nat.le_refl _)
  have hensures : (expr (.ofDepth (c.ahead.length + 1)) scope).Ensures c.ahead fun _ rest =>
      Derives .expr scope c.ahead rest := ensures_expr (sound_ofDepth _)
  have hsound := sound_relocated .stay o
  have hagrees := coupled_expr hsound (coupled_ofDepth hsound depth (c.ahead.length + 1)) scope c
    (.before c.stop.pos c.ahead) (c.meets_before 0)
  rw [h, show (relocated .stay).places.options o = o from Relocation.options_stay o] at hagrees
  unfold Reader.Surveys at hsurveys
  generalize hrun : (expr (.ofDepth (c.ahead.length + 1)) scope).run o _ = run
    at hsurveys hagrees
  cases hagrees with
  | @done _ _ d _ _ hmeets _ =>
    obtain ⟨rest, rfl, e, hahead, hg, hl⟩ := hensures o _ _ _ _ hrun
    obtain rfl : rest = c'.ahead := by
      have hrest : EosFree rest := ((eosFree_append _ rest).1 (hahead ▸ c.eosFree_ahead)).2
      rw [← Cursor.ahead_before hrest, ← move_stay_tokens c'.ahead]
      exact hmeets.1
    exact ⟨e, hahead, hg, hl, (eq_meaning_of_done h hahead hg hl).1⟩
  | exhausted' => cases hsurveys
  | refused he => exact he.elim

end Grammar
end Pug
