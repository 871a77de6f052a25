/-
# What a template goes past

The productions are put together here, and the knot is tied: the readers for one level of nesting
more survey one token more. So a reading under the bound of its tokens comes to an end, and what
it has gone past gives rise to its warnings.
-/

import Pug.Proofs.Complaint.Document
import Pug.Proofs.Survey.Structure

namespace Pug

open Reader

namespace Grammar

variable {o : Options} {finish : Position} {inner : Inner} {size : Nat} {scope : Scope}
  {s : Standing} {levels : List Bool} {ts us : List Token} {pos : Position}

/-- **The production that begins at the current token comes to an end.** -/
theorem surveys_expr (hi : inner.Surveys o finish size) (hscope : scope.inMixin = levels.any id)
    (hs : s.Rests levels ts) (hlen : ts.length ≤ size) :
    Surveys o finish s (Grammar.expr inner scope) ts fun _ s' rest => s'.Rests levels rest := by
  have hr := hi.rounds
  refine .peek_bind (fun hts => .locate_bind (.unexpected rfl (by decide) List.not_mem_nil))
    fun l pos us hts => .locate_bind ?_
  subst hts
  rw [List.length_cons] at hlen
  obtain rfl := hs.levels_eq
  have hskip : ∀ {l : Lexeme} {m : Reader Node}, l.terminal ∉ .eos :: (noticed ++ movers) →
      Surveys o finish (.behind s.levels) m us (fun _ s' rest => s'.Rests s.levels rest) →
      Surveys o finish s (skip >>= fun _ => m) (⟨l, pos⟩ :: us)
        fun _ s' rest => s'.Rests s.levels rest := by
    intro l m hl h
    simp only [List.mem_cons, List.mem_append, not_or] at hl
    refine .skip_bind ?_ ?_
    · simp only [List.mem_cons, not_or]
      exact ⟨hl.1, hl.2.1⟩
    · rw [Standing.next_eq_behind (by exact hl.2.2)]
      exact h
  have hdone : ∀ {node : Node}, Surveys o finish (.behind s.levels) (pure node) us
      fun _ s' rest => s'.Rests s.levels rest := .pure .behind
  have hrun := surveys_textRun hi hscope true hs hlen
  cases l with
  | tag name =>
    exact .skip_bind (by simp [Lexeme.terminal, noticed])
      (surveys_element hi hscope (.inl rfl) (.inl hlen) name _)
  | mixin name args => exact surveyed_mixin hi hlen rfl name args
  | mixinBlock => exact surveyed_mixinBlock hscope rfl
  | block name mode =>
    exact hskip (by simp [Lexeme.terminal, noticed, movers])
      (surveys_blockAt hi hscope .behind (fun _ => hlen) _).bind_pure
  | case e =>
    exact hskip (by simp [Lexeme.terminal, noticed, movers]) (surveys_caseOf hi hscope hlen e _)
  | «extends» => exact hskip (by decide) (surveys_parent _)
  | «include» => exact .skip_bind (by decide) (surveys_inclusion hi hscope hlen pos)
  | filter name =>
    -- A filter that follows an include belongs to it, but no production is read there.
    have hnext : s.next ⟨.filter name, pos⟩ = .behind s.levels := by
      have hended := hs.calm.ended
      rcases s with ⟨⟨after, levels⟩, site⟩
      cases site with
      | inclusion start => exact hended.elim
      | _ => rfl
    refine .skip_bind (by simp [Lexeme.terminal, noticed]) ?_
    rw [hnext]
    exact surveys_filter hi hscope (by omega) (Nat.le_of_lt hlen) name _
  | doctype value => exact hskip (by simp [Lexeme.terminal, noticed, movers]) hdone
  | comment value buffered =>
    exact hskip (by simp [Lexeme.terminal, noticed, movers])
      (surveys_comment hi hscope (Nat.le_of_lt hlen) value buffered _)
  | text value => exact hrun
  | interpolatedCode c => exact hrun
  | startInterpolation => exact hrun
  | textHtml value => exact (surveys_html hi hscope ⟨hs, .inr ⟨hlen, rfl⟩⟩).bind_pure
  | dot =>
    exact hskip (by decide)
      (surveys_verbatimAt hi hscope .behind (Nat.le_of_lt hlen) _).bind_pure
  | each iteration =>
    exact hskip (by simp [Lexeme.terminal, noticed, movers])
      (surveys_eachLoop hi hscope hlen iteration _)
  | code c => exact surveyed_codeLine hi hscope hlen rfl c _
  | blockCode => exact hskip (by decide) (surveys_blockCode (by omega) _)
  | «if» test =>
    exact hskip (by simp [Lexeme.terminal, noticed, movers])
      (surveys_conditional hi hscope hlen test _)
  | «while» test =>
    exact hskip (by simp [Lexeme.terminal, noticed, movers])
      (surveys_whileLoop hi hscope hlen test _)
  | call name args =>
    exact .skip_bind (by simp [Lexeme.terminal, noticed])
      (surveys_call hi hscope hlen name args _)
  | interpolation e =>
    exact .skip_bind (by simp [Lexeme.terminal, noticed])
      (surveys_interpolatedElement hi hscope hlen e _)
  | yield => exact hskip (by decide) hdone
  | idName value => exact surveys_shorthandElement hi hscope (.idName value pos) hs hlen
  | className value => exact surveys_shorthandElement hi hscope (.className value pos) hs hlen
  | _ => exact .unexpected rfl (by decide) List.not_mem_nil

/-- **The readers for one level of nesting more survey one token more.** -/
theorem surveys_ofDepth (o : Options) (finish : Position) (depth : Nat) :
    (Inner.ofDepth (depth + 1)).Surveys o finish depth := by
  induction depth with
  | zero => exact ⟨sound_ofDepth 1, Nat.zero_lt_one, nofun, nofun⟩
  | succ depth ih =>
    refine ⟨sound_ofDepth (depth + 2), Nat.lt_succ_self _,
      fun scope levels s ts hlen hs hscope => ?_, fun scope s ts hlen hscope => ?_⟩
    · exact surveys_expr ih hscope hs (Nat.le_of_lt_succ hlen)
    · exact surveys_block ih hscope (Nat.le_of_lt_succ hlen)

/-- **A template comes to the end of the input.** -/
theorem surveys_document (hi : inner.Surveys o finish size) (hlen : ts.length < size) :
    Surveys o finish .start (document inner) ts fun _ => EndAt [] .eos := by
  have hscope : Scope.outermost.inMixin = ([] : List Bool).any id := rfl
  have hstart : Standing.start.Rests [] ts := .behind
  have hitems : Surveys o finish .start (items inner .outermost .eos) ts fun _ => EndAt [] .eos :=
    surveys_items hi hscope .eos ⟨hstart, hlen⟩
  exact .options_bind (.emit_bind rfl (by simp) (hitems.bind fun _ _ _ _ h => .pure h))

end Grammar

/-- **A reading comes to an end,** with the warnings of the tokens that it has gone past. -/
theorem surveyed_parse (o : Options) (ts : List Token) :
    Reader.Surveyed o (Cursor.ofList ts).finish .start ts (fun _ => Grammar.EndAt [] .eos)
      (parse o ts) :=
  Grammar.surveys_document (Grammar.surveys_ofDepth o _ (ts.length + 1)) (Nat.lt_succ_self _)

end Pug
