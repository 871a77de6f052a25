/-
# What the other productions go past

A mixin without a block and an include of an old extension give rise to warnings. The level
behind the token of a mixin is the body of the mixin, and the place of a mixin's block is
refused where no such level is open.
-/

import Pug.Proofs.Complaint.Structure
import Pug.Proofs.Survey.Control

namespace Pug

open Reader

namespace Grammar

variable {o : Options} {finish : Position} {inner : Inner} {size : Nat} {scope : Scope}
  {s : Standing} {levels : List Bool} {ts us : List Token} {pos : Position}

section Code

/-- A block under code whose value is put out is refused behind the code. -/
theorem surveyed_codeLine (hi : inner.Surveys o finish size)
    (hscope : scope.inMixin = levels.any id) (hlen : us.length < size) (hs : s.levels = levels)
    (c : Code) (loc : Location) :
    Surveyed o finish s (⟨.code c, pos⟩ :: us) (fun _ s' rest => s'.Rests levels rest)
      ((codeLine inner scope c loc).run o (.before finish us)) := by
  subst hs
  have hquiet : ∀ stop, Reports o s.site [⟨.code c, pos⟩] stop [] := fun _ => .quiet rfl
  by_cases hrefused : (Lookahead.of us).next = .indent ∧ c.buffered = true
  · obtain ⟨hindent, hbuffered⟩ := hrefused
    obtain ⟨place, vs, rfl⟩ := Lookahead.exists_cons_of_next hindent rfl (by decide)
    have hrun : (codeLine inner scope c loc).run o (.before finish (⟨.indent, place⟩ :: vs)) =
        ⟨.failed ⟨.bufferedCodeBlock, o.place place⟩, []⟩ := by
      simp [codeLine, hbuffered, Token.terminal, Lexeme.terminal, Run.after, Options.place]
    have hsplit : (⟨.code c, pos⟩ : Token) :: ⟨.indent, place⟩ :: vs =
        [⟨.code c, pos⟩] ++ ⟨.indent, place⟩ :: vs := rfl
    rw [hrun]
    exact .failed hsplit (by simp) (hquiet _)
      ⟨rfl, ⟨rfl, ⟨.code c, pos⟩, c, rfl, rfl, hbuffered⟩, fun h => by cases h⟩
  · have hline : Surveys o finish (.behind s.levels) (codeLine inner scope c loc) us
        fun _ s' rest => s'.Rests s.levels rest := by
      refine .any_bind fun t ht => ?_
      have hterminal : t.terminal = (Lookahead.of us).next := by
        rw [ht, Cursor.terminal_peek_before]
      split
      · rename_i hindent
        rw [hterminal] at hindent
        rw [if_neg fun hbuffered => hrefused ⟨hindent, hbuffered⟩]
        exact (hi.block scope (.behind s.levels) us hlen hscope).bind fun _ _ _ _ h =>
          .pure (h ▸ .behind)
      · exact .pure .behind
    exact Surveyed.cons (by simp) (hquiet _) hline

theorem surveys_codeItem (hs : s.Rests levels ts) :
    Surveys o finish s codeItem ts (Rounds (fun s rest => s.Rests levels rest)
      (fun s rest => s.Rests levels rest) ts.length) := by
  refine .peek_bind (fun hts => .reject rfl ⟨rfl, ?_⟩ (by simp)) fun l pos us hts => ?_
  · simp [Token.terminal, Lexeme.terminal]
  subst hts
  have hbehind : ∀ {l : Lexeme}, l.terminal ∉ movers → (s.next ⟨l, pos⟩).Rests levels us :=
    .next hs.levels_eq
  cases l with
  | endPipelessText => exact .skip_bind (by decide) (.pure (.none (hbehind (by decide))))
  | text value =>
    exact .skip_bind (by simp [Lexeme.terminal, noticed])
      (.pure (.some (hbehind (by simp [Lexeme.terminal, movers])) (Nat.lt_succ_self _)))
  | newline =>
    exact .skip_bind (by decide) (.pure (.some (hbehind (by decide)) (Nat.lt_succ_self _)))
  | _ => exact .reject rfl ⟨rfl, by simp [Token.terminal, Lexeme.terminal]⟩ (by simp)

/-- **A region of code comes to an end.** -/
theorem surveys_blockCode {rounds : Nat} (hrounds : ts.length < rounds) (loc : Location) :
    Surveys o finish (.behind levels) (blockCode rounds loc) ts fun _ s' rest =>
      s'.Rests levels rest := by
  have hregion : Surveys o finish (.behind levels) (codeRegion rounds) ts fun _ s' rest =>
      s'.Rests levels rest := by
    refine .accept_bind (by decide) (fun t us hts ht => ?_) fun _ => .pure .behind
    rw [Standing.next_eq_behind (by rw [ht]; decide)]
    rw [hts, List.length_cons] at hrounds
    exact Surveys.bind_pure (.many (I := fun s rest => s.Rests levels rest)
      (fun _ _ h => surveys_codeItem h) (by omega) .behind)
  exact hregion.bind_pure

end Code

section Filter

/-- **A filter comes to an end,** with the filters in the place of its text. -/
theorem surveys_filter (hi : inner.Surveys o finish size) (hscope : scope.inMixin = levels.any id)
    {rounds : Nat} (hrounds : ts.length < rounds) (hlen : ts.length ≤ size) (name : String)
    (loc : Location) :
    Surveys o finish (.behind levels) (filter inner scope rounds name loc) ts fun _ s' rest =>
      s'.Rests levels rest := by
  have hr := hi.rounds
  induction rounds generalizing ts name loc with
  | zero => exact absurd hrounds (Nat.not_lt_zero _)
  | succ rounds ih =>
    have hattrs : Surveys o finish (.behind levels) (filterAttributes inner.rounds) ts
        fun _ s' _ => s' = .behind levels :=
      surveys_filterAttributes rfl nofun (by omega)
    refine hattrs.bind fun attrs s' mid hmid h => ?_
    subst h
    have hregion : Surveys o finish (.behind levels) (verbatimAt inner scope loc >>= fun body =>
        pure (Node.filter name attrs body loc)) mid fun _ s' rest => s'.Rests levels rest :=
      (surveys_verbatimAt hi hscope .behind (by omega) loc).bind_pure
    refine .peek_bind (fun h => .locate_bind (h ▸ hregion)) fun l pos us h => .locate_bind ?_
    subst h
    rw [List.length_cons] at hmid
    cases l with
    | text value => exact .skip_bind (by simp [Lexeme.terminal, noticed]) (.pure .behind)
    | filter nested =>
      exact .skip_bind (by simp [Lexeme.terminal, noticed])
        (Surveys.bind_pure (ih (by omega) (by omega) nested _))
    | _ => exact hregion

theorem surveys_comment (hi : inner.Surveys o finish size)
    (hscope : scope.inMixin = levels.any id) (hlen : ts.length ≤ size) (value : String)
    (buffered : Bool) (loc : Location) :
    Surveys o finish (.behind levels) (comment inner scope value buffered loc) ts
      fun _ s' rest => s'.Rests levels rest := by
  refine (surveys_verbatim? hi hscope .behind hlen).bind fun body s' rest _ h => ?_
  cases body with
  | none => exact .pure h
  | some body => exact .pure h

end Filter

section Inclusion

theorem surveys_includeFilter {rounds : Nat} (hrounds : ts.length < rounds)
    (hs : s = .inInclusion levels pos) :
    Surveys o finish s (includeFilter rounds) ts
      (Rounds (fun s rest => s = .inInclusion levels pos ∧ rest.length < rounds)
        (fun s _ => s = .inInclusion levels pos) ts.length) := by
  subst hs
  refine .peek_bind (fun _ => .pure (.none rfl)) fun l place us hts => ?_
  subst hts
  rw [List.length_cons] at hrounds
  cases l with
  | filter name =>
    have hattrs : Surveys o finish (.inInclusion levels pos) (filterAttributes rounds) us
        fun _ s' _ => s' = .inInclusion levels pos :=
      surveys_filterAttributes rfl nofun (by omega)
    exact .skip_bind (by simp [Lexeme.terminal, noticed]) (.locate_bind
      (hattrs.bind fun _ _ _ hle h => .pure (.some ⟨h, by omega⟩ (Nat.lt_succ_of_le hle))))
  | _ => exact .pure (.none rfl)

/-- The file that an include or a parent names. -/
theorem surveys_fileRef {α : Type} {Q : α → Standing → List Token → Prop}
    {k : FileRef → Reader α}
    (hk : ∀ path place us, ts = ⟨.path path, place⟩ :: us →
      Surveyed o finish s ts Q ((k ⟨Text.trim path, o.place place⟩).run o (.before finish us))) :
    Surveys o finish s (fileRef >>= k) ts Q := by
  have hrefuse : ∀ t, t = (Cursor.before finish ts).peek → t.terminal ≠ .path →
      Surveys o finish s ((Reader.unexpected t [.path] : Reader FileRef) >>= k) ts Q := by
    intro t ht hterminal
    have hcomplaint : Surveys o finish s (Reader.unexpected t [.path] : Reader FileRef) ts
        fun _ _ _ => False := .unexpected ht (by decide) (by simpa using hterminal)
    exact hcomplaint.bind fun _ _ _ _ h => h.elim
  cases ts with
  | nil => exact hrefuse ⟨.eos, finish⟩ rfl nofun
  | cons t us =>
    rcases t with ⟨l, place⟩
    cases l with
    | path path => exact hk path place us rfl
    | _ => exact hrefuse _ rfl (by simp [Token.terminal, Lexeme.terminal])

theorem surveys_parent (loc : Location) :
    Surveys o finish (.behind levels) (parent loc) ts fun _ s' rest => s'.Rests levels rest := by
  refine surveys_fileRef fun path place us hts => ?_
  subst hts
  have hreports : Reports o .open [⟨.path path, place⟩] (Lookahead.of us).next [] := .quiet rfl
  have hdone : Surveys o finish ((Standing.behind levels).next ⟨.path path, place⟩)
      (pure (Node.extends ⟨Text.trim path, o.place place⟩ loc)) us
      fun _ s' rest => s'.Rests levels rest := .pure .behind
  exact Surveyed.cons (by simp) hreports hdone

theorem surveys_templateInclude (hi : inner.Surveys o finish size)
    (hscope : scope.inMixin = levels.any id) (hlen : ts.length < size) (file : FileRef)
    (filters : List IncludeFilter) (loc : Location) :
    Surveys o finish (.behind levels) (templateInclude inner scope file filters loc) ts
      fun _ s' rest => s'.Rests levels rest :=
  .emitIf_bind rfl (by simp) (surveys_block? hi hscope .behind fun _ => hlen).bind_pure

theorem surveys_rawInclude (hi : inner.Surveys o finish size)
    (hscope : scope.inMixin = levels.any id) (hlen : ts.length < size) (file : FileRef)
    (filters : List IncludeFilter) (loc : Location) :
    Surveys o finish (.behind levels) (rawInclude inner scope file filters loc) ts
      fun _ s' rest => s'.Rests levels rest := by
  refine (surveys_block? hi hscope .behind fun _ => hlen).bind fun body s' rest _ h => ?_
  cases body with
  | none => exact .pure h
  | some discarded => exact .emit_bind rfl (by simp) (.pure h)

/-- **An include of an old extension gives rise to a warning,** which is at the include. -/
theorem surveys_inclusion (hi : inner.Surveys o finish size)
    (hscope : scope.inMixin = levels.any id) (hlen : ts.length < size) (pos : Position) :
    Surveys o finish (.inInclusion levels pos) (inclusion inner scope (o.place pos)) ts
      fun _ s' rest => s'.Rests levels rest := by
  have hr := hi.rounds
  have hfilters : Surveys o finish (.inInclusion levels pos)
      (many (includeFilter inner.rounds) inner.rounds) ts
      fun _ s' _ => s' = .inInclusion levels pos :=
    .many (I := fun s rest => s = .inInclusion levels pos ∧ rest.length < inner.rounds)
      (fun _ _ h => surveys_includeFilter h.2 h.1) (by omega) ⟨rfl, by omega⟩
  refine hfilters.bind fun filters s' mid hmid h => surveys_fileRef fun path place us hts => ?_
  subst h hts
  rw [List.length_cons] at hmid
  have hus : us.length < size := by omega
  have htemplate : Surveys o finish ((Standing.inInclusion levels pos).next ⟨.path path, place⟩)
      (templateInclude inner scope ⟨Text.trim path, o.place place⟩ filters (o.place pos)) us
      fun _ s' rest => s'.Rests levels rest := surveys_templateInclude hi hscope hus _ _ _
  have hraw : Surveys o finish ((Standing.inInclusion levels pos).next ⟨.path path, place⟩)
      (rawInclude inner scope ⟨Text.trim path, o.place place⟩ filters (o.place pos)) us
      fun _ s' rest => s'.Rests levels rest := surveys_rawInclude hi hscope hus _ _ _
  have hquiet : o.target (Text.trim path) ≠ .legacyTemplate →
      notice o (.inclusion pos) ⟨.path path, place⟩ (Lookahead.of us).next = [] := by
    intro hne
    rw [Ne, o.target_eq_legacyTemplate_iff] at hne
    exact if_neg hne
  rw [behindPath, run_bind, run_options, Run.andThen_done, Run.after_nil]
  cases htarget : o.target (Text.trim path) with
  | raw => exact Surveyed.cons (by simp) (.quiet (hquiet (by rw [htarget]; decide))) hraw
  | template => exact Surveyed.cons (by simp) (.quiet (hquiet (by rw [htarget]; decide))) htemplate
  | legacyTemplate =>
    have hnotice : notice o (.inclusion pos) ⟨.path path, place⟩ (Lookahead.of us).next =
        [⟨.legacyTemplateExtension (Text.trim path) o.extension, o.place pos⟩] :=
      if_pos ((o.target_eq_legacyTemplate_iff _).1 htarget)
    have hreports : Reports o (.inclusion pos) [⟨.path path, place⟩] (Lookahead.of us).next
        [.warned ⟨.legacyTemplateExtension (Text.trim path) o.extension, o.place pos⟩] := by
      refine ⟨?_, by simp⟩
      rw [notices_cons, follower_nil, hnotice]
      rfl
    exact Surveyed.cons (by simp) hreports htemplate

end Inclusion

section Mixin

/-- **A mixin without a block gives rise to a warning.** -/
theorem surveyed_mixin (hi : inner.Surveys o finish size) (hlen : us.length < size)
    (hs : s.levels = levels) (name : String) (args : Option String) :
    Surveyed o finish s (⟨.mixin name args, pos⟩ :: us) (fun _ s' rest => s'.Rests levels rest)
      ((mixin inner name args (o.place pos)).run o (.before finish us)) := by
  subst hs
  by_cases hindent : (Lookahead.of us).next = .indent
  · have hbody : Surveys o finish (s.next ⟨.mixin name args, pos⟩)
        (mixin inner name args (o.place pos)) us fun _ s' rest => s'.Rests s.levels rest := by
      rw [mixin, Inner.block?, bind_assoc]
      refine .lookingAt_bind ?_
      rw [decide_eq_true hindent, if_pos rfl, bind_assoc]
      exact (hi.block .mixinBody _ us hlen rfl).bind fun _ _ _ _ h => .pure (h ▸ .behind)
    have hquiet : notice o s.site ⟨.mixin name args, pos⟩ (Lookahead.of us).next = [] :=
      if_pos hindent
    exact Surveyed.cons (by simp) (.quiet hquiet) hbody
  · have hrun : (mixin inner name args (o.place pos)).run o (.before finish us) =
        ⟨.done (.mixin name args true .empty none (o.place pos)) (.before finish us),
          [.warned ⟨.legacyMixinCall name, o.place pos⟩]⟩ := by
      rw [mixin, Inner.block?, run_bind, run_bind, run_lookingAt, Cursor.terminal_peek_before,
        decide_eq_false hindent]
      rfl
    have hreports : Reports o s.site [⟨.mixin name args, pos⟩] (Lookahead.of us).next
        [.warned ⟨.legacyMixinCall name, o.place pos⟩] := by
      have hnotice : notice o s.site ⟨.mixin name args, pos⟩ (Lookahead.of us).next =
          [⟨.legacyMixinCall name, o.place pos⟩] := if_neg hindent
      refine ⟨?_, by simp⟩
      rw [notices_cons, follower_nil, hnotice]
      rfl
    have hcalm : (s.next ⟨.mixin name args, pos⟩).Rests s.levels us :=
      ⟨rfl, fun _ => hindent, trivial⟩
    have hsplit : (⟨.mixin name args, pos⟩ : Token) :: us = [⟨.mixin name args, pos⟩] ++ us := rfl
    rw [hrun]
    exact .done hsplit (by simp) hreports hcalm

/-- **The place of a mixin's block is refused** where no level is the body of a mixin. -/
theorem surveyed_mixinBlock (hscope : scope.inMixin = levels.any id) (hs : s.levels = levels) :
    Surveyed o finish s (⟨.mixinBlock, pos⟩ :: us) (fun _ s' rest => s'.Rests levels rest)
      ((mixinBlock scope (o.place pos)).run o (.before finish us)) := by
  subst hs
  unfold mixinBlock
  split
  · have hdone : Surveys o finish (s.next ⟨.mixinBlock, pos⟩)
        (pure (Node.mixinBlock (o.place pos))) us fun _ s' rest => s'.Rests s.levels rest :=
      .pure .behind
    exact Surveyed.cons (by simp) (.quiet rfl) hdone
  · rename_i houtside
    have hsplit : (⟨.mixinBlock, pos⟩ : Token) :: us = [] ++ ⟨.mixinBlock, pos⟩ :: us := rfl
    refine .failed hsplit eosFree_nil .nil ⟨rfl, rfl, fun _ => ?_⟩
    rw [hscope] at houtside
    exact Bool.eq_false_iff.2 houtside

end Mixin

end Grammar
end Pug
