/-
# What is wrong with the other productions

Most productions lack tokens only where their block does. A loop over a collection lacks its
block, an include and a parent lack their path, a region of code lacks its delimiter. A block
under code whose value is put out, and the place of a mixin's block outside of a mixin, are
refused whatever comes behind them.
-/

import Pug.Proofs.Complaint.Control
import Pug.Proofs.Reading.Structure

namespace Pug

open Reader

namespace Grammar

variable {o : Options} {finish : Position} {inner : Inner} {scope : Scope}
  {ts us mid rest : List Token} {pos : Position}

/-- Nothing is nested at the end of the input. -/
theorem derives_noBlock_nil : Derives .nested scope [] [] := derives_noBlock (by decide)

section Conditional

theorem derives_endAlternates_nil : Derives .alternates scope [] [] :=
  ⟨.endAlternates, rfl, (by decide : Terminal.eos ∉ [.elseIf, .else]), trivial⟩

theorem derives_elseIf {newlines : List Position} {test : String}
    (hnested : Derives .nested scope us mid) (h : Derives .alternates scope mid rest) :
    Derives .alternates scope (newlineTokens newlines ++ ⟨.elseIf test, pos⟩ :: us) rest := by
  rcases hnested with ⟨nested, rfl, hg, hl⟩
  rcases h with ⟨d, rfl, hg', hl'⟩
  refine ⟨.elseIf newlines test pos nested d, by simp [Derivation.tokens], ⟨?_, hg'⟩, hl, hl'⟩
  rw [← Lookahead.of_append]
  exact hg

theorem derives_otherwise {newlines : List Position} (h : Derives .nested scope us rest) :
    Derives .alternates scope (newlineTokens newlines ++ ⟨.else, pos⟩ :: us) rest := by
  rcases h with ⟨nested, rfl, hg, hl⟩
  exact ⟨.otherwise newlines pos nested, by simp [Derivation.tokens], hg, hl⟩

/-- **The alternates of a conditional that lack tokens can be completed.** -/
theorem settles_alternates (hi : inner.Settles o finish) (rounds : Nat) :
    Settles o finish (alternates inner scope rounds) ts
      (fun _ rest => Derives .alternates scope ts rest)
      (Completes (Derives .alternates scope · []) ts) := by
  induction rounds generalizing ts with
  | zero => exact .exhausted
  | succ rounds ih =>
    refine .ensuring (.past_bind (fun _ _ => .pure trivial) fun newlines l pos us hts hl => ?_)
      (ensures_alternates hi.sound (rounds + 1))
    subst hts
    cases l with
    | elseIf test =>
      have hbehind : ∀ {us}, Completes (fun vs => ∃ mid, Derives .nested scope vs mid ∧
          Derives .alternates scope mid []) us →
          Completes (Derives .alternates scope · [])
            (newlineTokens newlines ++ ⟨.elseIf test, pos⟩ :: us) := by
        intro us hc
        have hcons : Completes
            (fun vs => Derives .alternates scope (newlineTokens newlines ++ vs) [])
            (⟨.elseIf test, pos⟩ :: us) :=
          hc.cons fun _ ⟨_, hnested, h⟩ => derives_elseIf hnested h
        exact hcons.append fun _ h => h
      refine .skipNewlines_cons hl (.skip_bind (by simp) (.locate_bind (.bind
        ((settles_blockAt hi _).imp fun hc => ?_) fun consequent mid hnested => ?_)))
      · exact hbehind (hc.mono fun _ h => ⟨[], h, derives_endAlternates_nil⟩)
      · exact .bind ((@ih mid).imp fun hc => hbehind (hnested.completes hc
          fun _ vs h hvs => ⟨vs, h, hvs⟩)) fun _ _ _ => .pure trivial
    | «else» =>
      refine .skipNewlines_cons hl (.skip_bind (by simp) (.bind ((settles_block? hi).imp
        fun hc => ?_) fun _ _ _ => .pure trivial))
      have hcons : Completes (fun vs => Derives .alternates scope (newlineTokens newlines ++ vs) [])
          (⟨.else, pos⟩ :: us) := hc.cons fun _ => derives_otherwise
      exact hcons.append fun _ h => h
    | _ => exact .pure trivial

theorem derives_conditional {test : String} (hnested : Derives .nested scope us mid)
    (h : Derives .alternates scope mid rest) :
    Derives .expr scope (⟨.if test, pos⟩ :: us) rest := by
  rcases hnested with ⟨nested, rfl, hg, hl⟩
  rcases h with ⟨d, rfl, hg', hl'⟩
  refine ⟨.conditional test pos nested d, by simp [Derivation.tokens], ⟨?_, hg'⟩, hl, hl'⟩
  rw [← Lookahead.of_append]
  exact hg

theorem settles_conditional (hi : inner.Settles o finish) (test : String) (loc : Location) :
    Settles o finish (conditional inner scope test loc) us (fun _ _ => True)
      (Completable (Derives .expr scope · []) (⟨.if test, pos⟩ :: us)) := by
  refine .bind ((settles_blockAt hi loc).imp fun hc => ?_) fun consequent mid hnested =>
    .bind ((settles_alternates hi inner.rounds).imp fun hc => ?_) fun _ _ _ => .pure trivial
  · exact hc.completable.cons fun _ h => derives_conditional h derives_endAlternates_nil
  · have hif : Completes (fun vs => Derives .expr scope (⟨.if test, pos⟩ :: vs) []) us :=
      hnested.completes hc fun _ _ => derives_conditional
    exact hif.completable.cons fun _ h => h

end Conditional

section Loop

theorem derives_whileLoop {test : String} (h : Derives .nested scope us rest) :
    Derives .expr scope (⟨.while test, pos⟩ :: us) rest := by
  rcases h with ⟨nested, rfl, hg, hl⟩
  exact ⟨.whileLoop test pos nested, rfl, hg, hl⟩

theorem settles_whileLoop (hi : inner.Settles o finish) (test : String) (loc : Location) :
    Settles o finish (whileLoop inner scope test loc) us (fun _ _ => True)
      (Completable (Derives .expr scope · []) (⟨.while test, pos⟩ :: us)) :=
  .bind ((settles_blockAt hi loc).imp fun hc => hc.completable.cons fun _ => derives_whileLoop)
    fun _ _ _ => .pure trivial

theorem derives_each {iteration : Iteration} (hnext : (Lookahead.of rest).next ≠ .else)
    (h : Derives .block scope us rest) :
    Derives .expr scope (⟨.each iteration, pos⟩ :: us) rest := by
  rcases h with ⟨b, rfl, hg, hl⟩
  exact ⟨.each iteration pos b, rfl, ⟨hg, hnext⟩, hl⟩

theorem derives_eachElse {iteration : Iteration} {place : Position}
    (h : Derives .block scope us (⟨.else, place⟩ :: mid))
    (halternate : Derives .block scope mid rest) :
    Derives .expr scope (⟨.each iteration, pos⟩ :: us) rest := by
  rcases h with ⟨b, rfl, hg, hl⟩
  rcases halternate with ⟨c, rfl, hg', hl'⟩
  refine ⟨.eachElse iteration pos b place c, by simp [Derivation.tokens], ⟨?_, hg'⟩, hl, hl'⟩
  rw [← Lookahead.of_append]
  exact hg

theorem settles_eachLoop (hi : inner.Settles o finish) (iteration : Iteration) (loc : Location) :
    Settles o finish (eachLoop inner scope iteration loc) us (fun _ _ => True)
      (Completable (Derives .expr scope · []) (⟨.each iteration, pos⟩ :: us)) := by
  refine .bind ((hi.block scope us).imp fun hc => ?_) fun body mid h => ?_
  · exact hc.cons fun _ h => derives_each (by decide) h
  · have halternate : Settles o finish (emptyCase inner scope) mid (fun _ _ => True)
        (Completable (Derives .expr scope · []) (⟨.each iteration, pos⟩ :: us)) := by
      refine .accept_bind (by decide) (fun t vs hmid ht => ?_) fun _ => .pure trivial
      rcases t with ⟨l, place⟩
      obtain rfl : l = .else := Lexeme.eq_of_terminal ht rfl
      subst hmid
      refine .bind ((hi.block scope vs).imp fun hc => ?_) fun _ _ _ => .pure trivial
      have helse : Completes (fun ws => ∃ xs, ws = ⟨.else, place⟩ :: xs ∧
          Derives .block scope xs []) (⟨.else, place⟩ :: vs) :=
        .of_token (by decide) (hc.cons fun xs h => ⟨xs, rfl, h⟩)
      have heach : Completes (fun us => Derives .expr scope (⟨.each iteration, pos⟩ :: us) [])
          us := by
        refine h.completes helse ?_
        rintro us _ h ⟨xs, rfl, halternate⟩
        exact derives_eachElse h halternate
      exact heach.completable.cons fun _ h => h
    exact .bind halternate fun _ _ _ => .pure trivial

end Loop

section Code

theorem derives_code {c : Code} (hbuffered : c.buffered = false)
    (h : Derives .nested scope us rest) : Derives .expr scope (⟨.code c, pos⟩ :: us) rest := by
  rcases h with ⟨nested, rfl, hg, hl⟩
  exact ⟨.code c pos nested, rfl, hg, fun h => absurd h (Bool.eq_false_iff.1 hbuffered), hl⟩

/-- A block under code whose value is put out is refused at its indent. -/
theorem settled_codeLine (hi : inner.Settles o finish) (c : Code) (loc : Location) :
    Settled o finish (⟨.code c, pos⟩ :: us) (fun _ _ => True)
      (Completable (Derives .expr scope · []) (⟨.code c, pos⟩ :: us))
      ((codeLine inner scope c loc).run o (.before finish us)) := by
  cases us with
  | nil =>
    have hrun : (codeLine inner scope c loc).run o (.before finish []) =
        ⟨.done (.code c false none loc) (.before finish []), []⟩ := rfl
    rw [hrun]
    exact .done (.cons (by simp)) trivial
  | cons t vs =>
    by_cases hindent : t.terminal = .indent
    · rcases t with ⟨l, place⟩
      obtain rfl : l = .indent := Lexeme.eq_of_terminal hindent rfl
      by_cases hbuffered : c.buffered = true
      · have hrun : (codeLine inner scope c loc).run o (.before finish (⟨.indent, place⟩ :: vs)) =
            ⟨.failed ⟨.bufferedCodeBlock, o.place place⟩, []⟩ := by
          simp [codeLine, hbuffered, Token.terminal, Lexeme.terminal, Run.after, Options.place]
        rw [hrun]
        exact .failed ⟨[⟨.code c, pos⟩], ⟨.indent, place⟩ :: vs, rfl, by simp, rfl, rfl,
          ⟨.code c, pos⟩, c, rfl, rfl, hbuffered⟩ fun hend => by cases hend
      · have hblock : Settles o finish (codeLine inner scope c loc) (⟨.indent, place⟩ :: vs)
            (fun _ _ => True) (Completable (Derives .expr scope · [])
              (⟨.code c, pos⟩ :: ⟨.indent, place⟩ :: vs)) := by
          refine .any_bind fun t ht => ?_
          rw [if_pos (ht ▸ rfl), if_neg hbuffered]
          exact .bind ((hi.block scope _).imp fun hc => hc.cons fun _ h =>
            derives_code (by simpa using hbuffered) (derives_someBlock h))
            fun _ _ _ => .pure trivial
        exact Settled.of_passes hblock (.cons (by simp))
    · have hnone : Settles o finish (codeLine inner scope c loc) (t :: vs) (fun _ _ => True)
          (Completable (Derives .expr scope · []) (⟨.code c, pos⟩ :: t :: vs)) := by
        refine .any_bind fun u hu => ?_
        rw [if_neg (hu ▸ hindent)]
        exact .pure trivial
      exact Settled.of_passes hnone (.cons (by simp))

theorem settles_codeItem :
    Settles o finish codeItem ts
      (fun x mid => x.isSome → Completable (DerivesCode · []) mid →
        Completable (DerivesCode · []) ts) (Completable (DerivesCode · []) ts) := by
  refine .peek_bind (fun hts => .reject rfl ⟨rfl, ?_⟩ fun _ _ => ?_) fun l pos us hts => ?_
  · simp [Token.terminal, Lexeme.terminal]
  · subst hts
    exact ⟨[⟨.endPipelessText, finish⟩], [], finish, rfl⟩
  · subst hts
    cases l with
    | endPipelessText => exact .skip_bind (by simp) (.pure_none)
    | text value =>
      refine .skip_bind (by simp) (.pure fun _ hc => hc.cons ?_)
      rintro vs ⟨parts, stop, rfl⟩
      exact ⟨.text value pos :: parts, stop, rfl⟩
    | newline =>
      refine .skip_bind (by simp) (.pure fun _ hc => hc.cons ?_)
      rintro vs ⟨parts, stop, rfl⟩
      exact ⟨.newline pos :: parts, stop, rfl⟩
    | _ => exact .reject_cons ⟨rfl, by simp [Token.terminal, Lexeme.terminal]⟩

theorem derives_codeRegion {start : Position} (h : DerivesCode us rest) :
    Derives .expr scope (⟨.blockCode, pos⟩ :: ⟨.startPipelessText, start⟩ :: us) rest := by
  rcases h with ⟨parts, stop, rfl⟩
  refine ⟨.blockCode pos (some ⟨start, parts, stop⟩), ?_, fun h => (by cases h), trivial⟩
  simp [Derivation.tokens, CodeRegion.tokens?, CodeRegion.tokens]

theorem settles_blockCode (rounds : Nat) (loc : Location) :
    Settles o finish (blockCode rounds loc) us (fun _ _ => True)
      (Completable (Derives .expr scope · []) (⟨.blockCode, pos⟩ :: us)) := by
  have hregion : Settles o finish (codeRegion rounds) us (fun _ _ => True)
      (Completable (Derives .expr scope · []) (⟨.blockCode, pos⟩ :: us)) := by
    refine .accept_bind (by decide) (fun t vs hus ht => ?_) fun _ => .pure trivial
    rcases t with ⟨l, start⟩
    obtain rfl : l = .startPipelessText := Lexeme.eq_of_terminal ht rfl
    subst hus
    exact .bind ((Settles.many (G := Completable (DerivesCode · [])) (fun _ => settles_codeItem)
      rounds vs).imp fun hc => (hc.cons fun _ => derives_codeRegion).cons fun _ h => h)
      fun _ _ _ => .pure trivial
  exact .bind hregion fun _ _ _ => .pure trivial

end Code

section Filter

variable {name : String} {g : Option Group}

theorem derives_filterNested (h : Derives .filter scope mid rest) :
    Derives .filter scope (⟨.filter name, pos⟩ :: (Group.tokens? g ++ mid)) rest := by
  rcases h with ⟨d, rfl, hg, hl⟩
  exact ⟨.filterNested name pos g d, by simp [Derivation.tokens], hg, hl⟩

theorem derives_filterRegion
    (hgroup : g.isNone → (Lookahead.of mid).next ≠ .startAttributes)
    (hnext : (Lookahead.of mid).next ∉ [.text, .filter]) (h : Derives .region scope mid rest) :
    Derives .filter scope (⟨.filter name, pos⟩ :: (Group.tokens? g ++ mid)) rest := by
  rcases h with ⟨region, rfl, hg, hl⟩
  rw [Lookahead.of_append] at hgroup hnext
  exact ⟨.filterRegion name pos g region, by simp [Derivation.tokens], ⟨hgroup, hnext, hg⟩, hl⟩

/-- **A filter that lacks tokens can be completed.** -/
theorem settles_filter (hi : inner.Settles o finish) (rounds : Nat) (name : String)
    (pos : Position) (loc : Location) :
    Settles o finish (filter inner scope rounds name loc) us (fun _ _ => True)
      (Completable (Derives .filter scope · []) (⟨.filter name, pos⟩ :: us)) := by
  induction rounds generalizing us name pos loc with
  | zero => exact .exhausted
  | succ rounds ih =>
    refine .bind (settles_filterAttributes.imp fun hc => hc.completable.cons ?_)
      fun attrs mid h => ?_
    · rintro vs ⟨g, rfl⟩
      have hregion : Derives .region scope [] [] := derives_noRegion (by decide)
      have hfilter : Derives .filter scope (⟨.filter name, pos⟩ ::
          (Group.tokens? (some g) ++ [])) [] :=
        derives_filterRegion (fun _ => by decide) (by decide) hregion
      rwa [List.append_nil] at hfilter
    · obtain ⟨g, rfl, hgroup⟩ := h
      have hregion : (Lookahead.of mid).next ∉ [.text, .filter] → Settles o finish
          (verbatimAt inner scope loc >>= fun body => pure (Node.filter name attrs body loc)) mid
          (fun _ _ => True) (Completable (Derives .filter scope · [])
            (⟨.filter name, pos⟩ :: (Group.tokens? g ++ mid))) := by
        refine fun hnext => .bind ((settles_verbatimAt hi loc).imp ?_) fun _ _ _ => .pure trivial
        rintro ⟨more, hp, h⟩
        have hfilter : Derives .filter scope (⟨.filter name, pos⟩ ::
            (Group.tokens? g ++ (mid ++ more))) [] :=
          derives_filterRegion (fun hnone => hp.next_ne (by decide) (hgroup hnone))
            (hp.notMem (by decide) hnext) h
        rw [← List.append_assoc] at hfilter
        exact ⟨more, hfilter⟩
      refine .peek_bind (fun hmid => .locate_bind ?_) fun l place vs hmid => .locate_bind ?_
      · subst hmid
        exact hregion (by decide)
      · subst hmid
        cases l with
        | text value => exact .skip_bind (by simp) (.pure trivial)
        | filter nested =>
          refine .skip_bind (by simp) (.bind ((@ih vs nested place _).imp ?_)
            fun _ _ _ => .pure trivial)
          rintro ⟨more, h⟩
          have hfilter : Derives .filter scope (⟨.filter name, pos⟩ ::
              (Group.tokens? g ++ (⟨.filter nested, place⟩ :: vs ++ more))) [] :=
            derives_filterNested h
          rw [← List.append_assoc] at hfilter
          exact ⟨more, hfilter⟩
        | _ =>
          refine hregion ?_
          simp [Lookahead.of, Token.terminal, Lexeme.terminal]

end Filter

section Inclusion

theorem settles_fileRef {C : Prop} (hend : ts = [] → C) :
    Settles o finish fileRef ts
      (fun _ rest => ∃ path place, ts = ⟨.path path, place⟩ :: rest) C := by
  refine .ensuring (.peek_bind (fun hts => ?_) fun l pos us hts => ?_) ensures_fileRef
  · exact .unexpected rfl (by decide) (by simp [Token.terminal, Lexeme.terminal]) fun _ => hend hts
  · cases l with
    | path path => exact .skip_bind (by simp) (.locate_bind (.pure trivial))
    | _ => exact .unexpected_cons (by decide) (by simp [Token.terminal, Lexeme.terminal])

theorem settles_includeFilter (rounds : Nat) :
    Settles o finish (includeFilter rounds) ts
      (fun x mid => x.isSome → Completable (TakesFilters · []) mid →
        Completable (TakesFilters · []) ts) (Completable (TakesFilters · []) ts) := by
  refine .peek_bind (fun _ => .pure_none) fun l pos us hts => ?_
  subst hts
  cases l with
  | filter name =>
    refine .skip_bind (by simp) (.locate_bind (.bind (settles_filterAttributes.imp fun hc =>
      hc.completable.cons ?_) fun attrs mid h => .pure fun _ hc => ?_))
    · rintro vs ⟨g, rfl⟩
      exact ⟨[⟨name, pos, some g⟩], by simp [FilterToken.tokens, Group.tokens?]⟩
    · obtain ⟨g, rfl, -⟩ := h
      obtain ⟨more, filters, hfilters⟩ := hc
      refine ⟨more, ⟨name, pos, g⟩ :: filters, ?_⟩
      rw [List.append_nil] at hfilters
      simp [FilterToken.tokens, hfilters]
  | _ => exact .pure_none

theorem derives_inclusion {filters : List FilterToken} {path : String} {place : Position}
    (h : Derives .nested scope mid rest) :
    Derives .expr scope (⟨.include, pos⟩ :: (filters.flatMap FilterToken.tokens ++
      ⟨.path path, place⟩ :: mid)) rest := by
  rcases h with ⟨d, rfl, hg, hl⟩
  exact ⟨.inclusion pos filters path place d, by simp [Derivation.tokens], hg, hl⟩

theorem settles_templateInclude (hi : inner.Settles o finish) (file : FileRef)
    (filters : List IncludeFilter) (loc : Location) :
    Settles o finish (templateInclude inner scope file filters loc) ts (fun _ _ => True)
      (Completes (Derives .nested scope · []) ts) :=
  .emitIf_bind (.bind (settles_block? hi) fun _ _ _ => .pure trivial)

theorem settles_rawInclude (hi : inner.Settles o finish) (file : FileRef)
    (filters : List IncludeFilter) (loc : Location) :
    Settles o finish (rawInclude inner scope file filters loc) ts (fun _ _ => True)
      (Completes (Derives .nested scope · []) ts) := by
  refine .bind (settles_block? hi) fun body _ _ => ?_
  cases body with
  | none => exact .pure trivial
  | some body => exact .emit_bind (.pure trivial)

theorem ensures_includeFilters (rounds : Nat) :
    (many (includeFilter rounds) rounds).Ensures ts fun _ rest => TakesFilters ts rest :=
  .many (fun _ => ensures_includeFilter rounds) rounds ts

/-- **An include that lacks tokens can be completed.** -/
theorem settles_inclusion (hi : inner.Settles o finish) (loc : Location) :
    Settles o finish (inclusion inner scope loc) us (fun _ _ => True)
      (Completable (Derives .expr scope · []) (⟨.include, pos⟩ :: us)) := by
  have hpath : ∀ filters : List FilterToken, Derives .expr scope (⟨.include, pos⟩ ::
      (filters.flatMap FilterToken.tokens ++ [⟨.path "", finish⟩])) [] :=
    fun _ => derives_inclusion derives_noBlock_nil
  refine .bind (.ensuring ((Settles.many (G := Completable (TakesFilters · []))
    (fun _ => settles_includeFilter inner.rounds) _ _).imp ?_) (ensures_includeFilters _))
    fun filters mid hfilters => ?_
  · rintro ⟨more, filters, hfilters⟩
    refine ⟨more ++ [⟨.path "", finish⟩], ?_⟩
    rw [List.append_nil] at hfilters
    have h := hpath filters
    rwa [← hfilters, List.append_assoc] at h
  · obtain ⟨filterTokens, rfl⟩ := hfilters
    refine .bind (settles_fileRef ?_) fun file mid' hfile => .options_bind ?_
    · rintro rfl
      refine ⟨[⟨.path "", finish⟩], ?_⟩
      rw [List.append_nil]
      exact hpath filterTokens
    · obtain ⟨path, place, rfl⟩ := hfile
      have hnested : Completes (Derives .nested scope · []) mid' →
          Completable (Derives .expr scope · []) (⟨.include, pos⟩ ::
            (filterTokens.flatMap FilterToken.tokens ++ ⟨.path path, place⟩ :: mid')) := by
        rintro ⟨more, -, h⟩
        refine ⟨more, ?_⟩
        have hinclusion : Derives .expr scope
            (⟨.include, pos⟩ :: (filterTokens.flatMap FilterToken.tokens ++
              ⟨.path path, place⟩ :: (mid' ++ more))) [] := derives_inclusion h
        simpa only [List.cons_append, List.append_assoc] using hinclusion
      refine .imp ?_ hnested
      cases o.target file.path with
      | raw => exact settles_rawInclude hi file filters loc
      | template => exact settles_templateInclude hi file filters loc
      | legacyTemplate => exact .emit_bind (settles_templateInclude hi file filters loc)

theorem settles_parent (loc : Location) :
    Settles o finish (parent loc) us (fun _ _ => True)
      (Completable (Derives .expr scope · []) (⟨.extends, pos⟩ :: us)) := by
  refine .bind (settles_fileRef ?_) fun _ _ _ => .pure trivial
  rintro rfl
  exact ⟨[⟨.path "", finish⟩], .parent pos "" finish, rfl, trivial, trivial⟩

theorem derives_namedBlock {name : String} {mode : BlockMode} (h : Derives .nested scope us rest) :
    Derives .expr scope (⟨.block name mode, pos⟩ :: us) rest := by
  rcases h with ⟨nested, rfl, hg, hl⟩
  exact ⟨.namedBlock name mode pos nested, rfl, hg, hl⟩

theorem settles_namedBlock (hi : inner.Settles o finish) (name : String) (mode : BlockMode)
    (loc : Location) :
    Settles o finish (namedBlock inner scope name mode loc) us (fun _ _ => True)
      (Completable (Derives .expr scope · []) (⟨.block name mode, pos⟩ :: us)) :=
  .bind ((settles_blockAt hi loc).imp fun hc => hc.completable.cons fun _ => derives_namedBlock)
    fun _ _ _ => .pure trivial

end Inclusion

theorem derives_comment {value : String} {buffered : Bool} (h : Derives .region scope us rest) :
    Derives .expr scope (⟨.comment value buffered, pos⟩ :: us) rest := by
  rcases h with ⟨region, rfl, hg, hl⟩
  exact ⟨.comment value buffered pos region, rfl, hg, hl⟩

theorem settles_comment (hi : inner.Settles o finish) (value : String) (buffered : Bool)
    (loc : Location) :
    Settles o finish (comment inner scope value buffered loc) us (fun _ _ => True)
      (Completable (Derives .expr scope · []) (⟨.comment value buffered, pos⟩ :: us)) := by
  refine .bind ((settles_verbatim? hi).imp fun hc => hc.completable.cons fun _ => derives_comment)
    fun body _ _ => ?_
  cases body with
  | none => exact .pure trivial
  | some body => exact .pure trivial

theorem derives_mixin {name : String} {args : Option String}
    (h : Derives .nested .mixinBody us rest) :
    Derives .expr scope (⟨.mixin name args, pos⟩ :: us) rest := by
  rcases h with ⟨nested, rfl, hg, hl⟩
  exact ⟨.mixin name args pos nested, rfl, hg, hl⟩

theorem settles_mixin (hi : inner.Settles o finish) (name : String) (args : Option String)
    (loc : Location) :
    Settles o finish (mixin inner name args loc) us (fun _ _ => True)
      (Completable (Derives .expr scope · []) (⟨.mixin name args, pos⟩ :: us)) := by
  refine .bind ((settles_block? hi).imp fun hc => hc.completable.cons fun _ => derives_mixin)
    fun body _ _ => ?_
  cases body with
  | none => exact .emit_bind (.pure trivial)
  | some body => exact .pure trivial

/-- The place of a mixin's block is refused by the token that announces it. -/
theorem settled_mixinBlock {C : Prop} :
    Settled o finish (⟨.mixinBlock, pos⟩ :: us) (fun _ _ => True) C
      ((mixinBlock scope (o.place pos)).run o (.before finish us)) := by
  unfold mixinBlock
  split
  · exact .done (.cons (by simp)) trivial
  · exact .failed ⟨[], ⟨.mixinBlock, pos⟩ :: us, rfl, eosFree_nil, rfl, rfl⟩ fun hend =>
      by cases hend

end Grammar
end Pug
