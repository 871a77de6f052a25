/-
# What heads, text and elements go past

In the head of an element every group but the first one gives rise to a warning, and no other
token does. What comes behind a head begins no item of a head, so that no further group belongs
to it.
-/

import Pug.Proofs.Complaint.Attributes
import Pug.Proofs.Reading.Element
import Pug.Proofs.Survey.Basic

namespace Pug

open Reader

namespace Grammar

section Head

variable {o : Options} {finish : Position} {rounds : Nat} {s : Standing} {ts us : List Token}
  {levels : List Bool}

/-- A repeated name is refused at its token, which was taken before. -/
theorem surveyed_addDistinct {β : Type} {Q : β → Standing → List Token → Prop}
    {attrs : List Attribute} {a : Attribute} {l : Lexeme} {pos : Position}
    (hl : l.terminal ∉ .eos :: noticed) (hpos : a.loc.toPosition = pos)
    (hfits : repeats attrs a.name = true → (repetition a.name).Fits none ⟨l, pos⟩)
    {k : List Attribute → Reader β}
    (hk : Surveys o finish (s.next ⟨l, pos⟩) (k (attrs ++ [a])) us Q) :
    Surveyed o finish s (⟨l, pos⟩ :: us) Q
      ((addDistinct attrs a >>= k).run o (.before finish us)) := by
  unfold addDistinct
  split
  · rename_i h
    have hsplit : (⟨l, pos⟩ : Token) :: us = [] ++ ⟨l, pos⟩ :: us := rfl
    refine .failed hsplit eosFree_nil .nil ⟨?_, hfits h, fun houtside => ?_⟩
    · rw [hpos]
      rfl
    · unfold repetition at houtside
      split at houtside <;> cases houtside
  · rw [pure_bind]
    exact Surveys.skip_bind (k := fun _ => k (attrs ++ [a])) hl hk

/-- The attributes of a group and its second delimiter leave everything as it is. -/
theorem next_attribute (hs : s.afterMixin = false) {t : Token}
    (ht : t.terminal ∈ [.attribute, .endAttributes]) : s.next t = s := by
  rcases s with ⟨⟨_, levels⟩, site⟩
  obtain rfl := hs
  simp only [List.mem_cons, List.not_mem_nil, or_false] at ht
  rcases ht with ht | ht <;>
    simp [Standing.next, Indents.next, Site.next, ht]

/-- **A group goes on to its delimiter,** and the site stays as it is. -/
theorem surveys_groupTail (hs : s.afterMixin = false) (distinct : Bool) (attrs : List Attribute)
    (hrounds : ts.length < rounds) :
    Surveys o finish s (groupTail rounds distinct attrs) ts fun _ s' rest =>
      s' = s ∧ rest.length < ts.length := by
  induction rounds generalizing attrs ts with
  | zero => exact absurd hrounds (Nat.not_lt_zero _)
  | succ rounds ih =>
    by_cases hnext : (Lookahead.of ts).next = .attribute
    · obtain ⟨name, value, escaped, pos, us, rfl⟩ :=
        Lookahead.exists_cons_of_next_attribute hnext
      rw [List.length_cons] at hrounds
      have hmore : Surveys o finish (s.next ⟨.attribute name value escaped, pos⟩)
          (groupTail rounds distinct (attrs ++ [⟨name, value, escaped, o.place pos⟩])) us
          fun _ s' rest => s' = s ∧ rest.length < us.length + 1 := by
        rw [next_attribute hs (List.mem_cons_self ..)]
        exact (ih _ (by omega)).mono fun _ _ _ _ h => ⟨h.1, Nat.lt_succ_of_lt h.2⟩
      have hterminal : (Lexeme.attribute name value escaped).terminal ∉ .eos :: noticed := by
        simp [Lexeme.terminal, noticed]
      simp only [groupTail, iterate, groupItem, advance, bind_assoc, pure_bind] at hmore ⊢
      refine .any_bind fun t ht => ?_
      obtain rfl : t = ⟨.attribute name value escaped, pos⟩ := ht
      cases distinct with
      | false => exact .skip_bind hterminal hmore
      | true =>
        simp only [if_true, bind_assoc, pure_bind]
        exact surveyed_addDistinct (a := ⟨name, value, escaped, o.place pos⟩)
          (l := .attribute name value escaped) hterminal rfl
          fits_repetition_attribute hmore
    · unfold Surveys
      rw [run_groupTail distinct attrs hnext]
      refine Surveyed.after (by simp [Event.warning?]) (Surveys.expect_bind (by decide) (by decide)
        fun t us hts ht => .pure ⟨next_attribute hs ?_, ?_⟩)
      · rw [ht]
        decide
      · rw [hts]
        exact Nat.lt_succ_self _

/-- The group of a filter belongs to no head. -/
theorem surveys_filterAttributes (hs : s.afterMixin = false)
    (hsite : ∀ grouped, s.site ≠ .head grouped)
    (hrounds : ts.length < rounds) :
    Surveys o finish s (filterAttributes rounds) ts fun _ s' _ => s' = s := by
  refine .lookingAt_bind ?_
  split
  · rename_i h
    obtain ⟨start, us, rfl⟩ := Lookahead.exists_cons_of_next (of_decide_eq_true h) rfl (by decide)
    rw [List.length_cons] at hrounds
    have hstay : s.next ⟨.startAttributes, start⟩ = s := by
      rcases s with ⟨⟨_, levels⟩, site⟩
      obtain rfl := hs
      cases site with
      | head grouped => exact absurd rfl (hsite grouped)
      | _ => rfl
    have hquiet : notice o s.site ⟨.startAttributes, start⟩ (Lookahead.of us).next = [] := by
      cases h : s.site with
      | head grouped => exact absurd h (hsite grouped)
      | _ => rfl
    have htail : Surveys o finish (s.next ⟨.startAttributes, start⟩) (groupTail rounds false []) us
        fun _ s' _ => s' = s := by
      rw [hstay]
      exact (surveys_groupTail hs false [] (by omega)).mono fun _ _ _ _ h => h.1
    exact Surveyed.cons (by simp) (.quiet hquiet) htail
  · exact .pure rfl

/-- In front of `ts` a head goes on, or a shorthand outside of a head begins one. -/
def HeadAt (levels : List Bool) (grouped : Bool) (s : Standing) (ts : List Token) : Prop :=
  s = .inHead levels grouped ∨
    s.levels = levels ∧ s.site = .open ∧ grouped = false ∧
      (Lookahead.of ts).next ∈ [.idName, .className]

theorem HeadAt.eq_inHead {grouped : Bool} (h : HeadAt levels grouped s ts)
    (hnext : (Lookahead.of ts).next ∉ [.idName, .className]) : s = .inHead levels grouped := by
  rcases h with h | ⟨-, -, -, hshorthand⟩
  · exact h
  · exact absurd hshorthand hnext

/-- Behind a shorthand the standing is in the head. -/
theorem HeadAt.next {grouped : Bool} (h : HeadAt levels grouped s ts) {t : Token}
    (ht : t.terminal ∈ [.idName, .className]) : s.next t = .inHead levels grouped := by
  simp only [List.mem_cons, List.not_mem_nil, or_false] at ht
  rcases h with rfl | ⟨rfl, hsite, rfl, -⟩
  · rcases ht with ht | ht <;>
      simp [Standing.next, Standing.inHead, Indents.next, Site.next, ht]
  · rcases ht with ht | ht <;>
      simp [Standing.next, Standing.inHead, Indents.next, Site.next, ht, hsite]

/-- **Each group but the first one of a head gives rise to a warning.** -/
theorem surveys_headItem (head : Head) (hs : HeadAt levels head.grouped s ts)
    (hrounds : ts.length < rounds) :
    Surveys o finish s (headItem rounds head) ts fun x s' rest =>
      (x = none → s'.Rests levels rest) ∧
      ∀ head', x = some head' → s' = .inHead levels head'.grouped ∧ rest.length < ts.length := by
  refine .peek_bind (fun hts => .locate_bind ?_) fun l pos us hts => .locate_bind ?_
  · subst hts
    obtain rfl := hs.eq_inHead (by decide)
    exact .pure ⟨fun _ => .inHead (by decide), by simp⟩
  subst hts
  have hsome : ∀ head' : Head, s.next ⟨l, pos⟩ = .inHead levels head'.grouped →
      Surveys o finish (s.next ⟨l, pos⟩)
        (Pure.pure (some head')) us fun x s' rest => (x = none → s'.Rests levels rest) ∧
          ∀ head', x = some head' → s' = .inHead levels head'.grouped ∧
            rest.length < us.length + 1 := by
    refine fun head' hnext => .pure ⟨by simp, fun head'' h => ?_⟩
    cases h
    exact ⟨hnext, Nat.lt_succ_self _⟩
  cases l with
  | idName value =>
    have hfits : repeats head.listed "id" = true →
        (repetition "id").Fits none ⟨.idName value, pos⟩ := fun _ => .inl ⟨value, rfl⟩
    refine surveyed_addDistinct (a := ⟨"id", value, false, o.place pos⟩)
      (k := fun listed => Pure.pure (some { head with listed }))
      (by simp [Lexeme.terminal, noticed]) rfl hfits ?_
    exact hsome { head with listed := head.listed ++ [⟨"id", value, false, o.place pos⟩] }
      (hs.next (List.mem_cons_self ..))
  | className value =>
    have hfits : repeats head.listed "class" = true →
        (repetition "class").Fits none ⟨.className value, pos⟩ := fun h => by simp [repeats] at h
    refine surveyed_addDistinct (a := ⟨"class", value, false, o.place pos⟩)
      (k := fun listed => Pure.pure (some { head with listed }))
      (by simp [Lexeme.terminal, noticed]) rfl hfits ?_
    exact hsome { head with listed := head.listed ++ [⟨"class", value, false, o.place pos⟩] }
      (hs.next (List.mem_cons_of_mem _ (List.mem_cons_self ..)))
  | andAttributes e =>
    obtain rfl := hs.eq_inHead (by simp [Lookahead.of, Token.terminal, Lexeme.terminal])
    exact .skip_bind (by simp [Lexeme.terminal, noticed])
      (hsome { head with spreads := head.spreads ++ [⟨e, o.place pos⟩] } rfl)
  | startAttributes =>
    obtain rfl := hs.eq_inHead (by simp [Lookahead.of, Token.terminal, Lexeme.terminal])
    rw [List.length_cons] at hrounds
    have hgroup : Surveys o finish (.inHead levels true) (groupTail rounds true head.listed) us
        fun _ s' rest => s' = .inHead levels true ∧ rest.length < us.length :=
      surveys_groupTail rfl true head.listed (by omega)
    have htail : Surveys o finish (.inHead levels true)
        (groupTail rounds true head.listed >>= fun listed =>
          Pure.pure (some { head with listed, grouped := true })) us fun x s' rest =>
        (x = none → s'.Rests levels rest) ∧ ∀ head', x = some head' →
          s' = .inHead levels head'.grouped ∧ rest.length < us.length + 1 := by
      refine hgroup.bind fun listed s' rest _ h => .pure ⟨by simp, fun head' hhead => ?_⟩
      cases hhead
      exact ⟨h.1, Nat.lt_succ_of_lt h.2⟩
    have hreports : Reports o (.head head.grouped) [⟨.startAttributes, pos⟩]
        (Lookahead.of us).next
        (if head.grouped then [.warned ⟨.multipleAttributeGroups, o.place pos⟩] else []) := by
      cases head.grouped with
      | false => exact ⟨rfl, by simp⟩
      | true => exact ⟨rfl, by simp⟩
    have hrun := Surveyed.cons (s := .inHead levels head.grouped) (by simp) hreports htail
    cases hgrouped : head.grouped with
    | false =>
      rw [hgrouped] at hrun
      exact hrun
    | true =>
      rw [hgrouped] at hrun
      exact hrun
  | _ =>
    obtain rfl := hs.eq_inHead (by simp [Lookahead.of, Token.terminal, Lexeme.terminal])
    refine .pure ⟨fun _ => .inHead ?_, by simp⟩
    simp [Lookahead.of, headStarts, Token.terminal, Lexeme.terminal]

/-- Items of a head take tokens. -/
theorem length_lt_of_headStarts {items : List HeadItem} {rest : List Token}
    (hts : ts = items.flatMap HeadItem.tokens ++ rest)
    (hrest : (Lookahead.of rest).next ∉ headStarts)
    (hnext : (Lookahead.of ts).next ∈ headStarts) : rest.length < ts.length := by
  cases items with
  | nil =>
    obtain rfl : ts = rest := hts
    exact absurd hnext hrest
  | cons item items =>
    have hpos : 0 < item.tokens.length := by
      cases item <;> simp [HeadItem.tokens, Group.tokens]
    rw [hts, List.flatMap_cons, List.length_append, List.length_append]
    omega

/-- **A head comes to an end** in front of what begins no item of it. -/
theorem surveys_attributes (hs : HeadAt levels false s ts) (hrounds : ts.length < rounds) :
    Surveys o finish s (attributes rounds) ts fun _ s' rest => s'.Rests levels rest ∧
      ((Lookahead.of ts).next ∈ headStarts → rest.length < ts.length) := by
  have hloop : Surveys o finish s (iterate (headItem rounds) rounds .empty) ts
      fun _ s' rest => s'.Rests levels rest := by
    refine .iterate (I := fun head s ts => HeadAt levels head.grouped s ts ∧ ts.length < rounds)
      (fun head s ts h => ?_) hrounds ⟨hs, hrounds⟩
    obtain ⟨hhead, hlen⟩ := h
    refine (surveys_headItem head hhead hlen).mono fun x s' rest _ hx =>
      ⟨hx.1, fun head' hhead' => ?_⟩
    obtain ⟨hs', hless⟩ := hx.2 head' hhead'
    exact ⟨⟨.inl hs', by omega⟩, hless⟩
  have hattributes : Surveys o finish s (attributes rounds) ts
      fun _ s' rest => s'.Rests levels rest := hloop.bind_pure
  refine (hattributes.ensuring ensures_attributes).mono fun _ s' rest _ h => ⟨h.1, fun hnext => ?_⟩
  obtain ⟨items, hts, -, hrest⟩ := h.2
  exact length_lt_of_headStarts hts hrest hnext

end Head

section Text

variable {o : Options} {finish : Position} {inner : Inner} {size : Nat} {scope : Scope}
  {s : Standing} {levels : List Bool} {ts us : List Token} {pos : Position}

theorem surveys_interpolation (hi : inner.Surveys o finish size) (hlen : us.length < size)
    (hs : s.levels = levels) (hscope : scope.inMixin = levels.any id) :
    Surveys o finish s (interpolation inner scope) (⟨.startInterpolation, pos⟩ :: us)
      fun _ s' rest => s'.Rests levels rest ∧ rest.length < us.length := by
  subst hs
  refine .skip_bind (by decide) (.bind (hi.expr scope s.levels _ us hlen .behind hscope)
    fun node s' mid hmid h => .expect_bind (by decide) (by decide) fun t rest hrest ht => ?_)
  have hbehind : s'.next t = .behind s.levels := by
    rw [Standing.next_eq_behind (by rw [ht]; decide), h.levels_eq]
  rw [hbehind]
  refine .pure ⟨.behind, ?_⟩
  rw [hrest, List.length_cons] at hmid
  omega

/-- What a run of text or a verbatim region has in front of each of its parts. -/
def TextAt (levels : List Bool) (size : Nat) (s : Standing) (ts : List Token) : Prop :=
  s.Rests levels ts ∧ ts.length ≤ size

theorem surveys_runItem (hi : inner.Surveys o finish size) (hscope : scope.inMixin = levels.any id)
    (multiline : Bool) (hs : TextAt levels size s ts) :
    Surveys o finish s (runItem inner scope multiline) ts
      (Rounds (TextAt levels size) (fun s rest => s.Rests levels rest) ts.length) := by
  obtain ⟨hrests, hlen⟩ := hs
  have hlevels := hrests.levels_eq
  refine .peek_bind (fun hts => .locate_bind (.pure (.none (hts ▸ hrests)))) fun l pos us hts =>
    .locate_bind ?_
  subst hts
  rw [List.length_cons] at hlen
  have hbehind : ∀ {l : Lexeme}, l.terminal ∉ movers →
      TextAt levels size (s.next ⟨l, pos⟩) us := fun hl => ⟨.next hlevels hl, by omega⟩
  cases l with
  | text value =>
    exact .skip_bind (by simp [Lexeme.terminal, noticed])
      (.pure (.some (hbehind (by simp [Lexeme.terminal, movers])) (Nat.lt_succ_self _)))
  | interpolatedCode c =>
    exact .skip_bind (by simp [Lexeme.terminal, noticed])
      (.pure (.some (hbehind (by simp [Lexeme.terminal, movers])) (Nat.lt_succ_self _)))
  | startInterpolation =>
    refine (surveys_interpolation hi (by omega) hlevels hscope).bind fun node s' rest _ h =>
      .pure ?_
    exact .some ⟨h.1, by omega⟩ (by rw [List.length_cons]; omega)
  | newline =>
    cases multiline with
    | false => exact .pure (.none hrests)
    | true =>
      exact .skip_bind (by decide) (.any_bind fun t _ => .pure
        (.some (hbehind (by decide)) (Nat.lt_succ_self _)))
  | _ => exact .pure (.none hrests)

/-- **A run of text comes to an end.** -/
theorem surveys_textRun (hi : inner.Surveys o finish size) (hscope : scope.inMixin = levels.any id)
    (multiline : Bool) (hs : s.Rests levels ts) (hlen : ts.length ≤ size) :
    Surveys o finish s (textRun inner scope multiline) ts fun _ s' rest => s'.Rests levels rest :=
  .any_bind fun _ _ => .locate_bind (Surveys.bind_pure
    (.many (I := TextAt levels size) (fun _ _ h => surveys_runItem hi hscope multiline h)
      (Nat.lt_of_le_of_lt hlen hi.rounds) ⟨hs, hlen⟩))

theorem surveys_verbatimItem (hi : inner.Surveys o finish size)
    (hscope : scope.inMixin = levels.any id) (hs : TextAt levels size s ts) :
    Surveys o finish s (verbatimItem inner scope) ts
      (Rounds (TextAt levels size) (fun s rest => s.Rests levels rest) ts.length) := by
  obtain ⟨hrests, hlen⟩ := hs
  have hlevels := hrests.levels_eq
  refine .peek_bind (fun hts => .locate_bind (.reject rfl ⟨rfl, ?_⟩ (by simp)))
    fun l pos us hts => .locate_bind ?_
  · simp [Token.terminal, Lexeme.terminal]
  subst hts
  rw [List.length_cons] at hlen
  have hbehind : ∀ {l : Lexeme}, l.terminal ∉ movers →
      TextAt levels size (s.next ⟨l, pos⟩) us := fun hl => ⟨.next hlevels hl, by omega⟩
  cases l with
  | endPipelessText => exact .skip_bind (by decide) (.pure (.none (hbehind (by decide)).1))
  | text value =>
    exact .skip_bind (by simp [Lexeme.terminal, noticed])
      (.pure (.some (hbehind (by simp [Lexeme.terminal, movers])) (Nat.lt_succ_self _)))
  | newline =>
    exact .skip_bind (by decide) (.pure (.some (hbehind (by decide)) (Nat.lt_succ_self _)))
  | interpolatedCode c =>
    exact .skip_bind (by simp [Lexeme.terminal, noticed])
      (.pure (.some (hbehind (by simp [Lexeme.terminal, movers])) (Nat.lt_succ_self _)))
  | startInterpolation =>
    refine (surveys_interpolation hi (by omega) hlevels hscope).bind fun node s' rest _ h =>
      .pure ?_
    exact .some ⟨h.1, by omega⟩ (by rw [List.length_cons]; omega)
  | _ => exact .reject rfl ⟨rfl, by simp [Token.terminal, Lexeme.terminal]⟩ (by simp)

/-- **A verbatim region comes to an end.** -/
theorem surveys_verbatim? (hi : inner.Surveys o finish size)
    (hscope : scope.inMixin = levels.any id) (hs : s.Rests levels ts) (hlen : ts.length ≤ size) :
    Surveys o finish s (verbatim? inner scope) ts fun _ s' rest => s'.Rests levels rest := by
  refine .peek_bind (fun hts => .pure (hts ▸ hs)) fun l pos us hts => ?_
  subst hts
  split
  · rename_i h
    obtain rfl : l = .startPipelessText := Lexeme.eq_of_terminal h rfl
    rw [List.length_cons] at hlen
    have hus : TextAt levels size (s.next ⟨.startPipelessText, pos⟩) us := by
      rw [← hs.levels_eq]
      exact ⟨.behind, by omega⟩
    have hr := hi.rounds
    exact .skip_bind (by decide) (.locate_bind (Surveys.bind_pure
      (.many (I := TextAt levels size) (fun _ _ h => surveys_verbatimItem hi hscope h)
        (by omega) hus)))
  · exact .pure hs

theorem surveys_verbatimAt (hi : inner.Surveys o finish size)
    (hscope : scope.inMixin = levels.any id) (hs : s.Rests levels ts) (hlen : ts.length ≤ size)
    (loc : Location) :
    Surveys o finish s (verbatimAt inner scope loc) ts fun _ s' rest => s'.Rests levels rest :=
  (surveys_verbatim? hi hscope hs hlen).bind_pure

end Text

section Element

variable {o : Options} {finish : Position} {inner : Inner} {size : Nat} {scope : Scope}
  {s : Standing} {levels : List Bool} {ts us : List Token} {pos : Position}

/-- Where nothing goes on, an indent opens a level that is no body of a mixin. -/
theorem any_levels_of_rests (hs : s.Rests levels ts) (hindent : (Lookahead.of ts).next = .indent) :
    (s.afterMixin :: s.levels).any id = levels.any id := by
  have hafter : s.afterMixin = false := by
    cases h : s.afterMixin with
    | false => rfl
    | true => exact absurd hindent (hs.calm.body h)
  rw [hafter, hs.levels_eq]
  rfl

theorem surveys_block? (hi : inner.Surveys o finish size) (hscope : scope.inMixin = levels.any id)
    (hs : s.Rests levels ts) (hlen : (Lookahead.of ts).next = .indent → ts.length < size) :
    Surveys o finish s (inner.block? scope) ts fun _ s' rest => s'.Rests levels rest := by
  refine .lookingAt_bind ?_
  split
  · rename_i h
    have hindent : (Lookahead.of ts).next = .indent := of_decide_eq_true h
    have hblock := hi.block scope s ts (hlen hindent)
      (hscope.trans (any_levels_of_rests hs hindent).symm)
    refine hblock.bind fun b s' rest _ h => .pure ?_
    rw [h, hs.levels_eq]
    exact .behind
  · exact .pure hs

theorem surveys_blockAt (hi : inner.Surveys o finish size) (hscope : scope.inMixin = levels.any id)
    (hs : s.Rests levels ts) (hlen : (Lookahead.of ts).next = .indent → ts.length < size)
    (loc : Location) :
    Surveys o finish s (inner.blockAt scope loc) ts fun _ s' rest => s'.Rests levels rest :=
  (surveys_block? hi hscope hs hlen).bind_pure

theorem surveys_content (hi : inner.Surveys o finish size) (hscope : scope.inMixin = levels.any id)
    (hs : s.Rests levels ts) (hlen : ts.length ≤ size) (loc : Location) (closable : Bool) :
    Surveys o finish s (content inner scope loc closable) ts fun _ s' rest =>
      s'.Rests levels rest := by
  have hexpected : Content.terminals closable ∈ expectations := by cases closable <;> decide
  have hlevels := hs.levels_eq
  refine .peek_bind (fun hts => .locate_bind (.pure (hts ▸ hs))) fun l pos us hts =>
    .locate_bind ?_
  subst hts
  have hbehind : ∀ {l : Lexeme}, l.terminal ∉ movers → (s.next ⟨l, pos⟩).Rests levels us :=
    .next hlevels
  cases l with
  | text value => exact (surveys_textRun hi hscope false hs hlen).bind_pure
  | interpolatedCode c => exact (surveys_textRun hi hscope false hs hlen).bind_pure
  | code c =>
    exact .skip_bind (by simp [Lexeme.terminal, noticed])
      (.pure (hbehind (by simp [Lexeme.terminal, movers])))
  | colon =>
    rw [List.length_cons] at hlen
    exact .skip_bind (by decide) (Surveys.bind_pure
      (hi.expr scope levels _ us (by omega) (hbehind (by decide)) hscope))
  | slash =>
    cases closable with
    | false => exact .unexpected rfl hexpected (by simp [Token.terminal, Lexeme.terminal,
        Content.terminals])
    | true => exact .skip_bind (by decide) (.pure (hbehind (by decide)))
  | newline => exact .pure hs
  | indent => exact .pure hs
  | outdent => exact .pure hs
  | eos => exact .pure hs
  | startPipelessText => exact .pure hs
  | endInterpolation => exact .pure hs
  | _ =>
    refine .unexpected rfl hexpected ?_
    cases closable <;> simp [Token.terminal, Lexeme.terminal, Content.terminals]

/-- **What follows the name of an element comes to an end.** A shorthand, which the element may
begin with, is part of it. -/
theorem surveys_body (hi : inner.Surveys o finish size) (hscope : scope.inMixin = levels.any id)
    (hs : HeadAt levels false s ts)
    (hlen : ts.length < size ∨ ts.length ≤ size ∧ (Lookahead.of ts).next ∈ headStarts)
    (loc : Location) (closable : Bool) :
    Surveys o finish s (body inner scope loc closable) ts fun _ s' rest =>
      s'.Rests levels rest := by
  have hr := hi.rounds
  refine (surveys_attributes hs (by omega)).bind fun attrs s' mid hle h => ?_
  obtain ⟨hs', hless⟩ := h
  have hmid : mid.length < size := by
    rcases hlen with hlt | ⟨hle', hnext⟩
    · omega
    · exact Nat.lt_of_lt_of_le (hless hnext) hle'
  have hline : ∀ textOnly : Bool, ∀ s us, s.Rests levels us → us.length < size →
      Surveys o finish s (do
        let line ← content inner scope loc closable
        skipNewlines
        let block ← tail inner scope loc textOnly line.block
        return (⟨attrs, line.selfClosing, textOnly, block⟩ : Body)) us
        fun _ s' rest => s'.Rests levels rest := by
    intro textOnly s us hs hus
    refine (surveys_content hi hscope hs (Nat.le_of_lt hus) loc closable).bind
      fun line s' vs hvs hs' => .skipNewlines_bind hs' fun s'' ws hws hs'' _ => ?_
    cases textOnly with
    | false =>
      exact Surveys.bind_pure ((surveys_blockAt hi hscope hs'' (fun _ => by omega) loc).bind_pure)
    | true => exact (surveys_verbatimAt hi hscope hs'' (by omega) loc).bind_pure
  refine .accept_bind (by decide) (fun t us hts ht => ?_) fun _ => hline false s' mid hs' hmid
  subst hts
  rw [Standing.next_eq_behind (by rw [ht]; decide), hs'.levels_eq]
  exact hline true _ us .behind (Nat.lt_of_succ_lt hmid)

theorem surveys_element (hi : inner.Surveys o finish size) (hscope : scope.inMixin = levels.any id)
    (hs : HeadAt levels false s ts)
    (hlen : ts.length < size ∨ ts.length ≤ size ∧ (Lookahead.of ts).next ∈ headStarts)
    (name : String) (loc : Location) :
    Surveys o finish s (element inner scope name loc) ts fun _ s' rest => s'.Rests levels rest :=
  (surveys_body hi hscope hs hlen loc true).bind_pure

theorem surveys_interpolatedElement (hi : inner.Surveys o finish size)
    (hscope : scope.inMixin = levels.any id) (hlen : ts.length < size) (e : String)
    (loc : Location) :
    Surveys o finish (.inHead levels false) (interpolatedElement inner scope e loc) ts
      fun _ s' rest => s'.Rests levels rest :=
  (surveys_body hi hscope (.inl rfl) (.inl hlen) loc true).bind_pure

theorem surveys_call (hi : inner.Surveys o finish size) (hscope : scope.inMixin = levels.any id)
    (hlen : ts.length < size) (name : String) (args : Option String) (loc : Location) :
    Surveys o finish (.inHead levels false) (call inner scope name args loc) ts fun _ s' rest =>
      s'.Rests levels rest :=
  (surveys_body hi hscope (.inl rfl) (.inl hlen) loc false).bind_pure

/-- **A shorthand begins a head** where none is. -/
theorem surveys_shorthandElement (hi : inner.Surveys o finish size)
    (hscope : scope.inMixin = levels.any id) (first : Shorthand)
    (hs : s.Rests levels (first.token :: us)) (hlen : (first.token :: us).length ≤ size) :
    Surveys o finish s (shorthandElement inner scope first.pos) (first.token :: us)
      fun _ s' rest => s'.Rests levels rest := by
  have hstart : (Lookahead.of (first.token :: us)).next ∈ headStarts :=
    first.terminal_mem_headStarts
  have hsite : s.site = .open := by
    have hended := hs.calm.ended
    cases h : s.site with
    | «open» => rfl
    | head grouped =>
      rw [h] at hended
      exact absurd hstart hended
    | inclusion pos =>
      rw [h] at hended
      exact hended.elim
  have hshorthand : (Lookahead.of (first.token :: us)).next ∈ [.idName, .className] := by
    cases first <;> simp [Lookahead.of, Shorthand.token, Token.terminal, Lexeme.terminal]
  unfold Surveys
  rw [run_shorthandElement]
  refine Surveyed.after (by simp [Event.warning?]) (surveys_element hi hscope
    (.inr ⟨hs.levels_eq, hsite, rfl, hshorthand⟩) (.inr ⟨hlen, hstart⟩) _ _)

end Element

end Grammar
end Pug
