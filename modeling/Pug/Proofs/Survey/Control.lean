/-
# What lists, blocks and control structures go past

A list of productions goes past its items, each of which leaves the levels as they are, up to
the terminal that ends it. A block opens a level, goes past a list on it, and closes it. Every
round of a loop goes past a token, so that the rounds of a list suffice for its tokens.
-/

import Pug.Proofs.Complaint.Control
import Pug.Proofs.Survey.Element

namespace Pug

open Reader

namespace Grammar

variable {o : Options} {finish : Position} {inner : Inner} {size : Nat} {scope : Scope}
  {s : Standing} {levels : List Bool} {ts us : List Token} {pos : Position}

section Html

/-- What a sequence of HTML lines has in front of each of its parts; only the first line may
be too much for the readers of what is nested. -/
def HtmlAt (levels : List Bool) (size : Nat) (s : Standing) (ts : List Token) : Prop :=
  s.Rests levels ts ∧
    (ts.length < size ∨ ts.length ≤ size ∧ (Lookahead.of ts).next = .textHtml)

theorem surveys_htmlItem (hi : inner.Surveys o finish size)
    (hscope : scope.inMixin = levels.any id) (hs : HtmlAt levels size s ts) :
    Surveys o finish s (htmlItem inner scope) ts
      (Rounds (HtmlAt levels size) (fun s rest => s.Rests levels rest) ts.length) := by
  obtain ⟨hrests, hlen⟩ := hs
  have hlevels := hrests.levels_eq
  refine .peek_bind (fun hts => .pure (.none (hts ▸ hrests))) fun l pos us hts => ?_
  subst hts
  rw [List.length_cons] at hlen
  have hbehind : ∀ {l : Lexeme}, l.terminal ∉ movers →
      HtmlAt levels size (s.next ⟨l, pos⟩) us :=
    fun hl => ⟨.next hlevels hl, .inl (by omega)⟩
  cases l with
  | textHtml value =>
    exact .skip_bind (by simp [Lexeme.terminal, noticed]) (.locate_bind
      (.pure (.some (hbehind (by simp [Lexeme.terminal, movers])) (Nat.lt_succ_self _))))
  | newline =>
    exact .skip_bind (by decide) (.pure (.some (hbehind (by decide)) (Nat.lt_succ_self _)))
  | indent =>
    have hsize : us.length + 1 < size := by
      rcases hlen with hlt | ⟨-, hnext⟩
      · exact hlt
      · cases hnext
    have hblock : Surveys o finish s (inner.block scope) (⟨.indent, pos⟩ :: us) fun _ s' rest =>
        s' = .behind s.levels ∧ rest.length < us.length + 1 :=
      hi.block_progress (hscope.trans (any_levels_of_rests hrests rfl).symm) hsize
    refine hblock.bind fun b s' rest _ h => .pure ?_
    rw [h.1, hlevels]
    exact .some ⟨.behind, .inl (Nat.lt_trans h.2 hsize)⟩ h.2
  | _ => exact .pure (.none hrests)

/-- **A sequence of HTML lines comes to an end.** -/
theorem surveys_html (hi : inner.Surveys o finish size) (hscope : scope.inMixin = levels.any id)
    (hs : HtmlAt levels size s ts) :
    Surveys o finish s (html inner scope) ts fun _ s' rest => s'.Rests levels rest := by
  have hlen : ts.length ≤ size := hs.2.elim Nat.le_of_lt And.left
  have hr := hi.rounds
  rw [html_eq]
  exact Surveys.bind_pure (.many (I := HtmlAt levels size)
    (fun _ _ h => surveys_htmlItem hi hscope h) (by omega) hs)

end Html

section Items

/-- What a list has in front of each of its items. -/
def ItemAt (levels : List Bool) (size : Nat) (s : Standing) (ts : List Token) : Prop :=
  s.Rests levels ts ∧ ts.length < size

/-- In front of the terminal that ends a list on `levels`. -/
def EndAt (levels : List Bool) (stop : Terminal) (s : Standing) (ts : List Token) : Prop :=
  s.Rests levels ts ∧ (Lookahead.of ts).next = stop

theorem surveys_item (hi : inner.Surveys o finish size) (hscope : scope.inMixin = levels.any id)
    (stop : Terminal) (hs : ItemAt levels size s ts) :
    Surveys o finish s (item inner scope stop) ts
      (Rounds (ItemAt levels size) (EndAt levels stop) ts.length) := by
  obtain ⟨hrests, hlen⟩ := hs
  have hexpr : Surveys o finish s (inner.expr scope >>= fun node => pure (some node.spliced)) ts
      (Rounds (ItemAt levels size) (EndAt levels stop) ts.length) :=
    (hi.expr_progress hscope hrests hlen).bind fun _ _ _ _ h =>
      .pure (.some ⟨h.1, Nat.lt_trans h.2 hlen⟩ h.2)
  refine .peek_bind (fun hts => ?_) fun l pos us hts => ?_
  · subst hts
    split
    · rename_i h
      exact .pure (.none ⟨hrests, h⟩)
    · exact hexpr
  · subst hts
    split
    · rename_i h
      exact .pure (.none ⟨hrests, h⟩)
    · cases l with
      | newline =>
        refine .skip_bind (by decide) (.pure (.some ⟨?_, Nat.lt_of_succ_lt hlen⟩
          (Nat.lt_succ_self _)))
        rw [← hrests.levels_eq]
        exact .behind
      | textHtml value =>
        have hhtml := (surveys_html hi hscope ⟨hrests, .inl hlen⟩).ensuring
          (ensures_html hi.sound)
        refine hhtml.bind fun nodes s' rest _ h => .pure ?_
        have hless := h.2.length_lt Derivation.length_expr_pos
        exact .some ⟨h.1, Nat.lt_trans hless hlen⟩ hless
      | _ => exact hexpr

/-- **A list of productions comes to the terminal that ends it.** -/
theorem surveys_items (hi : inner.Surveys o finish size) (hscope : scope.inMixin = levels.any id)
    (stop : Terminal) (hs : ItemAt levels size s ts) :
    Surveys o finish s (items inner scope stop) ts fun _ => EndAt levels stop :=
  Surveys.bind_pure (.many (I := ItemAt levels size)
    (fun _ _ h => surveys_item hi hscope stop h) (Nat.lt_trans hs.2 hi.rounds) hs)

/-- The outdent that ends a list closes the level of the list. -/
theorem surveys_outdent {α : Type} {level : Bool} {a : α}
    (hs : EndAt (level :: levels) .outdent s ts) :
    Surveys o finish s (skip >>= fun _ => pure a) ts fun _ s' _ => s' = .behind levels := by
  obtain ⟨hrests, hnext⟩ := hs
  obtain ⟨pos, us, rfl⟩ := Lookahead.exists_cons_of_next hnext rfl (by decide)
  refine .skip_bind (by decide) (.pure ?_)
  have hlevels : s.levels.tail = levels := congrArg List.tail hrests.levels_eq
  exact congrArg Standing.behind hlevels

/-- **A block opens a level and closes it.** -/
theorem surveys_block (hi : inner.Surveys o finish size)
    (hscope : scope.inMixin = (s.afterMixin :: s.levels).any id) (hlen : ts.length ≤ size) :
    Surveys o finish s (Grammar.block inner scope) ts fun _ s' _ => s' = .behind s.levels := by
  refine .expect_bind (by decide) (by decide) fun t us hts ht => .locate_bind ?_
  rcases t with ⟨l, pos⟩
  obtain rfl : l = .indent := Lexeme.eq_of_terminal ht rfl
  subst hts
  exact (surveys_items hi hscope .outdent ⟨.behind, hlen⟩).bind fun _ _ _ _ h => surveys_outdent h

end Items

section Case

theorem surveys_expansion (hi : inner.Surveys o finish size)
    (hscope : scope.inMixin = levels.any id) (hlen : ts.length < size) :
    Surveys o finish (.behind levels) (expansion inner scope) ts fun _ s' rest =>
      s'.Rests levels rest := by
  have hblock : Surveys o finish (.behind levels) (inner.block scope) ts fun _ s' rest =>
      s'.Rests levels rest :=
    (hi.block scope (.behind levels) ts hlen hscope).mono fun _ _ _ _ h => h ▸ .behind
  refine .peek_bind (fun hts => hts ▸ hblock) fun l pos us hts => ?_
  subst hts
  split
  · rename_i h
    obtain rfl : l = .colon := Lexeme.eq_of_terminal h rfl
    exact .skip_bind (by decide) (.locate_bind (Surveys.bind_pure
      (hi.expr scope levels _ us (Nat.lt_of_succ_lt hlen) .behind hscope)))
  · exact hblock

theorem surveys_whenBody (hi : inner.Surveys o finish size)
    (hscope : scope.inMixin = levels.any id) (hlen : ts.length < size) :
    Surveys o finish (.behind levels) (whenBody inner scope) ts fun _ s' rest =>
      s'.Rests levels rest := by
  refine .any_bind fun t _ => ?_
  split
  · exact .pure .behind
  · exact (surveys_expansion hi hscope hlen).bind_pure

theorem surveys_caseItem (hi : inner.Surveys o finish size)
    (hscope : scope.inMixin = levels.any id) (hs : ItemAt levels size s ts) :
    Surveys o finish s (caseItem inner scope) ts
      (Rounds (ItemAt levels size) (EndAt levels .outdent) ts.length) := by
  obtain ⟨hrests, hlen⟩ := hs
  refine .peek_bind (fun hts => .locate_bind (.unexpected rfl (by decide) ?_)) fun l pos us hts =>
    .locate_bind ?_
  · simp [Token.terminal, Lexeme.terminal]
  subst hts
  have hus : us.length < size := Nat.lt_of_succ_lt hlen
  have hbehind : ∀ {l : Lexeme}, l.terminal ∉ movers → s.next ⟨l, pos⟩ = .behind levels := by
    intro l hl
    rw [Standing.next_eq_behind (by exact hl), hrests.levels_eq]
  have hsome : ∀ {nodes : List Node} {s' : Standing} {rest : List Token},
      rest.length ≤ us.length → s'.Rests levels rest → Surveys o finish s' (pure (some nodes)) rest
        (Rounds (ItemAt levels size) (EndAt levels .outdent) (us.length + 1)) :=
    fun hle h => .pure (.some ⟨h, by omega⟩ (by omega))
  cases l with
  | outdent => exact .pure (.none ⟨hrests, rfl⟩)
  | comment value buffered =>
    refine .skip_bind (by simp [Lexeme.terminal, noticed]) (hsome (Nat.le_refl _) ?_)
    rw [hbehind (by simp [Lexeme.terminal, movers])]
    exact .behind
  | newline =>
    refine .skip_bind (by decide) (hsome (Nat.le_refl _) ?_)
    rw [hbehind (by decide)]
    exact .behind
  | when e =>
    refine .skip_bind (by simp [Lexeme.terminal, noticed]) ?_
    rw [hbehind (by simp [Lexeme.terminal, movers])]
    exact (surveys_whenBody hi hscope hus).bind fun _ _ _ hle h => hsome hle h
  | default =>
    refine .skip_bind (by decide) ?_
    rw [hbehind (by decide)]
    exact (surveys_expansion hi hscope hus).bind fun _ _ _ hle h => hsome hle h
  | _ => exact .unexpected rfl (by decide) (by simp [Token.terminal, Lexeme.terminal])

/-- **A case comes to its outdent.** -/
theorem surveys_caseOf (hi : inner.Surveys o finish size) (hscope : scope.inMixin = levels.any id)
    (hlen : ts.length < size) (e : String) (loc : Location) :
    Surveys o finish (.behind levels) (caseOf inner scope e loc) ts fun _ s' rest =>
      s'.Rests levels rest := by
  refine .expect_bind (by decide) (by decide) fun t us hts ht => .locate_bind ?_
  rcases t with ⟨l, pos⟩
  obtain rfl : l = .indent := Lexeme.eq_of_terminal ht rfl
  subst hts
  have hus : us.length < size := Nat.lt_of_succ_lt hlen
  have hlevels : scope.inMixin = (false :: levels).any id := hscope
  refine (Surveys.many (I := ItemAt (false :: levels) size)
    (fun _ _ h => surveys_caseItem hi hlevels h) (Nat.lt_trans hus hi.rounds)
    ⟨.behind, hus⟩).bind fun lists s' rest _ h => ?_
  exact (surveys_outdent h).mono fun _ _ _ _ h => h ▸ .behind

end Case

section Conditional

/-- **The alternates of a conditional come to an end.** Line breaks that no alternate follows
are not gone past. -/
theorem surveys_alternates (hi : inner.Surveys o finish size)
    (hscope : scope.inMixin = levels.any id) {rounds : Nat} (hrounds : ts.length < rounds)
    (hlen : ts.length ≤ size) (hs : s.Rests levels ts) :
    Surveys o finish s (alternates inner scope rounds) ts fun _ s' rest =>
      s'.Rests levels rest := by
  induction rounds generalizing s ts with
  | zero => exact absurd hrounds (Nat.not_lt_zero _)
  | succ rounds ih =>
    refine .past_bind (fun _ _ => .pure hs) fun newlines l pos us hts hl => ?_
    subst hts
    rw [List.length_append, List.length_cons] at hrounds hlen
    cases l with
    | elseIf test =>
      refine .skipNewlines_cons hs hl fun s' hs' =>
        .skip_bind (by simp [Lexeme.terminal, noticed]) (.locate_bind ?_)
      have hus : (s'.next ⟨.elseIf test, pos⟩).Rests levels us :=
        .next hs'.levels_eq (by simp [Lexeme.terminal, movers])
      exact (surveys_blockAt hi hscope hus (fun _ => by omega) _).bind fun _ s'' mid hmid h =>
        (ih (by omega) (by omega) h).bind_pure
    | «else» =>
      refine .skipNewlines_cons hs hl fun s' hs' => .skip_bind (by decide) ?_
      have hus : (s'.next ⟨.else, pos⟩).Rests levels us := .next hs'.levels_eq (by decide)
      exact (surveys_block? hi hscope hus fun _ => by omega).bind_pure
    | _ => exact .pure hs

theorem surveys_conditional (hi : inner.Surveys o finish size)
    (hscope : scope.inMixin = levels.any id) (hlen : ts.length < size) (test : String)
    (loc : Location) :
    Surveys o finish (.behind levels) (conditional inner scope test loc) ts fun _ s' rest =>
      s'.Rests levels rest := by
  have hr := hi.rounds
  exact (surveys_blockAt hi hscope .behind (fun _ => hlen) loc).bind fun _ s' mid hmid h =>
    (surveys_alternates hi hscope (by omega) (by omega) h).bind_pure

end Conditional

section Loop

theorem surveys_eachLoop (hi : inner.Surveys o finish size)
    (hscope : scope.inMixin = levels.any id) (hlen : ts.length < size) (iteration : Iteration)
    (loc : Location) :
    Surveys o finish (.behind levels) (eachLoop inner scope iteration loc) ts fun _ s' rest =>
      s'.Rests levels rest := by
  refine (hi.block scope (.behind levels) ts hlen hscope).bind fun body s' mid hmid h => ?_
  subst h
  have halternate : Surveys o finish (.behind levels) (emptyCase inner scope) mid
      fun _ s' rest => s'.Rests levels rest := by
    refine .accept_bind (by decide) (fun t us hts ht => ?_) fun _ => .pure .behind
    rw [Standing.next_eq_behind (by rw [ht]; decide)]
    rw [hts, List.length_cons] at hmid
    refine (hi.block scope (.behind levels) us (by omega) hscope).bind fun _ s'' rest _ h =>
      .pure ?_
    exact h ▸ .behind
  exact halternate.bind_pure

theorem surveys_whileLoop (hi : inner.Surveys o finish size)
    (hscope : scope.inMixin = levels.any id) (hlen : ts.length < size) (test : String)
    (loc : Location) :
    Surveys o finish (.behind levels) (whileLoop inner scope test loc) ts fun _ s' rest =>
      s'.Rests levels rest :=
  (surveys_blockAt hi hscope .behind (fun _ => hlen) loc).bind_pure

end Loop

end Grammar
end Pug
