/-
# Verbatim regions

Two readers take verbatim regions: one makes a block of a region, and the other one a piece of
code. In a region of text and line breaks they agree: each token is a text node of the block, a
line break too, and the code is all these texts put together. A block may hold pieces of code and
interpolations besides. Each reader refuses the first token that it cannot go on with, if that does
not end the region.
-/

import Pug.Proofs.Inline

namespace Pug

open Grammar

namespace Reader

variable {α ι : Type} {o : Options} {item : Reader (Option α)} {tokens : ι → List Token}
  {value : ι → α} {u : List ι} {rounds : Nat}
  (hitem : ∀ i ∈ u, ∀ rest, ∃ events, item.Takes o (tokens i) rest (some (value i)) events)
  (hrounds : u.length < rounds)
include hitem hrounds

/-- **A loop goes on behind the rounds that give values.** -/
theorem run_many_append (finish : Position) (rest : List Token) : ∃ more events,
    (many item rounds).run o (.before finish (u.flatMap tokens ++ rest)) =
      (((many item (more + 1)).run o (.before finish rest)).andThen fun values c =>
        ⟨.done (u.map value ++ values) c, []⟩).after events := by
  induction u generalizing rounds with
  | nil =>
    obtain ⟨rounds, rfl⟩ := Nat.exists_eq_add_one_of_ne_zero (Nat.ne_zero_of_lt hrounds)
    exact ⟨rounds, [], (Run.andThen_done_self _).symm⟩
  | cons i u ih =>
    obtain ⟨rounds, rfl⟩ := Nat.exists_eq_add_one_of_ne_zero (Nat.ne_zero_of_lt hrounds)
    obtain ⟨more, later, hmore⟩ := ih (fun j hj => hitem j (List.mem_cons_of_mem i hj))
      (Nat.lt_of_succ_lt_succ hrounds)
    obtain ⟨events, hi⟩ := hitem i List.mem_cons_self (u.flatMap tokens ++ rest)
    refine ⟨more, events ++ later, ?_⟩
    rw [many, run_bind, List.flatMap_cons, List.append_assoc, hi finish]
    simp only [Run.andThen_done, run_bind, hmore, Run.andThen_after, Run.andThen_andThen,
      Run.after_after, run_pure, Run.after_nil, List.map_cons, List.cons_append]

/-- A loop ends behind them with the round that declines. -/
theorem run_many_of_none {finish : Position} {rest : List Token} {c : Cursor}
    (h : item.run o (.before finish rest) = ⟨.done none c, []⟩) :
    ∃ events, (many item rounds).run o (.before finish (u.flatMap tokens ++ rest)) =
      ⟨.done (u.map value) c, events⟩ := by
  obtain ⟨more, events, hrun⟩ := run_many_append hitem hrounds finish rest
  refine ⟨events, ?_⟩
  rw [hrun, many, run_bind, h]
  simp [Run.after]

/-- A loop fails behind them as its next round does. -/
theorem run_many_of_failed {finish : Position} {rest : List Token} {e : ParseError}
    (h : item.run o (.before finish rest) = ⟨.failed e, []⟩) :
    ∃ events, (many item rounds).run o (.before finish (u.flatMap tokens ++ rest)) =
      ⟨.failed e, events⟩ := by
  obtain ⟨more, events, hrun⟩ := run_many_append hitem hrounds finish rest
  refine ⟨events, ?_⟩
  rw [hrun, many, run_bind, h]
  simp [Run.after]

end Reader

namespace Inline

variable {o : Options} {scope : Scope}

/-- **The reader of a block takes an item in one round.** -/
theorem takes_verbatimItem {n : Nat} (i : Inline o scope) (hi : i.tokens.length < n)
    (rest : List Token) :
    ∃ events, (verbatimItem (.ofDepth n) scope).Takes o i.tokens rest (some i.node) events := by
  obtain ⟨n, rfl⟩ := Nat.exists_eq_add_one_of_ne_zero (Nat.ne_zero_of_lt hi)
  by_cases hline : i.isNewline = false
  · obtain ⟨f, htokens, hnode, hg, hl⟩ := i.exists_fragment hline
    rw [← htokens, ← hnode]
    exact ⟨_, takes_verbatimItem_fragment (covers_ofDepth o n) f
      (htokens ▸ Nat.le_of_lt_succ hi) (hg _) hl⟩
  · cases i with
    | newline pos => exact ⟨_, .peek_bind (.locate_bind (.skip_bind .pure))⟩
    | _ => exact absurd rfl hline

theorem length_tokens_pos (i : Inline o scope) : 0 < i.tokens.length := by
  cases i <;> exact Nat.succ_pos _

/-- There are no more items than tokens. -/
theorem length_le_tokens (u : List (Inline o scope)) : u.length ≤ (u.flatMap tokens).length := by
  induction u with
  | nil => exact Nat.le_refl 0
  | cons i u ih =>
    have hi := i.length_tokens_pos
    rw [List.flatMap_cons, List.length_append, List.length_cons]
    omega

theorem length_tokens_le {i : Inline o scope} {u : List (Inline o scope)} (hi : i ∈ u) :
    i.tokens.length ≤ (u.flatMap tokens).length := by
  obtain ⟨v, w, rfl⟩ := List.append_of_mem hi
  rw [List.flatMap_append, List.flatMap_cons, List.length_append, List.length_append]
  omega

end Inline

namespace CodeToken

/-- The node of a part of a region in a block. -/
def node (o : Options) (t : CodeToken) : Node := .text t.source false (o.place t.token.pos)

/-- A part of a region as an item of a text. -/
def inline {o : Options} {scope : Scope} : CodeToken → Inline o scope
  | text value pos => .plain (.text value pos)
  | newline pos => .newline pos

variable {o : Options} {scope : Scope}

theorem tokens_inline (u : List CodeToken) :
    (u.map inline : List (Inline o scope)).flatMap Inline.tokens = u.map token := by
  rw [List.flatMap_map, List.map_eq_flatMap]
  exact congrArg (List.flatMap · u) (funext fun t => by cases t <;> rfl)

theorem node_inline (u : List CodeToken) :
    (u.map inline : List (Inline o scope)).map Inline.node = u.map (node o) := by
  rw [List.map_map]
  exact congrArg (List.map · u) (funext fun t => by cases t <;> rfl)

/-- **The reader of code takes a part in one round.** -/
theorem takes_codeItem (t : CodeToken) (rest : List Token) :
    codeItem.Takes o [t.token] rest (some t.source) [] := by
  cases t with
  | text value pos => exact .peek_bind (.skip_bind .pure)
  | newline pos => exact .peek_bind (.skip_bind .pure)

end CodeToken

namespace Grammar

variable {o : Options} {scope : Scope} {n : Nat} {pos start stop finish : Position}
  {ts rest : List Token}

theorem run_verbatim? (inner : Inner) :
    (verbatim? inner scope).run o (.before finish (⟨.startPipelessText, start⟩ :: ts)) =
      ((Reader.many (verbatimItem inner scope) inner.rounds).run o (.before finish ts)).andThen
        fun nodes c => ⟨.done (some ⟨nodes, o.place start⟩) c, []⟩ := rfl

theorem run_expr_blockCode (inner : Inner) :
    (expr inner scope).run o
        (.before finish (⟨.blockCode, pos⟩ :: ⟨.startPipelessText, start⟩ :: ts)) =
      ((Reader.many codeItem inner.rounds).run o (.before finish ts)).andThen fun parts c =>
        ⟨.done (.code ⟨String.join parts, false, false⟩ false none (o.place pos)) c, []⟩ := by
  have haccept : (Reader.accept .startPipelessText).run o
      (.before finish (⟨.startPipelessText, start⟩ :: ts)) = ⟨.done true (.before finish ts), []⟩ :=
    Reader.run_accept o _ .startPipelessText
  change (blockCode inner.rounds (o.place pos)).run o
    (.before finish (⟨.startPipelessText, start⟩ :: ts)) = _
  simp only [blockCode, codeRegion, Reader.run_bind, haccept, Run.andThen_done, Run.after_nil,
    if_true, Run.andThen_andThen, Reader.run_pure]

/-- The reader of a block refuses a token that is no item and does not end the region. -/
theorem run_verbatimItem_of_notMem (inner : Inner) {c : Cursor}
    (h : c.peek.terminal ∉
      [.text, .newline, .interpolatedCode, .startInterpolation, .endPipelessText]) :
    (verbatimItem inner scope).run o c =
      ⟨.failed ⟨.malformedVerbatim c.peek.terminal, o.place c.peek.pos⟩, []⟩ := by
  rw [verbatimItem, Reader.run_bind, Reader.run_peek, Run.andThen_done, Run.after_nil]
  generalize c.peek = t at h ⊢
  rcases t with ⟨l, pos⟩
  cases l <;> first | rfl | exact absurd h (by simp [Token.terminal, Lexeme.terminal])

/-- The reader of code refuses a token that is no part and does not end the region. -/
theorem run_codeItem_of_notMem {c : Cursor}
    (h : c.peek.terminal ∉ [.text, .newline, .endPipelessText]) :
    codeItem.run o c = ⟨.failed ⟨.malformedVerbatim c.peek.terminal, o.place c.peek.pos⟩, []⟩ := by
  rw [codeItem, Reader.run_bind, Reader.run_peek, Run.andThen_done, Run.after_nil]
  generalize c.peek = t at h ⊢
  rcases t with ⟨l, pos⟩
  cases l <;> first | rfl | exact absurd h (by simp [Token.terminal, Lexeme.terminal])

section Region

variable {u : List (Inline o scope)} (hn : (u.flatMap Inline.tokens).length < n)
include hn

/-- Each item of a region that is short enough is taken in one round. -/
theorem takes_verbatimItem_of_mem : ∀ i ∈ u, ∀ rest, ∃ events,
    (verbatimItem (.ofDepth n) scope).Takes o i.tokens rest (some i.node) events := fun i hi =>
  i.takes_verbatimItem (Nat.lt_of_le_of_lt (Inline.length_tokens_le hi) hn)

theorem length_lt_rounds : u.length < (Inner.ofDepth n).rounds := by
  rw [Inner.rounds_ofDepth]
  exact Nat.lt_of_le_of_lt (Inline.length_le_tokens u) hn

/-- **A region is made a block** of the nodes of its items. -/
theorem run_verbatim?_items : ∃ events, (verbatim? (.ofDepth n) scope).run o
      (.before finish (⟨.startPipelessText, start⟩ ::
        (u.flatMap Inline.tokens ++ ⟨.endPipelessText, stop⟩ :: rest))) =
    ⟨.done (some ⟨u.map Inline.node, o.place start⟩) (.before finish rest), events⟩ := by
  have hend : (verbatimItem (.ofDepth n) scope).run o
      (.before finish (⟨.endPipelessText, stop⟩ :: rest)) =
        ⟨.done none (.before finish rest), []⟩ := rfl
  obtain ⟨events, hrun⟩ := Reader.run_many_of_none (takes_verbatimItem_of_mem hn)
    (length_lt_rounds hn) hend
  refine ⟨events, ?_⟩
  rw [run_verbatim?, hrun]
  exact congrArg (Run.mk _) (List.append_nil events)

/-- **No block is made of a region** in which a token is no item. -/
theorem run_verbatim?_of_notMem (hnext : (Cursor.before finish rest).peek.terminal ∉
      [.text, .newline, .interpolatedCode, .startInterpolation, .endPipelessText]) :
    ∃ events, (verbatim? (.ofDepth n) scope).run o
        (.before finish (⟨.startPipelessText, start⟩ :: (u.flatMap Inline.tokens ++ rest))) =
      ⟨.failed ⟨.malformedVerbatim (Cursor.before finish rest).peek.terminal,
        o.place (Cursor.before finish rest).peek.pos⟩, events⟩ := by
  obtain ⟨events, hrun⟩ := Reader.run_many_of_failed (takes_verbatimItem_of_mem hn)
    (length_lt_rounds hn) (run_verbatimItem_of_notMem (.ofDepth n) hnext)
  refine ⟨events, ?_⟩
  rw [run_verbatim?, hrun, Run.andThen_failed]

end Region

section Code

variable {u : List CodeToken} (hn : u.length < n)
include hn

/-- **A region is made code,** which is the texts of its parts put together. -/
theorem run_expr_blockCode_parts : ∃ events, (expr (.ofDepth n) scope).run o
      (.before finish (⟨.blockCode, pos⟩ :: ⟨.startPipelessText, start⟩ ::
        (u.map CodeToken.token ++ ⟨.endPipelessText, stop⟩ :: rest))) =
    ⟨.done (.code ⟨String.join (u.map CodeToken.source), false, false⟩ false none (o.place pos))
      (.before finish rest), events⟩ := by
  have hrounds : u.length < (Inner.ofDepth n).rounds := by rwa [Inner.rounds_ofDepth]
  have hend : codeItem.run o (.before finish (⟨.endPipelessText, stop⟩ :: rest)) =
      ⟨.done none (.before finish rest), []⟩ := rfl
  obtain ⟨events, hrun⟩ := Reader.run_many_of_none
    (fun t (_ : t ∈ u) rest => ⟨[], t.takes_codeItem rest⟩) hrounds hend
  refine ⟨events, ?_⟩
  rw [run_expr_blockCode, List.map_eq_flatMap, hrun]
  exact congrArg (Run.mk _) (List.append_nil events)

/-- **No code is made of a region** in which a token is neither text nor a line break. -/
theorem run_expr_blockCode_of_notMem
    (hnext : (Cursor.before finish rest).peek.terminal ∉ [.text, .newline, .endPipelessText]) :
    ∃ events, (expr (.ofDepth n) scope).run o (.before finish (⟨.blockCode, pos⟩ ::
        ⟨.startPipelessText, start⟩ :: (u.map CodeToken.token ++ rest))) =
      ⟨.failed ⟨.malformedVerbatim (Cursor.before finish rest).peek.terminal,
        o.place (Cursor.before finish rest).peek.pos⟩, events⟩ := by
  have hrounds : u.length < (Inner.ofDepth n).rounds := by rwa [Inner.rounds_ofDepth]
  obtain ⟨events, hrun⟩ := Reader.run_many_of_failed
    (fun t (_ : t ∈ u) rest => ⟨[], t.takes_codeItem rest⟩) hrounds (run_codeItem_of_notMem hnext)
  refine ⟨events, ?_⟩
  rw [run_expr_blockCode, List.map_eq_flatMap, hrun, Run.andThen_failed]

end Code

/-- **The readers of verbatim regions lose nothing and agree.**

* In a region of text and line breaks, the block has one text node for each token, at its place. The
  code is the texts of these nodes put together. Both readers go past the region and no further.
* In a region that holds code and interpolations too, the block has one node for each item.
* Behind items that it takes, each reader refuses a token that is none and does not end the region.
  At the end of the input this is the end of the stream. -/
theorem verbatim_readers (o : Options) (scope : Scope) (n : Nat) (start finish : Position) :
    (∀ (u : List CodeToken) (pos stop : Position) (rest : List Token), u.length < n →
      let region : List Token := ⟨.startPipelessText, start⟩ ::
        (u.map CodeToken.token ++ ⟨.endPipelessText, stop⟩ :: rest)
      (∃ events, (verbatim? (.ofDepth n) scope).run o (.before finish region) =
        ⟨.done (some ⟨u.map (CodeToken.node o), o.place start⟩) (.before finish rest), events⟩) ∧
      ∃ events,
        (expr (.ofDepth n) scope).run o (.before finish (⟨.blockCode, pos⟩ :: region)) =
          ⟨.done (.code ⟨String.join (u.map CodeToken.source), false, false⟩ false none
            (o.place pos)) (.before finish rest), events⟩) ∧
    (∀ (u : List (Inline o scope)) (stop : Position) (rest : List Token),
      (u.flatMap Inline.tokens).length < n →
      ∃ events, (verbatim? (.ofDepth n) scope).run o (.before finish (⟨.startPipelessText, start⟩ ::
          (u.flatMap Inline.tokens ++ ⟨.endPipelessText, stop⟩ :: rest))) =
        ⟨.done (some ⟨u.map Inline.node, o.place start⟩) (.before finish rest), events⟩) ∧
    (∀ (u : List (Inline o scope)) (rest : List Token), (u.flatMap Inline.tokens).length < n →
      let next := (Cursor.before finish rest).peek
      next.terminal ∉ [.text, .newline, .interpolatedCode, .startInterpolation, .endPipelessText] →
      ∃ events, (verbatim? (.ofDepth n) scope).run o (.before finish (⟨.startPipelessText, start⟩ ::
          (u.flatMap Inline.tokens ++ rest))) =
        ⟨.failed ⟨.malformedVerbatim next.terminal, o.place next.pos⟩, events⟩) ∧
    ∀ (u : List CodeToken) (pos : Position) (rest : List Token), u.length < n →
      let next := (Cursor.before finish rest).peek
      next.terminal ∉ [.text, .newline, .endPipelessText] →
      ∃ events, (expr (.ofDepth n) scope).run o (.before finish (⟨.blockCode, pos⟩ ::
          ⟨.startPipelessText, start⟩ :: (u.map CodeToken.token ++ rest))) =
        ⟨.failed ⟨.malformedVerbatim next.terminal, o.place next.pos⟩, events⟩ := by
  refine ⟨fun u pos stop rest hn => ⟨?_, run_expr_blockCode_parts hn⟩,
    fun u stop rest hn => run_verbatim?_items hn,
    fun u rest hn hnext => run_verbatim?_of_notMem hn hnext,
    fun u pos rest hn hnext => run_expr_blockCode_of_notMem hn hnext⟩
  have htokens : (u.map CodeToken.inline : List (Inline o scope)).flatMap Inline.tokens =
      u.map CodeToken.token := CodeToken.tokens_inline u
  have hlength : ((u.map CodeToken.inline : List (Inline o scope)).flatMap Inline.tokens).length <
      n := by rwa [htokens, List.length_map]
  have hblock := @run_verbatim?_items o scope n start stop finish rest _ hlength
  rwa [htokens, CodeToken.node_inline] at hblock

/-- A region of two lines is the same text to both readers. Neither goes on at the end of the
stream, and the reader of code does not go on at an interpolation. -/
theorem verbatim_readers_of_lines :
    let place := Options.default.place
    let lines : List Token := [⟨.text "a();", ⟨2, 1⟩⟩, ⟨.newline, ⟨2, 5⟩⟩, ⟨.text "b();", ⟨3, 1⟩⟩]
    let region : List Token := ⟨.startPipelessText, ⟨1, 2⟩⟩ ::
      (lines ++ [⟨.endPipelessText, ⟨3, 5⟩⟩, ⟨.outdent, ⟨4, 1⟩⟩])
    let broken : List Token := ⟨.startPipelessText, ⟨1, 2⟩⟩ ::
      (lines ++ [⟨.startInterpolation, ⟨3, 5⟩⟩])
    (∃ events, (verbatim? (.ofDepth 9) .outermost).run .default (.before ⟨4, 1⟩ region) =
      ⟨.done (some ⟨[.text "a();" false (place ⟨2, 1⟩), .text "\n" false (place ⟨2, 5⟩),
        .text "b();" false (place ⟨3, 1⟩)], place ⟨1, 2⟩⟩)
        (.before ⟨4, 1⟩ [⟨.outdent, ⟨4, 1⟩⟩]), events⟩) ∧
    (∃ events, (expr (.ofDepth 9) .outermost).run .default
        (.before ⟨4, 1⟩ (⟨.blockCode, ⟨1, 1⟩⟩ :: region)) =
      ⟨.done (.code ⟨"a();\nb();", false, false⟩ false none (place ⟨1, 1⟩))
        (.before ⟨4, 1⟩ [⟨.outdent, ⟨4, 1⟩⟩]), events⟩) ∧
    (∃ events, (verbatim? (.ofDepth 9) .outermost).run .default
        (.before ⟨4, 1⟩ (⟨.startPipelessText, ⟨1, 2⟩⟩ :: lines)) =
      ⟨.failed ⟨.malformedVerbatim .eos, place ⟨4, 1⟩⟩, events⟩) ∧
    ∃ events, (expr (.ofDepth 9) .outermost).run .default
        (.before ⟨4, 1⟩ (⟨.blockCode, ⟨1, 1⟩⟩ :: broken)) =
      ⟨.failed ⟨.malformedVerbatim .startInterpolation, place ⟨3, 5⟩⟩, events⟩ := by
  have h := verbatim_readers .default .outermost 9 ⟨1, 2⟩ ⟨4, 1⟩
  let u : List CodeToken := [.text "a();" ⟨2, 1⟩, .newline ⟨2, 5⟩, .text "b();" ⟨3, 1⟩]
  have hregion := h.1 u ⟨1, 1⟩ ⟨3, 5⟩ [⟨.outdent, ⟨4, 1⟩⟩] (by decide)
  exact ⟨hregion.1, hregion.2, h.2.2.1 (u.map CodeToken.inline) [] (by decide) (by decide),
    h.2.2.2 u ⟨1, 1⟩ [⟨.startInterpolation, ⟨3, 5⟩⟩] (by decide) (by decide)⟩

end Grammar
end Pug
