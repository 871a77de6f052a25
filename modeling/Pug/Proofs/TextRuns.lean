/-
# Runs of text

A run of text is made one node. Its parts are the nodes of its items, in order, but a line break is
a part only if text or code comes right behind it. So of line breaks in a row at most the last one
is kept, and none at the end of a run or in front of an interpolation.
-/

import Pug.Proofs.Inline

namespace Pug

open Grammar

namespace Inline

variable {o : Options} {scope : Scope}

/-- The parts that the items of a run give: a line break gives one if the very next item is text or
code, and each other item gives one. -/
def parts : List (Inline o scope) → List Node
  | [] => []
  | newline pos :: u =>
    (if u.head?.any isPlain then [.text "\n" false (o.place pos)] else []) ++ parts u
  | i :: u => i.node :: parts u

theorem parts_cons {i : Inline o scope} (hi : i.isNewline = false) (u : List (Inline o scope)) :
    parts (i :: u) = i.node :: parts u := by
  cases i with
  | newline pos => cases hi
  | _ => rfl

/-- The terminal behind a line break is that of text or code if the next item is. -/
theorem keeps_tokens (u : List (Inline o scope)) :
    Layout.lines.keeps (u.flatMap tokens) = u.head?.any isPlain := by
  rcases u with _ | ⟨p | i | pos, u⟩
  · rfl
  · cases p <;> rfl
  · rfl
  · rfl

/-- **Items are the parts of a run** in front of whatever does not go on with it. -/
theorem exists_parts {layout : Layout} (hregion : layout ≠ .region) (u : List (Inline o scope))
    (hline : layout = .line → ∀ i ∈ u, i.isNewline = false) :
    ∃ d : Derivation (.parts layout), d.tokens = u.flatMap tokens ∧ d.meaning o = parts u ∧
      (∀ a : Lookahead, a.next ∉ layout.starts → d.Greedy a) ∧ d.Lawful scope := by
  induction u with
  | nil => exact ⟨.endParts, rfl, rfl, fun _ ha => ha, trivial⟩
  | cons i u ih =>
    obtain ⟨d, htokens, hmeaning, hg, hl⟩ := ih fun h j hj => hline h j (List.mem_cons_of_mem i hj)
    by_cases hi : i.isNewline = false
    · obtain ⟨f, hf, hnode, hfg, hfl⟩ := i.exists_fragment hi
      refine ⟨.part f d, ?_, ?_, fun a ha => ⟨hfg _, hg a ha⟩, hfl, hl⟩
      · rw [Derivation.tokens, hf, htokens, List.flatMap_cons]
      · rw [Derivation.meaning, hnode, hmeaning, parts_cons hi]
    · have hspread : layout ≠ .line := fun h => hi (hline h i List.mem_cons_self)
      obtain rfl : layout = .lines := by
        cases layout with
        | line => exact absurd rfl hspread
        | lines => rfl
        | region => exact absurd rfl hregion
      cases i with
      | newline pos =>
        refine ⟨.lineBreak hspread pos d, ?_, ?_, hg, hl⟩
        · rw [Derivation.tokens, htokens, List.flatMap_cons]
          rfl
        · rw [Derivation.meaning, htokens, keeps_tokens, hmeaning, parts]
      | _ => exact absurd rfl hi

/-- Line breaks in a row. -/
def breaks (newlines : List Position) : List (Inline o scope) := newlines.map newline

theorem head?_breaks (newlines : List Position) :
    (breaks newlines : List (Inline o scope)).head?.any isPlain = false := by
  cases newlines <;> rfl

/-- **Of line breaks in a row at most one is kept.** -/
theorem parts_breaks_append (newlines : List Position) (u : List (Inline o scope)) :
    parts (breaks newlines ++ u) = parts u ∨
      ∃ pos ∈ newlines, parts (breaks newlines ++ u) =
        .text "\n" false (o.place pos) :: parts u := by
  induction newlines with
  | nil => exact .inl rfl
  | cons pos newlines ih =>
    cases newlines with
    | nil =>
      by_cases hplain : u.head?.any isPlain = true
      · refine .inr ⟨pos, List.mem_cons_self, ?_⟩
        simp [breaks, parts, hplain]
      · refine .inl ?_
        simp [breaks, parts, hplain]
    | cons place newlines =>
      exact ih.imp_right fun ⟨p, hp, h⟩ => ⟨p, List.mem_cons_of_mem pos hp, h⟩

/-- **Line breaks at the end of a run are dropped.** -/
theorem parts_append_breaks (u : List (Inline o scope)) (newlines : List Position) :
    parts (u ++ breaks newlines) = parts u := by
  induction u with
  | nil =>
    rw [List.nil_append]
    induction newlines with
    | nil => rfl
    | cons pos newlines ih =>
      change (if (breaks newlines : List (Inline o scope)).head?.any isPlain then _ else _) ++
        parts (breaks newlines : List (Inline o scope)) = _
      rw [head?_breaks, ih]
      rfl
  | cons i u ih =>
    by_cases hi : i.isNewline = false
    · rw [List.cons_append, parts_cons hi, parts_cons hi, ih]
    · cases i with
      | newline pos =>
        have hhead : (u ++ breaks newlines).head?.any isPlain = u.head?.any isPlain := by
          rcases u with _ | ⟨j, u⟩
          · exact head?_breaks newlines
          · rfl
        rw [List.cons_append, parts, ih, hhead, parts]
      | _ => exact absurd rfl hi

end Inline

/-- Parts that are not a single one are gathered in a block. -/
theorem gather_of_length_ne {nodes : List Node} (h : nodes.length ≠ 1) (loc : Location) :
    gather loc nodes = .block ⟨nodes, loc⟩ := by
  rcases nodes with _ | ⟨node, _ | ⟨node', nodes⟩⟩
  · rfl
  · exact absurd rfl h
  · rfl

section Run

variable {o : Options} {scope : Scope} {n : Nat} {u : List (Inline o scope)} {rest : List Token}

/-- **A run takes its items** in front of whatever does not go on with it. -/
theorem run_textRun {layout : Layout} (hregion : layout ≠ .region)
    (hline : layout = .line → ∀ i ∈ u, i.isNewline = false)
    (hrest : (Lookahead.of rest).next ∉ layout.starts)
    (hn : (u.flatMap Inline.tokens).length < n) (finish : Position) :
    ∃ events, (textRun (.ofDepth n) scope (layout = .lines)).run o
        (.before finish (u.flatMap Inline.tokens ++ rest)) =
      ⟨.done (gather (o.place (Cursor.before finish (u.flatMap Inline.tokens ++ rest)).peek.pos)
        (Inline.parts u)) (.before finish rest), events⟩ := by
  obtain ⟨d, htokens, hmeaning, hg, hl⟩ := Inline.exists_parts hregion u hline
  rw [← htokens] at hn ⊢
  obtain ⟨n, rfl⟩ := Nat.exists_eq_add_one_of_ne_zero (Nat.ne_zero_of_lt hn)
  have hc := covers_ofDepth o n
  obtain ⟨nodes, htakes, hnodes⟩ := takes_runParts hc hregion _ d (Nat.le_of_lt_succ hn)
    (Nat.lt_of_le_of_lt (Nat.le_of_lt_succ hn) hc.rounds) (hg _ hrest) hl
  refine ⟨d.trail o, ?_⟩
  rw [← hmeaning, ← hnodes]
  simp only [textRun, Reader.run_bind, Reader.run_peek, Reader.run_locate, Run.andThen_done,
    htakes finish, Reader.run_pure, Run.after_nil]
  exact congrArg (Run.mk _) (List.append_nil _)

/-- **Items of a text are one run.**

* In front of whatever does not go on with a run, a run takes all of its items and nothing else.
  It is its only part, or else a block of its parts at the place of its first token.
* Of line breaks in a row at most one is a part.
* Line breaks at the end are no parts. -/
theorem textRun_of_items {multiline : Bool} (finish : Position)
    (hline : multiline = false → ∀ i ∈ u, i.isNewline = false)
    (hrest : (Lookahead.of rest).next ∉ [.text, .interpolatedCode, .startInterpolation])
    (hlines : multiline = true → (Lookahead.of rest).next ≠ .newline)
    (hn : (u.flatMap Inline.tokens).length < n) :
    let before := Cursor.before finish (u.flatMap Inline.tokens ++ rest)
    (∃ node events,
      (textRun (.ofDepth n) scope multiline).run o before =
        ⟨.done node (.before finish rest), events⟩ ∧
      (∀ part, Inline.parts u = [part] → node = part) ∧
      ((Inline.parts u).length ≠ 1 →
        node = .block ⟨Inline.parts u, o.place before.peek.pos⟩)) ∧
    (∀ newlines (v : List (Inline o scope)),
      Inline.parts (Inline.breaks newlines ++ v) = Inline.parts v ∨
        ∃ pos ∈ newlines, Inline.parts (Inline.breaks newlines ++ v) =
          .text "\n" false (o.place pos) :: Inline.parts v) ∧
    ∀ newlines (v : List (Inline o scope)),
      Inline.parts (v ++ Inline.breaks newlines) = Inline.parts v := by
  refine ⟨?_, Inline.parts_breaks_append, fun newlines v => Inline.parts_append_breaks v newlines⟩
  obtain ⟨layout, hregion, rfl, hnext⟩ : ∃ layout : Layout, layout ≠ .region ∧
      decide (layout = .lines) = multiline ∧ (Lookahead.of rest).next ∉ layout.starts := by
    cases multiline with
    | false => exact ⟨.line, nofun, rfl, hrest⟩
    | true =>
      refine ⟨.lines, nofun, rfl, ?_⟩
      simpa [Layout.starts, hlines rfl] using hrest
  have hmode : layout = .line → ∀ i ∈ u, i.isNewline = false := fun h => hline (by rw [h]; rfl)
  obtain ⟨events, hrun⟩ := run_textRun hregion hmode hnext hn finish
  refine ⟨_, events, hrun, fun part hpart => ?_, fun hlength => gather_of_length_ne hlength _⟩
  rw [hpart]
  rfl

/-- In two lines of text with an empty line between them and an interpolation on a line of its own
below, the line break behind the empty line is kept alone. -/
theorem textRun_of_paragraph :
    let place := Options.default.place
    let slot : Interpolation .default .outermost :=
      ⟨⟨4, 1⟩, [⟨.yield, ⟨4, 3⟩⟩], ⟨4, 8⟩, .yieldBlock (place ⟨4, 3⟩), 1, ⟨1, 1⟩, [], [], rfl⟩
    let u : List (Inline .default .outermost) :=
      [.plain (.text "a" ⟨1, 1⟩), .newline ⟨1, 2⟩, .newline ⟨2, 1⟩, .plain (.text "b" ⟨3, 1⟩),
        .newline ⟨3, 2⟩, .interpolation slot, .newline ⟨4, 9⟩]
    ∃ events, (textRun (.ofDepth 10) .outermost true).run .default
        (.before ⟨5, 1⟩ (u.flatMap Inline.tokens ++ [⟨.outdent, ⟨5, 1⟩⟩])) =
      ⟨.done (.block ⟨[.text "a" false (place ⟨1, 1⟩), .text "\n" false (place ⟨2, 1⟩),
          .text "b" false (place ⟨3, 1⟩), .yieldBlock (place ⟨4, 3⟩)], place ⟨1, 1⟩⟩)
        (.before ⟨5, 1⟩ [⟨.outdent, ⟨5, 1⟩⟩]), events⟩ := by
  intro place slot u
  obtain ⟨node, events, hrun, -, hblock⟩ := (@textRun_of_items .default .outermost 10 u
    [⟨.outdent, ⟨5, 1⟩⟩] true ⟨5, 1⟩ nofun (by decide) (by decide) (by decide)).1
  obtain rfl := hblock (by decide)
  exact ⟨events, hrun⟩

end Run
end Pug
