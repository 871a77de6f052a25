/-
# Derivations in front of a line break

A template may go on with a line break and something that the line before does not take. At
the line break a derivation ends, or it absorbs the line break: the tail of an element, a run
over several lines and lines of HTML go past line breaks that mean nothing to them.

Only the terminals in `resumers` are taken from behind a line break. In front of anything else
a derivation that is greedy at the end of the input is greedy in front of the line break, or
it is so once it has absorbed it (`separates_expr`). What is at the end of an element's line
is the only thing in which this has to be seen at any depth: all other nesting has a
delimiter, or ends at a line break.
-/

import Pug.Proofs.Derivation.Closing
import Pug.Proofs.Derivation.Meaning

namespace Pug

open Lookahead

/-- The terminals that are taken from behind a line break by what stands before it. -/
def resumers : List Terminal :=
  [.newline, .indent, .startPipelessText, .elseIf, .else, .text, .interpolatedCode,
    .startInterpolation, .textHtml]

/-- In a list without any resumer nothing resumes. -/
theorem notMem_of_resumers {terminal : Terminal} {terminals : List Terminal}
    (h : terminal ∉ resumers) (hsub : ∀ other ∈ terminals, other ∈ resumers) :
    terminal ∉ terminals := fun hmem => h (hsub terminal hmem)

theorem ne_of_resumers {terminal other : Terminal} (h : terminal ∉ resumers)
    (hother : other ∈ resumers) : terminal ≠ other := fun heq => h (heq ▸ hother)

namespace Lookahead

variable {a b : Lookahead} {starts : List Terminal} {terminal : Terminal} {newlines : List Position}

/-- A line break is added at the end, and what comes behind it does not resume. -/
theorem Prolongs.of_newline (h : terminal ∉ resumers) :
    Prolongs [.newline] finish ⟨.newline, terminal⟩ :=
  ⟨.inr ⟨rfl, List.mem_cons_self⟩, .inr ⟨rfl, notMem_of_resumers h (by decide)⟩⟩

theorem Prolongs.before_of_ne_nil (h : Prolongs starts a b) {ts : List Token} (hts : ts ≠ []) :
    Prolongs [] (a.before ts) (b.before ts) := by
  obtain ⟨t, us, rfl⟩ := List.exists_cons_of_ne_nil hts
  exact h.before_cons t us

/-- What is seen past the line breaks is seen from any place before it. -/
theorem before_newlineTokens (hn : newlines ≠ []) :
    before ⟨terminal, terminal⟩ (newlineTokens newlines) = ⟨.newline, terminal⟩ := by
  obtain ⟨pos, more, rfl⟩ := List.exists_cons_of_ne_nil hn
  induction more generalizing pos with
  | nil => rfl
  | cons place more ih =>
    have h := ih place (List.cons_ne_nil _ _)
    unfold newlineTokens at h ⊢
    rw [List.map_cons, before_cons, h]
    rfl

theorem before_append_newlineTokens (hn : newlines ≠ []) (ts : List Token) :
    before ⟨terminal, terminal⟩ (ts ++ newlineTokens newlines) =
      before ⟨.newline, terminal⟩ ts := by
  rw [before_append, before_newlineTokens hn]

end Lookahead

namespace Derivation

/-- The derivation `d'` is `d` with line breaks at its end, which mean nothing. -/
structure Absorbs {s : Symbol} (newlines : List Position) (d d' : Derivation s) : Prop where
  tokens_eq : d'.tokens = d.tokens ++ newlineTokens newlines
  meaning_eq : ∀ o, d'.meaning o = d.meaning o
  trail_eq : ∀ o, d'.trail o = d.trail o
  lawful : ∀ scope, d.Lawful scope → d'.Lawful scope

/-- In front of line breaks, behind which `terminal` comes, `d` ends or absorbs them. -/
def Separates {s : Symbol} (newlines : List Position) (terminal : Terminal) (d : Derivation s) :
    Prop :=
  d.Greedy ⟨.newline, terminal⟩ ∨ ∃ d', Absorbs newlines d d' ∧ d'.Greedy ⟨terminal, terminal⟩

variable {a b : Lookahead} {newlines : List Position} {terminal : Terminal}

/-- What is seen past the line breaks decides nothing but whether an alternate follows. -/
theorem greedy_of_past {s : Symbol} (d : Derivation s) (h : Prolongs [] a b) (hg : d.Greedy a) :
    d.Greedy b := d.greedy_of_prolongs h.of_nil hg

section Ends

/-! A block, a fragment and a filter end at a line break, and so does everything that is
absent in front of one. -/

theorem greedy_block_of_newline (d : Derivation .block) (h : Prolongs [.newline] a b)
    (hg : d.Greedy a) : d.Greedy b := by
  cases d with
  | block indent items outdent => exact items.greedy_of_past (h.before_cons _ _) hg

theorem greedy_nested_of_newline (d : Derivation .nested) (h : Prolongs [.newline] a b)
    (hg : d.Greedy a) : d.Greedy b := by
  cases d with
  | noBlock => exact h.next_ne (by decide) hg
  | someBlock block => exact block.greedy_block_of_newline h hg

theorem greedy_region_of_newline (d : Derivation .region) (h : Prolongs [.newline] a b)
    (hg : d.Greedy a) : d.Greedy b := by
  cases d with
  | noRegion => exact h.next_ne (by decide) hg
  | someRegion start parts stop => exact parts.greedy_of_past (h.before_cons _ _) hg

theorem greedy_fragment_of_newline (d : Derivation .fragment) (h : Prolongs [.newline] a b)
    (hg : d.Greedy a) : d.Greedy b := by
  cases d with
  | plain p => trivial
  | interpolated start e stop => exact e.greedy_of_past (h.before_cons _ _) hg

theorem greedy_line_of_newline (d : Derivation (.parts .line)) (h : Prolongs [.newline] a b)
    (hg : d.Greedy a) : d.Greedy b := by
  match d with
  | .endParts => exact h.notMem (by decide) hg
  | .part f rest =>
    exact ⟨f.greedy_fragment_of_newline (h.before rest.tokens) hg.1,
      rest.greedy_line_of_newline h hg.2⟩

theorem greedy_alternates_of_newline (d : Derivation .alternates) (h : Prolongs [.newline] a b)
    (hg : d.Greedy a) : d.Greedy b := by
  match d with
  | .endAlternates => exact h.past_notMem hg
  | .elseIf breaks test pos nested rest =>
    exact ⟨nested.greedy_nested_of_newline (h.before rest.tokens) hg.1,
      rest.greedy_alternates_of_newline h hg.2⟩
  | .otherwise breaks pos nested => exact nested.greedy_nested_of_newline h hg

theorem greedy_filter_of_newline (d : Derivation .filter) (h : Prolongs [.newline] a b)
    (hg : d.Greedy a) : d.Greedy b := by
  match d with
  | .filterText name pos group value place => trivial
  | .filterNested name pos group inner => exact inner.greedy_filter_of_newline h hg
  | .filterRegion name pos group region =>
    exact ⟨fun hnone => (h.before region.tokens).next_ne (by decide) (hg.1 hnone),
      (h.before region.tokens).notMem (by decide) hg.2.1,
      region.greedy_region_of_newline h hg.2.2⟩

end Ends

section Absorbs

/-! A run over several lines and lines of HTML go on to the end of the line breaks. -/

theorem separates_lines (d : Derivation (.parts .lines)) (hn : newlines ≠ [])
    (ht : terminal ∉ resumers) (hg : d.Greedy .finish) :
    ∃ d', Absorbs newlines d d' ∧ d'.Greedy ⟨terminal, terminal⟩ := by
  match d with
  | .endParts =>
    have hend : (endParts : Derivation (.parts .lines)).Greedy ⟨terminal, terminal⟩ :=
      notMem_of_resumers ht (by decide)
    clear hn
    induction newlines with
    | nil => exact ⟨.endParts, ⟨rfl, fun _ => rfl, fun _ => rfl, fun _ h => h⟩, hend⟩
    | cons pos newlines ih =>
      obtain ⟨d', habsorbs, hg'⟩ := ih
      have htokens : d'.tokens = newlineTokens newlines := habsorbs.tokens_eq
      have hkeeps : Layout.lines.keeps d'.tokens = false := by
        rw [htokens]
        cases newlines <;> rfl
      have hspread : Layout.lines ≠ .line := by decide
      refine ⟨.lineBreak hspread pos d', ⟨congrArg _ htokens, fun o => ?_, habsorbs.trail_eq,
        habsorbs.lawful⟩, hg'⟩
      simp only [meaning, hkeeps, habsorbs.meaning_eq]
      rfl
  | .lineBreak spread pos rest =>
    obtain ⟨rest', habsorbs, hg'⟩ := rest.separates_lines hn ht hg
    have hkeeps : Layout.lines.keeps rest'.tokens = Layout.lines.keeps rest.tokens := by
      rw [habsorbs.tokens_eq]
      cases rest.tokens with
      | nil => cases newlines <;> rfl
      | cons t ts => rfl
    refine ⟨.lineBreak spread pos rest', ⟨congrArg _ habsorbs.tokens_eq, fun o => ?_,
      habsorbs.trail_eq, habsorbs.lawful⟩, hg'⟩
    simp only [meaning, hkeeps, habsorbs.meaning_eq]
  | .part f rest =>
    obtain ⟨rest', habsorbs, hg'⟩ := rest.separates_lines hn ht hg.2
    refine ⟨.part f rest', ⟨?_, fun o => ?_, fun o => ?_, fun scope hl => ?_⟩, ?_, hg'⟩
    · simp only [tokens, habsorbs.tokens_eq, List.append_assoc]
    · simp only [meaning, habsorbs.meaning_eq]
    · simp only [trail, habsorbs.trail_eq]
    · exact ⟨hl.1, habsorbs.lawful scope hl.2⟩
    · rw [habsorbs.tokens_eq, before_append_newlineTokens hn]
      exact f.greedy_fragment_of_newline ((Prolongs.of_newline ht).before rest.tokens) hg.1

theorem separates_html (d : Derivation .html) (hn : newlines ≠ []) (ht : terminal ∉ resumers)
    (hg : d.Greedy .finish) :
    ∃ d', Absorbs newlines d d' ∧ d'.Greedy ⟨terminal, terminal⟩ := by
  match d with
  | .endHtml =>
    have hend : endHtml.Greedy ⟨terminal, terminal⟩ := notMem_of_resumers ht (by decide)
    clear hn
    induction newlines with
    | nil => exact ⟨.endHtml, ⟨rfl, fun _ => rfl, fun _ => rfl, fun _ h => h⟩, hend⟩
    | cons pos newlines ih =>
      obtain ⟨d', habsorbs, hg'⟩ := ih
      exact ⟨.htmlNewline pos d', ⟨congrArg _ habsorbs.tokens_eq, habsorbs.meaning_eq,
        habsorbs.trail_eq, habsorbs.lawful⟩, hg'⟩
  | .htmlNewline pos rest =>
    obtain ⟨rest', habsorbs, hg'⟩ := rest.separates_html hn ht hg
    exact ⟨.htmlNewline pos rest', ⟨congrArg _ habsorbs.tokens_eq, habsorbs.meaning_eq,
      habsorbs.trail_eq, habsorbs.lawful⟩, hg'⟩
  | .htmlLine value pos rest =>
    obtain ⟨rest', habsorbs, hg'⟩ := rest.separates_html hn ht hg
    refine ⟨.htmlLine value pos rest', ⟨congrArg _ habsorbs.tokens_eq, fun o => ?_,
      habsorbs.trail_eq, habsorbs.lawful⟩, hg'⟩
    simp only [meaning, habsorbs.meaning_eq]
  | .htmlBlock b rest =>
    obtain ⟨rest', habsorbs, hg'⟩ := rest.separates_html hn ht hg.2
    refine ⟨.htmlBlock b rest', ⟨?_, fun o => ?_, fun o => ?_, fun scope hl => ?_⟩, ?_, hg'⟩
    · simp only [tokens, habsorbs.tokens_eq, List.append_assoc]
    · simp only [meaning, habsorbs.meaning_eq]
    · simp only [trail, habsorbs.trail_eq]
    · exact ⟨hl.1, habsorbs.lawful scope hl.2⟩
    · rw [habsorbs.tokens_eq, before_append_newlineTokens hn]
      exact b.greedy_block_of_newline ((Prolongs.of_newline ht).before rest.tokens) hg.1

end Absorbs

/-- `make` puts a name and a head in front of a body; `lead` are their tokens. -/
structure Leads {closable : Bool} (make : Derivation (.body closable) → Derivation .expr)
    (lead : List Token) (distinct : Prop) : Prop where
  tokens_eq : ∀ body, (make body).tokens = lead ++ body.tokens
  meaning_eq : ∀ o body body', body'.meaning o = body.meaning o →
    (make body').meaning o = (make body).meaning o
  trail_eq : ∀ o body body', body'.trail o = body.trail o →
    (make body').trail o = (make body).trail o
  greedy_iff : ∀ body a, (make body).Greedy a ↔
    (a.before body.tokens).next ∉ headStarts ∧ body.Greedy a
  lawful_iff : ∀ body scope, (make body).Lawful scope ↔ distinct ∧ body.Lawful scope

/-- **What has a body ends at a line break, or absorbs it, as the body does.** -/
theorem Leads.separates {closable : Bool}
    {make : Derivation (.body closable) → Derivation .expr} {lead : List Token} {distinct : Prop}
    (hm : Leads make lead distinct) {body : Derivation (.body closable)} (hn : newlines ≠ [])
    (ht : terminal ∉ resumers) (hnext : (finish.before body.tokens).next ∉ headStarts)
    (hs : body.Separates newlines terminal) : (make body).Separates newlines terminal := by
  have hbefore := ((Prolongs.of_newline ht).before body.tokens).notMem (by decide) hnext
  rcases hs with hends | ⟨body', habsorbs, hg⟩
  · exact .inl ((hm.greedy_iff body _).2 ⟨hbefore, hends⟩)
  · refine .inr ⟨make body', ⟨?_, fun o => hm.meaning_eq o _ _ (habsorbs.meaning_eq o),
      fun o => hm.trail_eq o _ _ (habsorbs.trail_eq o), fun scope hl => ?_⟩, ?_⟩
    · rw [hm.tokens_eq, hm.tokens_eq, habsorbs.tokens_eq, List.append_assoc]
    · rw [hm.lawful_iff] at hl ⊢
      exact ⟨hl.1, habsorbs.lawful scope hl.2⟩
    · rw [hm.greedy_iff, habsorbs.tokens_eq, before_append_newlineTokens hn]
      exact ⟨hbefore, hg⟩

section Leads

variable (pos : Position) (head : List HeadItem)

theorem leads_tag (name : String) :
    Leads (.tag name pos head) (⟨.tag name, pos⟩ :: head.flatMap HeadItem.tokens)
      (HeadItem.Distinct head) :=
  ⟨fun _ => rfl, fun _ _ _ h => by simp only [meaning, h], fun _ _ _ h => by simp only [trail, h],
    fun _ _ => Iff.rfl, fun _ _ => Iff.rfl⟩

theorem leads_interpolatedTag (expr : String) :
    Leads (.interpolatedTag expr pos head)
      (⟨.interpolation expr, pos⟩ :: head.flatMap HeadItem.tokens) (HeadItem.Distinct head) :=
  ⟨fun _ => rfl, fun _ _ _ h => by simp only [meaning, h], fun _ _ _ h => by simp only [trail, h],
    fun _ _ => Iff.rfl, fun _ _ => Iff.rfl⟩

theorem leads_shorthand (first : Shorthand) :
    Leads (.shorthand first head) (first.token :: head.flatMap HeadItem.tokens)
      (HeadItem.Distinct (.shorthand first :: head)) :=
  ⟨fun _ => rfl, fun _ _ _ h => by simp only [meaning, h],
    fun _ _ _ h => by simp only [trail, h], fun _ _ => Iff.rfl, fun _ _ => Iff.rfl⟩

theorem leads_call (name : String) (args : Option String) :
    Leads (.call name args pos head) (⟨.call name args, pos⟩ :: head.flatMap HeadItem.tokens)
      (HeadItem.Distinct head) :=
  ⟨fun _ => rfl, fun _ _ _ h => by simp only [meaning, h], fun _ _ _ h => by simp only [trail, h],
    fun _ _ => Iff.rfl, fun _ _ => Iff.rfl⟩

end Leads

mutual

/-- What stands on the line of an element ends at a line break, unless it is a colon and a
production that absorbs it. -/
theorem separates_content {closable : Bool} (d : Derivation (.content closable))
    (hn : newlines ≠ []) (ht : terminal ∉ resumers) (hg : d.Greedy .finish) :
    d.Separates newlines terminal := by
  have h := Prolongs.of_newline ht
  match d with
  | .noContent => exact .inl (h.mem (by decide) hg)
  | .lineRun first rest => exact .inl (rest.greedy_line_of_newline h hg)
  | .lineCode c pos => exact .inl trivial
  | .slash pos => exact .inl trivial
  | .colon pos e =>
    rcases separates_expr e hn ht hg with hends | ⟨e', habsorbs, hg'⟩
    · exact .inl hends
    · refine .inr ⟨.colon pos e', ⟨congrArg _ habsorbs.tokens_eq, fun o => ?_,
        habsorbs.trail_eq, habsorbs.lawful⟩, hg'⟩
      simp only [meaning, habsorbs.meaning_eq]

/-- The line of an element with nothing below it absorbs line breaks, or those behind it are
some more. -/
theorem separates_line {closable : Bool} (d : Derivation (.content closable))
    (breaks : List Position) (hn : newlines ≠ []) (ht : terminal ∉ resumers)
    (hg : d.Greedy (finish.before (newlineTokens breaks))) :
    ∃ (d' : Derivation (.content closable)) (breaks' : List Position),
      d'.tokens ++ newlineTokens breaks' =
        d.tokens ++ newlineTokens breaks ++ newlineTokens newlines ∧
      (∀ o, d'.meaning o = d.meaning o) ∧ (∀ o, d'.trail o = d.trail o) ∧
      (∀ scope, d.Lawful scope → d'.Lawful scope) ∧
      d'.Greedy (before ⟨terminal, terminal⟩ (newlineTokens breaks')) := by
  cases breaks with
  | nil =>
    rcases separates_content d hn ht hg with hends | ⟨d', habsorbs, hg'⟩
    · refine ⟨d, newlines, by simp [newlineTokens], fun _ => rfl, fun _ => rfl, fun _ h => h, ?_⟩
      rwa [before_newlineTokens hn]
    · refine ⟨d', [], ?_, habsorbs.meaning_eq, habsorbs.trail_eq, habsorbs.lawful, hg'⟩
      simp [newlineTokens, habsorbs.tokens_eq]
  | cons pos breaks =>
    refine ⟨d, pos :: breaks ++ newlines, by simp [newlineTokens], fun _ => rfl, fun _ => rfl,
      fun _ h => h, ?_⟩
    have hpast := (Prolongs.of_newline ht).before_of_ne_nil
      (List.cons_ne_nil ⟨.newline, pos⟩ (newlineTokens breaks))
    have happend : newlineTokens (pos :: breaks ++ newlines) =
        newlineTokens (pos :: breaks) ++ newlineTokens newlines := by
      simp [newlineTokens]
    rw [happend, before_append_newlineTokens hn]
    exact d.greedy_of_past hpast hg

/-- A body absorbs a line break behind it, unless something is nested in it. -/
theorem separates_body {closable : Bool} (d : Derivation (.body closable))
    (hn : newlines ≠ []) (ht : terminal ∉ resumers) (hg : d.Greedy .finish) :
    d.Separates newlines terminal := by
  have h := Prolongs.of_newline ht
  match d with
  | .nesting content breaks (.someBlock b) =>
    have hb : b.tokens ≠ [] := List.ne_nil_of_length_pos b.length_block_pos
    have hbelow : newlineTokens breaks ++ b.tokens ≠ [] := List.append_ne_nil_of_right_ne_nil _ hb
    exact .inl ⟨(h.before _).next_ne (by decide) hg.1,
      content.greedy_of_past (h.before_of_ne_nil hbelow) hg.2.1,
      (h.before_of_ne_nil hb).next_ne (by decide) hg.2.2.1,
      b.greedy_block_of_newline h hg.2.2.2⟩
  | .nesting content breaks .noBlock =>
    have hline : content.Greedy (finish.before (newlineTokens breaks)) := by
      simpa [tokens] using hg.2.1
    obtain ⟨content', breaks', htokens, hmeaning, htrail, hlawful, hg'⟩ :=
      separates_line content breaks hn ht hline
    refine .inr ⟨.nesting content' breaks' .noBlock, ⟨?_, fun o => ?_, fun o => ?_,
      fun scope hl => ⟨hlawful scope hl.1, trivial⟩⟩, ?_, ?_, ?_, ?_⟩
    · simpa [tokens] using htokens
    · simp only [meaning, hmeaning]
    · simp only [trail, htrail]
    · have hdot := hg.1
      simp only [tokens, List.append_nil] at hdot ⊢
      rw [htokens, before_append_newlineTokens hn]
      exact (h.before _).next_ne (by decide) hdot
    · simpa [tokens] using hg'
    · exact ne_of_resumers ht (by decide)
    · exact ne_of_resumers ht (by decide)
  | .textOnly pos content breaks (.someRegion start parts stop) =>
    exact .inl ⟨content.greedy_of_past (h.before_of_ne_nil (by simp [tokens])) hg.1,
      (h.before_of_ne_nil (by simp [tokens])).next_ne (by decide) hg.2.1,
      greedy_region_of_newline (.someRegion start parts stop) h hg.2.2⟩
  | .textOnly pos content breaks .noRegion =>
    have hline : content.Greedy (finish.before (newlineTokens breaks)) := by
      simpa [tokens] using hg.1
    obtain ⟨content', breaks', htokens, hmeaning, htrail, hlawful, hg'⟩ :=
      separates_line content breaks hn ht hline
    refine .inr ⟨.textOnly pos content' breaks' .noRegion, ⟨?_, fun o => ?_, fun o => ?_,
      fun scope hl => ⟨hlawful scope hl.1, trivial⟩⟩, ?_, ?_, ?_⟩
    · simpa [tokens] using htokens
    · simp only [meaning, hmeaning]
    · simp only [trail, htrail]
    · simpa [tokens] using hg'
    · exact ne_of_resumers ht (by decide)
    · exact ne_of_resumers ht (by decide)

/-- **In front of a line break a production ends, or it absorbs it**, unless what comes behind
the line break can be taken from there. -/
theorem separates_expr (e : Derivation .expr) (hn : newlines ≠ []) (ht : terminal ∉ resumers)
    (hg : e.Greedy .finish) : e.Separates newlines terminal := by
  have h := Prolongs.of_newline ht
  match e with
  | .tag name pos head body =>
    exact (leads_tag pos head name).separates hn ht hg.1 (separates_body body hn ht hg.2)
  | .interpolatedTag expr pos head body =>
    exact (leads_interpolatedTag pos head expr).separates hn ht hg.1
      (separates_body body hn ht hg.2)
  | .shorthand first head body =>
    exact (leads_shorthand head first).separates hn ht hg.1 (separates_body body hn ht hg.2)
  | .call name args pos head body =>
    exact (leads_call pos head name args).separates hn ht hg.1 (separates_body body hn ht hg.2)
  | .run first rest =>
    obtain ⟨rest', habsorbs, hg'⟩ := rest.separates_lines hn ht hg.2
    refine .inr ⟨.run first rest', ⟨?_, fun o => ?_, fun o => ?_,
      fun scope hl => ⟨hl.1, habsorbs.lawful scope hl.2⟩⟩, ?_, hg'⟩
    · simp only [tokens, habsorbs.tokens_eq, List.append_assoc]
    · simp only [meaning, habsorbs.meaning_eq]
    · simp only [trail, habsorbs.trail_eq]
    · rw [habsorbs.tokens_eq, before_append_newlineTokens hn]
      exact first.greedy_fragment_of_newline (h.before rest.tokens) hg.1
  | .html value pos rest =>
    obtain ⟨rest', habsorbs, hg'⟩ := rest.separates_html hn ht hg
    refine .inr ⟨.html value pos rest', ⟨congrArg _ habsorbs.tokens_eq, fun o => ?_,
      habsorbs.trail_eq, habsorbs.lawful⟩, hg'⟩
    simp only [meaning, habsorbs.meaning_eq]
  | .mixin name args pos nested => exact .inl (nested.greedy_nested_of_newline h hg)
  | .namedBlock name mode pos nested => exact .inl (nested.greedy_nested_of_newline h hg)
  | .inclusion pos filters path place nested =>
    exact .inl (nested.greedy_nested_of_newline h hg)
  | .whileLoop test pos nested => exact .inl (nested.greedy_nested_of_newline h hg)
  | .code c pos nested => exact .inl (nested.greedy_nested_of_newline h hg)
  | .caseOf expr pos indent branches outdent =>
    exact .inl (branches.greedy_of_past (h.before_cons _ _) hg)
  | .filter f => exact .inl (f.greedy_filter_of_newline h hg)
  | .comment value buffered pos region => exact .inl (region.greedy_region_of_newline h hg)
  | .dot pos region => exact .inl (region.greedy_region_of_newline h hg)
  | .each iteration pos body =>
    exact .inl ⟨body.greedy_block_of_newline h hg.1, h.next_ne (by decide) hg.2⟩
  | .eachElse iteration pos body place alternate =>
    exact .inl ⟨body.greedy_of_past (h.before_cons _ _) hg.1,
      alternate.greedy_block_of_newline h hg.2⟩
  | .conditional test pos nested rest =>
    exact .inl ⟨nested.greedy_nested_of_newline (h.before rest.tokens) hg.1,
      rest.greedy_alternates_of_newline h hg.2⟩
  | .blockCode pos region => exact .inl fun hnone => h.next_ne (by decide) (hg hnone)
  | .mixinBlock pos => exact .inl trivial
  | .yield pos => exact .inl trivial
  | .doctype value pos => exact .inl trivial
  | .parent pos path place => exact .inl trivial

end

end Derivation
end Pug
