/-
# Templates behind one another

Two templates with a line break between them are one template: its nodes are those of the
first and then those of the second, and so are its warnings. This is so whenever the second
one does not begin with something that a line of text or of HTML before it goes on with.
-/

import Pug.Proofs.Derivation.Separation
import Pug.Proofs.Reading.Document

namespace Pug

namespace Derivation

/-- Line breaks and then the items of a derivation. -/
def behind (newlines : List Position) (d : Derivation .items) : Derivation .items :=
  newlines.foldr newline d

section Behind

variable (newlines : List Position) (d : Derivation .items)

@[simp] theorem tokens_behind :
    (behind newlines d).tokens = newlineTokens newlines ++ d.tokens := by
  induction newlines with
  | nil => rfl
  | cons pos newlines ih => exact congrArg _ ih

@[simp] theorem meaning_behind (o : Options) : (behind newlines d).meaning o = d.meaning o := by
  induction newlines with
  | nil => rfl
  | cons pos newlines ih => exact ih

@[simp] theorem trail_behind (o : Options) : (behind newlines d).trail o = d.trail o := by
  induction newlines with
  | nil => rfl
  | cons pos newlines ih => exact ih

@[simp] theorem greedy_behind (a : Lookahead) : (behind newlines d).Greedy a ↔ d.Greedy a := by
  induction newlines with
  | nil => rfl
  | cons pos newlines ih => exact ih

@[simp] theorem lawful_behind (scope : Grammar.Scope) :
    (behind newlines d).Lawful scope ↔ d.Lawful scope := by
  induction newlines with
  | nil => rfl
  | cons pos newlines ih => exact ih

end Behind

/-- **Items begin with line breaks**, behind which none comes. -/
theorem exists_behind (d : Derivation .items) :
    ∃ newlines d', d = behind newlines d' ∧ (Lookahead.of d'.tokens).next ≠ .newline := by
  match d with
  | .nil => exact ⟨[], .nil, rfl, by decide⟩
  | .newline pos rest =>
    obtain ⟨newlines, d', rfl, hnext⟩ := rest.exists_behind
    exact ⟨pos :: newlines, d', rfl, hnext⟩
  | .item e rest =>
    refine ⟨[], .item e rest, rfl, ?_⟩
    rcases e.expr_head with ⟨value, pos, more, rfl⟩ | ⟨t, us, htokens, hmem, -⟩
    · exact (by decide : Terminal.textHtml ≠ .newline)
    · have hnext : (Lookahead.of (item e rest).tokens).next = t.terminal := by
        simp [tokens, htokens, Lookahead.of]
      rw [hnext]
      rintro hnewline
      rw [hnewline] at hmem
      exact absurd hmem (by decide)

/-- The derivation `d` is `d₁`, line breaks and `d₂`. -/
structure Joins (d₁ : Derivation .items) (newlines : List Position) (d₂ d : Derivation .items) :
    Prop where
  tokens_eq : d.tokens = d₁.tokens ++ (newlineTokens newlines ++ d₂.tokens)
  meaning_eq : ∀ o, d.meaning o = d₁.meaning o ++ d₂.meaning o
  trail_eq : ∀ o, d.trail o = d₁.trail o ++ d₂.trail o
  greedy : d.Greedy .finish
  lawful : ∀ scope, d₁.Lawful scope → d₂.Lawful scope → d.Lawful scope

/-- **Items go on behind a line break**, unless the items behind it are taken from there. The
last production of the first items may have to absorb the line breaks. -/
theorem exists_joins {newlines : List Position} {d₂ : Derivation .items} {terminal : Terminal}
    (hn : newlines ≠ []) (ht : terminal ∉ resumers)
    (hof : Lookahead.of d₂.tokens = ⟨terminal, terminal⟩) (hg₂ : d₂.Greedy .finish)
    (d₁ : Derivation .items) (hg₁ : d₁.Greedy .finish) : ∃ d, Joins d₁ newlines d₂ d := by
  have hbetween : Lookahead.finish.before (newlineTokens newlines ++ d₂.tokens) =
      ⟨.newline, terminal⟩ := by
    rw [Lookahead.before_append, show Lookahead.finish.before d₂.tokens = _ from hof]
    exact Lookahead.before_newlineTokens hn
  match d₁ with
  | .nil =>
    exact ⟨behind newlines d₂, by simp [tokens], by simp [meaning], by simp [trail],
      by simpa using hg₂, by simp⟩
  | .newline pos rest =>
    obtain ⟨d, h⟩ := exists_joins hn ht hof hg₂ rest hg₁
    exact ⟨.newline pos d, congrArg _ h.tokens_eq, h.meaning_eq, h.trail_eq, h.greedy, h.lawful⟩
  | .item e rest =>
    obtain ⟨d, h⟩ := exists_joins hn ht hof hg₂ rest hg₁.2
    have hnext : Lookahead.finish.before d.tokens =
        (Lookahead.mk .newline terminal).before rest.tokens := by
      rw [h.tokens_eq, Lookahead.before_append, hbetween]
    have hprolongs := Lookahead.Prolongs.of_newline ht
    have hjoin : e.Greedy (Lookahead.finish.before d.tokens) →
        ∃ d, Joins (item e rest) newlines d₂ d := by
      refine fun he => ⟨.item e d, ?_, fun o => ?_, fun o => ?_, ⟨he, h.greedy⟩,
        fun scope hl₁ hl₂ => ⟨hl₁.1, h.lawful scope hl₁.2 hl₂⟩⟩
      · simp only [tokens, h.tokens_eq, List.append_assoc]
      · simp only [meaning, h.meaning_eq, List.append_assoc]
      · simp only [trail, h.trail_eq, List.append_assoc]
    match rest with
    | .nil =>
      rcases separates_expr e hn ht hg₁.1 with hends | ⟨e', habsorbs, he'⟩
      · exact hjoin (hnext ▸ hends)
      · refine ⟨.item e' d₂, ?_, fun o => ?_, fun o => ?_, ⟨?_, hg₂⟩,
          fun scope hl₁ hl₂ => ⟨habsorbs.lawful scope hl₁.1, hl₂⟩⟩
        · simp only [tokens, habsorbs.tokens_eq, List.append_assoc, List.append_nil]
        · simp only [meaning, habsorbs.meaning_eq, List.append_nil]
        · simp only [trail, habsorbs.trail_eq, List.append_nil]
        · rw [show Lookahead.finish.before d₂.tokens = _ from hof]
          exact he'
    | .newline pos more =>
      refine hjoin (e.greedy_of_past ?_ hg₁.1)
      rw [hnext]
      exact hprolongs.before_cons _ _
    | .item e' more =>
      refine hjoin (e.greedy_of_past ?_ hg₁.1)
      rw [hnext]
      exact hprolongs.before_of_ne_nil
        (List.append_ne_nil_of_left_ne_nil (List.ne_nil_of_length_pos e'.length_expr_pos) _)

/-- What begins a template that is no text and no HTML resumes nothing. -/
theorem next_notMem_resumers {d : Derivation .items}
    (hnext : (Lookahead.of d.tokens).next ∉
      [.newline, .text, .interpolatedCode, .startInterpolation, .textHtml]) :
    (Lookahead.of d.tokens).next ∉ resumers := by
  match d with
  | .nil => decide
  | .newline pos rest => exact absurd List.mem_cons_self hnext
  | .item e rest =>
    rcases e.expr_head with ⟨value, pos, more, rfl⟩ | ⟨t, us, htokens, hmem, -⟩
    · exact absurd (by decide : Terminal.textHtml ∈ _) hnext
    · have hof : (Lookahead.of (item e rest).tokens).next = t.terminal := by
        simp [tokens, htokens, Lookahead.of]
      rw [hof] at hnext ⊢
      have hstarts : ∀ start ∈ exprStarts, start ∈ resumers →
          start ∈ [Terminal.newline, .text, .interpolatedCode, .startInterpolation, .textHtml] := by
        decide
      exact fun hresumes => hnext (hstarts _ hmem hresumes)

end Derivation

/-- If what comes next is no line break, it is what is seen past the line breaks. -/
theorem Lookahead.of_eq_mk {ts : List Token} (h : (of ts).next ≠ .newline) :
    of ts = ⟨(of ts).next, (of ts).next⟩ := by
  cases ts with
  | nil => rfl
  | cons t ts =>
    have ht : t.isNewline = false := decide_eq_false h
    simp [of, ht]

/-- The warnings of a reading that is done are those of the trail of a derivation. -/
theorem warnings_of_reads {o : Options} {ts : List Token} {d : Derivation .items}
    (hd : d.Reads ts) : (parse o ts).warnings = (d.trail o).filterMap Event.warning? := by
  obtain ⟨rest, hrun⟩ := parse_of_derivation o hd
  rw [hrun]
  rfl

/-- **Templates compose.** If two templates are read, then so are both with a line break between
them, unless the second one begins with text or HTML behind its line breaks. The nodes are
those of the first and then those of the second, and so are the warnings. -/
theorem parse_append_newline {o : Options} {ts₁ ts₂ : List Token} {b₁ b₂ : Block}
    {rest₁ rest₂ : Cursor} (hfree₁ : EosFree ts₁) (hfree₂ : EosFree ts₂)
    (h₁ : (parse o ts₁).outcome = .done b₁ rest₁) (h₂ : (parse o ts₂).outcome = .done b₂ rest₂)
    (hstart : ∀ t ∈ (ts₂.dropWhile Token.isNewline).head?,
      t.terminal ∉ [.text, .interpolatedCode, .startInterpolation, .textHtml])
    (pos : Position) :
    (∃ rest, (parse o (ts₁ ++ ⟨.newline, pos⟩ :: ts₂)).outcome =
      .done ⟨b₁.nodes ++ b₂.nodes, ⟨.whole, o.filename⟩⟩ rest) ∧
    (parse o (ts₁ ++ ⟨.newline, pos⟩ :: ts₂)).warnings =
      (parse o ts₁).warnings ++ (parse o ts₂).warnings := by
  obtain ⟨d₁, hd₁⟩ := exists_derivation_of_parse h₁
  obtain ⟨d₂, hd₂⟩ := exists_derivation_of_parse h₂
  obtain ⟨newlines, d, rfl, hnext⟩ := d₂.exists_behind
  have hts₁ : d₁.tokens = ts₁ := hd₁.tokens_eq.trans (beforeEos_of_eosFree hfree₁)
  have hts₂ : newlineTokens newlines ++ d.tokens = ts₂ := by
    rw [← Derivation.tokens_behind, hd₂.tokens_eq, beforeEos_of_eosFree hfree₂]
  have hg : d.Greedy .finish := (d.greedy_behind newlines .finish).1 hd₂.greedy
  have hl : d.Lawful .outermost := (d.lawful_behind newlines .outermost).1 hd₂.lawful
  have hterminal : (Lookahead.of d.tokens).next ∉ resumers := by
    have hdrop := dropWhile_newlineTokens_append newlines hnext
    rw [hts₂] at hdrop
    rw [hdrop] at hstart
    refine Derivation.next_notMem_resumers (List.not_mem_cons_of_ne_of_not_mem hnext ?_)
    cases htokens : d.tokens with
    | nil => decide
    | cons t us => exact hstart t (by rw [htokens]; rfl)
  obtain ⟨joined, hj⟩ := Derivation.exists_joins (List.cons_ne_nil pos newlines) hterminal
    (Lookahead.of_eq_mk hnext) hg d₁ hd₁.greedy
  have hfree : EosFree (ts₁ ++ ⟨.newline, pos⟩ :: ts₂) := by
    simp [hfree₁, hfree₂]
  have hreads : joined.Reads (ts₁ ++ ⟨.newline, pos⟩ :: ts₂) := by
    refine ⟨?_, hj.greedy, hj.lawful _ hd₁.lawful hl⟩
    rw [beforeEos_of_eosFree hfree, hj.tokens_eq, hts₁, ← hts₂]
    rfl
  constructor
  · obtain ⟨rest, hrun⟩ := parse_of_derivation o hreads
    refine ⟨rest, ?_⟩
    rw [hrun, tree_eq_of_reads h₁ hd₁, tree_eq_of_reads h₂ hd₂, hj.meaning_eq,
      Derivation.meaning_behind]
  · rw [warnings_of_reads hreads, warnings_of_reads hd₁, warnings_of_reads hd₂, hj.trail_eq,
      Derivation.trail_behind, List.filterMap_append]

/-- The line `p` goes past the line break behind it, and the mixin is called in the way of
old. -/
theorem parse_append_newline_mixin :
    (∃ rest, (parse .default ([⟨.tag "p", ⟨1, 1⟩⟩] ++
        ⟨.newline, ⟨2, 1⟩⟩ :: [⟨.mixin "m" none, ⟨2, 1⟩⟩])).outcome =
      .done ⟨[.tag "p" false false false .empty (.empty ⟨⟨1, 1⟩, none⟩) ⟨⟨1, 1⟩, none⟩] ++
        [.mixin "m" none true .empty none ⟨⟨2, 1⟩, none⟩], ⟨.whole, none⟩⟩ rest) ∧
    (parse .default ([⟨.tag "p", ⟨1, 1⟩⟩] ++
        ⟨.newline, ⟨2, 1⟩⟩ :: [⟨.mixin "m" none, ⟨2, 1⟩⟩])).warnings =
      [] ++ [⟨.legacyMixinCall "m", ⟨⟨2, 1⟩, none⟩⟩] :=
  @parse_append_newline .default [⟨.tag "p", ⟨1, 1⟩⟩] [⟨.mixin "m" none, ⟨2, 1⟩⟩]
    ⟨[.tag "p" false false false .empty (.empty ⟨⟨1, 1⟩, none⟩) ⟨⟨1, 1⟩, none⟩], ⟨.whole, none⟩⟩
    ⟨[.mixin "m" none true .empty none ⟨⟨2, 1⟩, none⟩], ⟨.whole, none⟩⟩ _ _
    (by simp) (by simp) rfl rfl (by simp [Token.isNewline, Token.terminal, Lexeme.terminal])
    ⟨2, 1⟩

end Pug
