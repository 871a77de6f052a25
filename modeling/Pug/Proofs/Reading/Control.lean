/-
# What control structures take

A case takes its branches up to the outdent, a conditional takes alternates for as
long as one comes past the line breaks ahead, and a loop over a collection takes the
block for no items right behind its own.
-/

import Pug.Grammar.Case
import Pug.Grammar.Code
import Pug.Grammar.Conditional
import Pug.Grammar.Loop
import Pug.Proofs.Reading.Block

namespace Pug
namespace Grammar

open Reader

section Takes

variable {o : Options} {inner : Inner} {size : Nat} {scope : Scope} {rest : List Token}

theorem takes_expansion (hc : inner.Covers o size) (d : Derivation .expansion)
    (hlen : d.tokens.length < size) (hg : d.Greedy (.of rest)) (hl : d.Lawful scope) :
    (expansion inner scope).Takes o d.tokens rest (d.meaning o) (d.trail o) := by
  cases d with
  | expandColon pos e =>
    simp only [Derivation.tokens, List.length_cons] at hlen
    have he := hc.expr e scope rest (by omega) hg hl
    exact .peek_bind (.skip_bind (.locate_bind he.bind_pure))
  | expandBlock b =>
    have h := hc.block b scope rest hlen hg hl
    cases b with
    | block indent items outdent => exact .peek_bind h

theorem takes_whenBody_none (hnext : (Lookahead.of rest).next ∈ [.newline, .outdent]) :
    (whenBody inner scope).Takes o [] rest none [] := by
  refine .next_bind fun t ht => ?_
  have hmem : t.terminal = .newline ∨ t.terminal = .outdent := by
    rw [ht]
    simpa using hnext
  rw [if_pos hmem]
  exact .pure

theorem takes_whenBody_some (hc : inner.Covers o size) (d : Derivation .expansion)
    (hlen : d.tokens.length < size) (hg : d.Greedy (.of rest)) (hl : d.Lawful scope) :
    (whenBody inner scope).Takes o d.tokens rest (some (d.meaning o)) (d.trail o) := by
  have h := (takes_expansion hc d hlen hg hl).bind_pure (f := some)
  cases d with
  | expandColon pos e => exact .peek_bind h
  | expandBlock b =>
    cases b with
    | block indent items outdent => exact .peek_bind h

theorem takes_branches (hc : inner.Covers o size) (hnext : (Lookahead.of rest).next = .outdent)
    (rounds : Nat) (d : Derivation .branches) (hlen : d.tokens.length < size)
    (hr : d.tokens.length < rounds) (hg : d.Greedy (.of rest)) (hl : d.Lawful scope) :
    ∃ lists, (many (caseItem inner scope) rounds).Takes o d.tokens rest lists (d.trail o) ∧
      lists.flatten = d.meaning o := by
  match d with
  | .endBranches =>
    refine ⟨[], .many_none (by omega) (.next_bind fun t ht => .locate_bind ?_), rfl⟩
    rcases t with ⟨l, pos⟩
    obtain rfl : l = .outdent := Lexeme.eq_of_terminal (ht.trans hnext) rfl
    exact .pure
  | .branchNewline pos more =>
    simp only [Derivation.tokens, List.length_cons] at hlen hr
    obtain ⟨lists, hlists, hvalue⟩ :=
      takes_branches hc hnext (rounds - 1) more (by omega) (by omega) hg hl
    have hitem : (caseItem inner scope).Takes o [⟨.newline, pos⟩] (more.tokens ++ rest)
        (some []) [] := .peek_bind (.locate_bind (.skip_bind .pure))
    exact ⟨[] :: lists, .many_some (by omega) hitem hlists, hvalue⟩
  | .branchComment value buffered pos more =>
    simp only [Derivation.tokens, List.length_cons] at hlen hr
    obtain ⟨lists, hlists, hvalue⟩ :=
      takes_branches hc hnext (rounds - 1) more (by omega) (by omega) hg hl
    have hitem : (caseItem inner scope).Takes o [⟨.comment value buffered, pos⟩]
        (more.tokens ++ rest) (some []) [] := .peek_bind (.locate_bind (.skip_bind .pure))
    exact ⟨[] :: lists, .many_some (by omega) hitem hlists, hvalue⟩
  | .fallthrough expr pos more =>
    simp only [Derivation.tokens, List.length_cons] at hlen hr
    rcases hg with ⟨hbody, hg⟩
    rw [← Lookahead.of_append] at hbody
    obtain ⟨lists, hlists, hvalue⟩ :=
      takes_branches hc hnext (rounds - 1) more (by omega) (by omega) hg hl
    have hitem : (caseItem inner scope).Takes o [⟨.when expr, pos⟩] (more.tokens ++ rest)
        (some [.when expr none (o.place pos)]) [] :=
      .peek_bind (.locate_bind (.skip_bind (takes_whenBody_none hbody).bind_pure))
    refine ⟨_ :: lists, .many_some (by omega) hitem hlists, ?_⟩
    rw [List.flatten_cons, hvalue]
    rfl
  | .when expr pos body more =>
    simp only [Derivation.tokens, List.length_cons, List.length_append] at hlen hr
    rcases hg with ⟨hbody, hg⟩
    rw [← Lookahead.of_append] at hbody
    obtain ⟨lists, hlists, hvalue⟩ :=
      takes_branches hc hnext (rounds - 1) more (by omega) (by omega) hg hl.2
    have hitem : (caseItem inner scope).Takes o (⟨.when expr, pos⟩ :: body.tokens)
        (more.tokens ++ rest) (some [.when expr (some (body.meaning o)) (o.place pos)])
        (body.trail o) :=
      .peek_bind (.locate_bind (.skip_bind
        (takes_whenBody_some hc body (by omega) hbody hl.1).bind_pure))
    refine ⟨_ :: lists, .many_some (by omega) hitem hlists, ?_⟩
    rw [List.flatten_cons, hvalue]
    rfl
  | .default pos body more =>
    simp only [Derivation.tokens, List.length_cons, List.length_append] at hlen hr
    rcases hg with ⟨hbody, hg⟩
    rw [← Lookahead.of_append] at hbody
    obtain ⟨lists, hlists, hvalue⟩ :=
      takes_branches hc hnext (rounds - 1) more (by omega) (by omega) hg hl.2
    have hitem : (caseItem inner scope).Takes o (⟨.default, pos⟩ :: body.tokens)
        (more.tokens ++ rest) (some [.when defaultExpr (some (body.meaning o)) (o.place pos)])
        (body.trail o) :=
      .peek_bind (.locate_bind (.skip_bind
        (takes_expansion hc body (by omega) hbody hl.1).bind_pure))
    refine ⟨_ :: lists, .many_some (by omega) hitem hlists, ?_⟩
    rw [List.flatten_cons, hvalue]
    rfl

theorem takes_caseOf (hc : inner.Covers o size) (expr : String) (pos indent outdent : Position)
    (d : Derivation .branches) (hlen : d.tokens.length < size)
    (hg : d.Greedy (.of (⟨.outdent, outdent⟩ :: rest))) (hl : d.Lawful scope) :
    (caseOf inner scope expr (o.place pos)).Takes o
      (⟨.indent, indent⟩ :: (d.tokens ++ [⟨.outdent, outdent⟩])) rest
      (.case expr ⟨d.meaning o, o.place indent⟩ (o.place pos)) (d.trail o) := by
  obtain ⟨lists, hlists, hvalue⟩ := takes_branches hc rfl inner.rounds d hlen
    (Nat.lt_trans hlen hc.rounds) hg hl
  rw [← hvalue]
  exact .expect_bind (by rfl) (.locate_bind (.bind_silent hlists (.skip_bind .pure)))

/-- **A conditional takes every alternate** that comes past the line breaks ahead. -/
theorem takes_alternates (hc : inner.Covers o size) (rounds : Nat) (d : Derivation .alternates)
    (hlen : d.tokens.length ≤ size) (hr : d.tokens.length < rounds) (hg : d.Greedy (.of rest))
    (hl : d.Lawful scope) :
    (alternates inner scope rounds).Takes o d.tokens rest (d.meaning o) (d.trail o) := by
  obtain ⟨rounds, rfl⟩ := Nat.exists_eq_succ_of_ne_zero (by omega : rounds ≠ 0)
  match d with
  | .endAlternates =>
    refine .pastNewlines_bind fun t ht => ?_
    have hstart := Lookahead.terminal_ne ht hg
    split
    · rename_i h
      exact absurd (congrArg Lexeme.terminal h) (hstart .elseIf (by decide))
    · rename_i h
      exact absurd (congrArg Lexeme.terminal h) (hstart .else (by decide))
    · exact .pure
  | .elseIf newlines test pos nested more =>
    simp only [Derivation.tokens, List.length_append, List.length_cons] at hlen hr
    rcases hg with ⟨hnested, hg⟩
    rw [← Lookahead.of_append] at hnested
    have hmore := takes_alternates hc rounds more (by omega) (by omega) hg hl.2
    have hconsequent := takes_blockAt hc nested (by omega) hnested hl.1 (o.place pos)
    refine .past_bind rfl (.skipNewlines_bind ?_ (.skip_bind (.locate_bind
      (.bind hconsequent hmore.bind_pure))))
    exact (by decide : Terminal.elseIf ≠ .newline)
  | .otherwise newlines pos nested =>
    simp only [Derivation.tokens, List.length_append, List.length_cons] at hlen hr
    have h := (takes_block? hc nested (by omega) hg hl).bind_pure
      (f := fun body => body.map Alternate.otherwise)
    refine .past_bind rfl (.skipNewlines_bind ?_ (.skip_bind h))
    exact (by decide : Terminal.else ≠ .newline)

theorem takes_conditional (hc : inner.Covers o size) (test : String) (pos : Position)
    (nested : Derivation .nested) (d : Derivation .alternates)
    (hlen : (nested.tokens ++ d.tokens).length < size)
    (hg : nested.Greedy (.of (d.tokens ++ rest)) ∧ d.Greedy (.of rest))
    (hl : nested.Lawful scope ∧ d.Lawful scope) :
    (conditional inner scope test (o.place pos)).Takes o (nested.tokens ++ d.tokens) rest
      (.conditional test ((nested.meaning o).getD (.empty (o.place pos))) (d.meaning o)
        (o.place pos)) (nested.trail o ++ d.trail o) := by
  have hrounds := hc.rounds
  rw [List.length_append] at hlen
  have hd := takes_alternates hc inner.rounds d (by omega) (by omega) hg.2 hl.2
  exact .bind (takes_blockAt hc nested (by omega) hg.1 hl.1 (o.place pos)) hd.bind_pure

theorem takes_whileLoop (hc : inner.Covers o size) (test : String) (pos : Position)
    (nested : Derivation .nested) (hlen : nested.tokens.length < size)
    (hg : nested.Greedy (.of rest)) (hl : nested.Lawful scope) :
    (whileLoop inner scope test (o.place pos)).Takes o nested.tokens rest
      (.while test ((nested.meaning o).getD (.empty (o.place pos))) (o.place pos))
      (nested.trail o) :=
  (takes_blockAt hc nested hlen hg hl (o.place pos)).bind_pure

theorem takes_eachLoop (hc : inner.Covers o size) (iteration : Iteration) (pos : Position)
    (b : Derivation .block) (hlen : b.tokens.length < size) (hg : b.Greedy (.of rest))
    (hnext : (Lookahead.of rest).next ≠ .else) (hl : b.Lawful scope) :
    (eachLoop inner scope iteration (o.place pos)).Takes o b.tokens rest
      (.each iteration (b.meaning o) none (o.place pos)) (b.trail o) := by
  have hnone : (emptyCase inner scope).Takes o [] rest none [] := by
    refine .refuse_bind ?_ .pure
    exact hnext
  exact .bind_stay (hc.block b scope rest hlen hg hl) hnone.bind_pure

theorem takes_eachLoop_else (hc : inner.Covers o size) (iteration : Iteration)
    (pos place : Position) (b alternate : Derivation .block)
    (hlen : (b.tokens ++ alternate.tokens).length < size)
    (hg : b.Greedy (.of (⟨.else, place⟩ :: (alternate.tokens ++ rest))) ∧
      alternate.Greedy (.of rest))
    (hl : b.Lawful scope ∧ alternate.Lawful scope) :
    (eachLoop inner scope iteration (o.place pos)).Takes o
      (b.tokens ++ ⟨.else, place⟩ :: alternate.tokens) rest
      (.each iteration (b.meaning o) (some (alternate.meaning o)) (o.place pos))
      (b.trail o ++ alternate.trail o) := by
  rw [List.length_append] at hlen
  have halternate := hc.block alternate scope rest (by omega) hg.2 hl.2
  have hsome : (emptyCase inner scope).Takes o (⟨.else, place⟩ :: alternate.tokens) rest
      (some (alternate.meaning o)) (alternate.trail o) :=
    .accept_bind (by rfl) halternate.bind_pure
  have hbody := hc.block b scope (⟨.else, place⟩ :: (alternate.tokens ++ rest)) (by omega) hg.1
    hl.1
  exact .bind hbody hsome.bind_pure

/-- Code whose value is put out has no block, and other code may have one. -/
theorem takes_codeLine (hc : inner.Covers o size) (c : Code) (pos : Position)
    (nested : Derivation .nested) (hlen : nested.tokens.length < size)
    (hg : nested.Greedy (.of rest)) (hbuffered : c.buffered = true → nested.tokens = [])
    (hl : nested.Lawful scope) :
    (codeLine inner scope c (o.place pos)).Takes o nested.tokens rest
      (.code c false (nested.meaning o) (o.place pos)) (nested.trail o) := by
  cases nested with
  | noBlock =>
    refine .next_bind fun t ht => ?_
    rw [if_neg (ht ▸ hg)]
    exact .pure
  | someBlock b =>
    have hc' : c.buffered = false := by
      have hpos := b.length_block_pos
      cases h : c.buffered with
      | false => rfl
      | true =>
        rw [show b.tokens = [] from hbuffered h] at hpos
        exact absurd hpos (by decide)
    have h := (hc.block b scope rest hlen hg hl).bind_pure
      (f := fun b => Node.code c false (some b) (o.place pos))
    cases b with
    | block indent items outdent =>
      refine .peek_bind ?_
      rw [if_pos (by rfl), if_neg (by simp [hc'])]
      exact h

theorem takes_codeItems (rest : List Token) (stop : Position) (parts : List CodeToken)
    (rounds : Nat)
    (hr : parts.length < rounds) :
    (many codeItem rounds).Takes o (parts.map CodeToken.token ++ [⟨.endPipelessText, stop⟩]) rest
      (parts.map CodeToken.source) [] := by
  induction parts generalizing rounds with
  | nil => exact .many_none (by omega) (.peek_bind (.skip_bind .pure))
  | cons part parts ih =>
    rw [List.length_cons] at hr
    have hmore := ih (rounds - 1) (by omega)
    have hitem : codeItem.Takes o [part.token]
        ((parts.map CodeToken.token ++ [⟨.endPipelessText, stop⟩]) ++ rest)
        (some part.source) [] := by
      cases part with
      | text value pos => exact .peek_bind (.skip_bind .pure)
      | newline pos => exact .peek_bind (.skip_bind .pure)
    exact .many_some (by omega) hitem hmore

theorem takes_blockCode (region : Option CodeRegion) (rounds : Nat)
    (hr : (CodeRegion.tokens? region).length ≤ rounds)
    (hnext : region.isNone → (Lookahead.of rest).next ≠ .startPipelessText) (pos : Position) :
    (blockCode rounds (o.place pos)).Takes o (CodeRegion.tokens? region) rest
      (.code ⟨CodeRegion.source? region, false, false⟩ false none (o.place pos)) [] := by
  cases region with
  | none =>
    have hnone : (codeRegion rounds).Takes o [] rest "" [] := by
      refine .refuse_bind ?_ .pure
      exact hnext rfl
    exact hnone.bind_pure
  | some r =>
    simp only [CodeRegion.tokens?, CodeRegion.tokens, List.length_cons, List.length_append,
      List.length_map] at hr
    have hitems := takes_codeItems (o := o) rest r.stop r.parts rounds (by omega)
    have hsome : (codeRegion rounds).Takes o r.tokens rest
        (String.join (r.parts.map CodeToken.source)) [] :=
      .accept_bind (by rfl) hitems.bind_pure
    exact hsome.bind_pure

end Takes

section Ensures

variable {inner : Inner} {scope : Scope} {ts us mid rest : List Token} {pos : Position}

theorem ensures_expansion (hs : inner.Sound) :
    (expansion inner scope).Ensures ts fun _ rest => Derives .expansion scope ts rest := by
  have hblock : (inner.block scope).Ensures ts fun _ rest => Derives .expansion scope ts rest :=
    (hs.block scope ts).mono fun b rest h => by
      rcases h with ⟨d, hts, hg, hl⟩
      exact ⟨.expandBlock d, hts, hg, hl⟩
  refine .peek_bind (fun hts pos => ?_) fun l pos us hts => ?_
  · exact hts ▸ hblock
  · subst hts
    split
    · rename_i h
      obtain rfl : l = .colon := Lexeme.eq_of_terminal h rfl
      refine .skip_bind (.locate_bind fun loc => ?_)
      refine (hs.expr scope us).bind fun node rest h => .pure ?_
      rcases h with ⟨e, rfl, hg, hl⟩
      exact ⟨.expandColon pos e, rfl, hg, hl⟩
    · exact hblock

/-- The tokens `ts` are those of branches and then `rest`, which begins with an outdent. -/
def DerivesBranches (scope : Scope) (ts rest : List Token) : Prop :=
  Derives .branches scope ts rest ∧ (Lookahead.of rest).next = .outdent

theorem derives_when {expr : String} (hbody : Derives .expansion scope us mid)
    (h : DerivesBranches scope mid rest) :
    DerivesBranches scope (⟨.when expr, pos⟩ :: us) rest := by
  rcases hbody with ⟨body, rfl, hg, hl⟩
  rcases h with ⟨⟨d, rfl, hg', hl'⟩, hnext⟩
  refine ⟨⟨.when expr pos body d, by simp [Derivation.tokens], ⟨?_, hg'⟩, hl, hl'⟩, hnext⟩
  rw [← Lookahead.of_append]
  exact hg

theorem derives_default (hbody : Derives .expansion scope us mid)
    (h : DerivesBranches scope mid rest) :
    DerivesBranches scope (⟨.default, pos⟩ :: us) rest := by
  rcases hbody with ⟨body, rfl, hg, hl⟩
  rcases h with ⟨⟨d, rfl, hg', hl'⟩, hnext⟩
  refine ⟨⟨.default pos body d, by simp [Derivation.tokens], ⟨?_, hg'⟩, hl, hl'⟩, hnext⟩
  rw [← Lookahead.of_append]
  exact hg

theorem derives_fallthrough {expr : String}
    (hend : (Lookahead.of us).next ∈ [.newline, .outdent]) (h : DerivesBranches scope us rest) :
    DerivesBranches scope (⟨.when expr, pos⟩ :: us) rest := by
  rcases h with ⟨⟨d, rfl, hg, hl⟩, hnext⟩
  rw [Lookahead.of_append] at hend
  exact ⟨⟨.fallthrough expr pos d, rfl, ⟨hend, hg⟩, hl⟩, hnext⟩

/-- A `when` with its body, or without one where none can come. -/
theorem ensures_whenBody (hs : inner.Sound) {expr : String} :
    (whenBody inner scope).Ensures us fun _ mid => ∀ rest, DerivesBranches scope mid rest →
      DerivesBranches scope (⟨.when expr, pos⟩ :: us) rest := by
  have hbody : (expansion inner scope >>= fun body => pure (some body)).Ensures us fun _ mid =>
      ∀ rest, DerivesBranches scope mid rest →
        DerivesBranches scope (⟨.when expr, pos⟩ :: us) rest :=
    (ensures_expansion hs).bind fun body mid h => .pure fun rest hrest => derives_when h hrest
  have hend : ∀ t : Token, t.terminal = (Lookahead.of us).next →
      t.terminal = .newline ∨ t.terminal = .outdent →
      ∀ rest, DerivesBranches scope us rest →
        DerivesBranches scope (⟨.when expr, pos⟩ :: us) rest := by
    intro t ht hnext rest h
    refine derives_fallthrough ?_ h
    rw [← ht]
    simpa using hnext
  refine .peek_bind (fun hts place => ?_) fun l place vs hts => ?_
  · subst hts
    split
    · rename_i h
      exact .pure (hend _ rfl h)
    · exact hbody
  · subst hts
    split
    · rename_i h
      exact .pure (hend _ rfl h)
    · exact hbody

theorem ensures_caseItem (hs : inner.Sound) :
    (caseItem inner scope).Ensures ts (Round (DerivesBranches scope) ts) := by
  refine .peek_bind (fun hts pos => .locate_bind fun loc => .unexpected) fun l pos us hts =>
    .locate_bind fun loc => ?_
  subst hts
  cases l with
  | outdent =>
    refine .pure ⟨⟨.endBranches, rfl, ?_, trivial⟩, rfl⟩
    exact (by decide : Terminal.outdent ∉ [.newline, .comment, .when, .default])
  | comment value buffered =>
    refine .skip_bind (.pure fun rest h => ?_)
    rcases h with ⟨⟨d, rfl, hg, hl⟩, hnext⟩
    exact ⟨⟨.branchComment value buffered pos d, rfl, hg, hl⟩, hnext⟩
  | newline =>
    refine .skip_bind (.pure fun rest h => ?_)
    rcases h with ⟨⟨d, rfl, hg, hl⟩, hnext⟩
    exact ⟨⟨.branchNewline pos d, rfl, hg, hl⟩, hnext⟩
  | when expr => exact .skip_bind ((ensures_whenBody hs).bind fun body mid h => .pure h)
  | default =>
    exact .skip_bind ((ensures_expansion hs).bind fun body mid h =>
      .pure fun rest hrest => derives_default h hrest)
  | _ => exact .unexpected

theorem ensures_caseOf (hs : inner.Sound) (expr : String) (loc : Location) :
    (caseOf inner scope expr loc).Ensures us fun _ rest =>
      Derives .expr scope (⟨.case expr, pos⟩ :: us) rest := by
  refine .expect_bind (by decide) fun t vs hus ht => .locate_bind fun place => ?_
  rcases t with ⟨l, indent⟩
  obtain rfl : l = .indent := Lexeme.eq_of_terminal ht rfl
  refine (Ensures.many (fun _ => ensures_caseItem hs) _ _).bind fun lists mid h => ?_
  rcases h with ⟨⟨d, rfl, hg, hl⟩, hnext⟩
  obtain ⟨outdent, rest, rfl⟩ := Lookahead.exists_cons_of_next hnext rfl (by decide)
  refine .skip_bind (.pure ⟨.caseOf expr pos indent d outdent, ?_, hg, hl⟩)
  simp only [hus, Derivation.tokens, List.cons_append, List.append_assoc, List.nil_append]

/-- **What the alternates of a conditional take:** the chain goes on exactly as long as
an alternate comes past the line breaks ahead. -/
theorem ensures_alternates (hs : inner.Sound) (rounds : Nat) :
    (alternates inner scope rounds).Ensures ts fun _ rest =>
      Derives .alternates scope ts rest := by
  induction rounds generalizing ts with
  | zero => exact .exhausted
  | succ rounds ih =>
    have hend : (Lookahead.of ts).pastNewlines ∉ [.elseIf, .else] →
        Derives .alternates scope ts ts := fun h => ⟨.endAlternates, rfl, h, trivial⟩
    refine .past_bind (fun newlines pos hts => ?_) fun newlines l pos us hts hl => ?_
    · refine .pure (hend ?_)
      have hpast := pastNewlines_newlineTokens newlines []
      rw [List.append_nil, ← hts] at hpast
      rw [hpast]
      decide
    · have hpast := pastNewlines_newlineTokens newlines (⟨l, pos⟩ :: us)
      cases l with
      | elseIf test =>
        subst hts
        refine .skipNewlines_cons hl (.skip_bind (.locate_bind fun loc =>
          (ensures_blockAt hs loc).bind fun consequent mid hnested => ?_))
        refine ih.bind fun alternate rest h => .pure ?_
        rcases hnested with ⟨nested, rfl, hg, hl⟩
        rcases h with ⟨d, rfl, hg', hl'⟩
        refine ⟨.elseIf newlines test pos nested d, by simp [Derivation.tokens], ⟨?_, hg'⟩, hl, hl'⟩
        rw [← Lookahead.of_append]
        exact hg
      | «else» =>
        subst hts
        refine .skipNewlines_cons hl (.skip_bind ((ensures_block? hs).bind fun body rest h =>
          .pure ?_))
        rcases h with ⟨nested, rfl, hg, hl⟩
        exact ⟨.otherwise newlines pos nested, by simp [Derivation.tokens], hg, hl⟩
      | _ =>
        refine .pure (hend ?_)
        rw [hts, hpast]
        simp [Lookahead.of, Token.isNewline, Token.terminal, Lexeme.terminal] at hl ⊢

theorem ensures_conditional (hs : inner.Sound) (test : String) (loc : Location) :
    (conditional inner scope test loc).Ensures us fun _ rest =>
      Derives .expr scope (⟨.if test, pos⟩ :: us) rest := by
  refine (ensures_blockAt hs loc).bind fun consequent mid hnested => ?_
  refine (ensures_alternates hs inner.rounds).bind fun alternate rest h => .pure ?_
  rcases hnested with ⟨nested, rfl, hg, hl⟩
  rcases h with ⟨d, rfl, hg', hl'⟩
  refine ⟨.conditional test pos nested d, by simp [Derivation.tokens], ⟨?_, hg'⟩, hl, hl'⟩
  rw [← Lookahead.of_append]
  exact hg

theorem ensures_whileLoop (hs : inner.Sound) (test : String) (loc : Location) :
    (whileLoop inner scope test loc).Ensures us fun _ rest =>
      Derives .expr scope (⟨.while test, pos⟩ :: us) rest := by
  refine (ensures_blockAt hs loc).bind fun body rest h => .pure ?_
  rcases h with ⟨nested, rfl, hg, hl⟩
  exact ⟨.whileLoop test pos nested, rfl, hg, hl⟩

theorem ensures_eachLoop (hs : inner.Sound) (iteration : Iteration) (loc : Location) :
    (eachLoop inner scope iteration loc).Ensures us fun _ rest =>
      Derives .expr scope (⟨.each iteration, pos⟩ :: us) rest := by
  refine (hs.block scope us).bind fun body mid h => ?_
  rcases h with ⟨b, rfl, hg, hl⟩
  have halternate : (emptyCase inner scope).Ensures mid fun _ rest =>
      Derives .expr scope (⟨.each iteration, pos⟩ :: (b.tokens ++ mid)) rest := by
    refine .accept_bind (by decide) (fun t vs hmid ht => ?_) fun hnext => ?_
    · rcases t with ⟨l, place⟩
      obtain rfl : l = .else := Lexeme.eq_of_terminal ht rfl
      refine (hs.block scope vs).bind fun alternate rest h => .pure ?_
      rcases h with ⟨c, rfl, hg', hl'⟩
      subst hmid
      refine ⟨.eachElse iteration pos b place c, by simp [Derivation.tokens], ⟨?_, hg'⟩, hl, hl'⟩
      rw [← Lookahead.of_append]
      exact hg
    · exact .pure ⟨.each iteration pos b, rfl, ⟨hg, hnext⟩, hl⟩
  exact halternate.bind fun alternate rest h => .pure h

theorem ensures_codeLine (hs : inner.Sound) (c : Code) (loc : Location) :
    (codeLine inner scope c loc).Ensures us fun _ rest =>
      Derives .expr scope (⟨.code c, pos⟩ :: us) rest := by
  have hend : (Lookahead.of us).next ≠ .indent →
      Derives .expr scope (⟨.code c, pos⟩ :: us) us := fun h =>
    ⟨.code c pos .noBlock, rfl, h, fun _ => rfl, trivial⟩
  refine .peek_bind (fun hus place => ?_) fun l place vs hus => ?_
  · subst hus
    exact .pure (hend (by decide))
  · subst hus
    split
    · split
      · exact .reject
      · rename_i hbuffered
        refine (hs.block scope _).bind fun body rest h => .pure ?_
        rcases h with ⟨b, hts, hg, hl⟩
        exact ⟨.code c pos (.someBlock b), congrArg _ hts, hg, fun h => absurd h hbuffered, hl⟩
    · rename_i h
      exact .pure (hend h)

/-- What stands behind the delimiter that begins a region of code, down to the one that
ends it. -/
def DerivesCode (ts rest : List Token) : Prop :=
  ∃ (parts : List CodeToken) (stop : Position),
    ts = parts.map CodeToken.token ++ ⟨.endPipelessText, stop⟩ :: rest

theorem ensures_codeItem : codeItem.Ensures ts (Round DerivesCode ts) := by
  refine .peek_bind (fun hts pos => .reject) fun l pos us hts => ?_
  subst hts
  cases l with
  | endPipelessText => exact .skip_bind (.pure ⟨[], pos, rfl⟩)
  | text value =>
    exact .skip_bind (.pure fun rest ⟨parts, stop, h⟩ => ⟨.text value pos :: parts, stop, h ▸ rfl⟩)
  | newline =>
    exact .skip_bind (.pure fun rest ⟨parts, stop, h⟩ => ⟨.newline pos :: parts, stop, h ▸ rfl⟩)
  | _ => exact .reject

theorem ensures_blockCode (rounds : Nat) (loc : Location) :
    (blockCode rounds loc).Ensures us fun _ rest =>
      Derives .expr scope (⟨.blockCode, pos⟩ :: us) rest := by
  have hregion : (codeRegion rounds).Ensures us fun _ rest =>
      Derives .expr scope (⟨.blockCode, pos⟩ :: us) rest := by
    refine .accept_bind (by decide) (fun t vs hus ht => ?_) fun hnext => ?_
    · rcases t with ⟨l, start⟩
      obtain rfl : l = .startPipelessText := Lexeme.eq_of_terminal ht rfl
      refine (Ensures.many (fun _ => ensures_codeItem) _ _).bind fun lines rest h => .pure ?_
      rcases h with ⟨parts, stop, rfl⟩
      refine ⟨.blockCode pos (some ⟨start, parts, stop⟩), ?_, fun h => (by cases h), trivial⟩
      simp [hus, Derivation.tokens, CodeRegion.tokens?, CodeRegion.tokens]
    · exact .pure ⟨.blockCode pos none, rfl, fun _ => hnext, trivial⟩
  exact hregion.bind fun text rest h => .pure h

end Ensures

end Grammar
end Pug
