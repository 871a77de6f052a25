/-
# What templates take

The productions are put together here. A production of at most `size` tokens is read
by readers that cover all smaller ones, so the readers for one level of nesting more
cover one token more, and the bound under which a template is read covers it. In the
other direction the readers for every depth are sound.

The input of a reading ends with its first end-of-stream token, if it has one.
-/

import Pug.Grammar.Document
import Pug.Proofs.Reading.Control
import Pug.Proofs.Reading.Structure

namespace Pug
namespace Grammar

open Reader

variable {o : Options} {inner : Inner} {size : Nat} {scope : Scope} {ts rest : List Token}

/-- **The production that begins at the current token takes its derivation.** -/
theorem takes_expr (hc : inner.Covers o size) (e : Derivation .expr)
    (hlen : e.tokens.length ≤ size) (hg : e.Greedy (.of rest)) (hl : e.Lawful scope) :
    (Grammar.expr inner scope).Takes o e.tokens rest (e.meaning o) (e.trail o) := by
  cases e with
  | tag name pos head body =>
    exact .peek_bind (.locate_bind (.skip_bind (takes_element hc name pos head body hlen hg hl)))
  | interpolatedTag expr pos head body =>
    exact .peek_bind (.locate_bind (.skip_bind
      (takes_interpolatedElement hc expr pos head body hlen hg hl)))
  | shorthand first head body =>
    have h := takes_shorthandElement hc first head body hlen hg hl
    cases first with
    | idName value pos => exact .peek_bind (.locate_bind h)
    | className value pos => exact .peek_bind (.locate_bind h)
  | call name args pos head body =>
    exact .peek_bind (.locate_bind (.skip_bind (takes_call hc name args pos head body hlen hg hl)))
  | mixin name args pos nested =>
    exact .peek_bind (.locate_bind (.skip_bind (takes_mixin hc name args pos nested hlen hg hl)))
  | mixinBlock pos =>
    have h : (mixinBlock scope (o.place pos)).Takes o [] rest (.mixinBlock (o.place pos)) [] := by
      rw [mixinBlock, if_pos (by exact hl)]
      exact .pure
    exact .peek_bind (.locate_bind (.skip_bind h))
  | yield pos => exact .peek_bind (.locate_bind (.skip_bind .pure))
  | namedBlock name mode pos nested =>
    exact .peek_bind (.locate_bind (.skip_bind
      (takes_blockAt hc nested hlen hg hl (o.place pos)).bind_pure))
  | doctype value pos => exact .peek_bind (.locate_bind (.skip_bind .pure))
  | caseOf expr pos indent branches outdent =>
    simp only [Derivation.tokens, List.length_cons, List.length_append] at hlen
    have h := takes_caseOf hc expr pos indent outdent branches (by omega) hg hl
    exact .peek_bind (.locate_bind (.skip_bind h))
  | parent pos path place =>
    exact .peek_bind (.locate_bind (.skip_bind (takes_fileRef path place).bind_pure))
  | inclusion pos filters path place nested =>
    exact .peek_bind (.locate_bind (.skip_bind
      (takes_inclusion hc pos filters path place nested hlen hg hl)))
  | filter f =>
    obtain ⟨name, pos, us, htokens, h⟩ := takes_filter hc inner.rounds f hlen
      (Nat.lt_of_le_of_lt hlen hc.rounds) hg hl
    have hf : (Derivation.filter f).tokens = ⟨.filter name, pos⟩ :: us := htokens
    rw [hf]
    exact .peek_bind (.locate_bind (.skip_bind h))
  | comment value buffered pos region =>
    have h := takes_comment hc value buffered pos region (Nat.le_of_succ_le hlen) hg hl
    exact .peek_bind (.locate_bind (.skip_bind h))
  | dot pos region =>
    have h := takes_verbatimAt hc region (Nat.le_of_succ_le hlen) hg hl (o.place pos)
    exact .peek_bind (.locate_bind (.skip_bind h.bind_pure))
  | run first more =>
    have hg' : first.Greedy (.of (more.tokens ++ rest)) ∧ more.Greedy (.of rest) := by
      rw [Lookahead.of_append]
      exact hg
    have h := takes_textRun hc (by decide) first more hlen hg' hl
    cases first with
    | plain p =>
      cases p with
      | text value pos => exact .peek_bind (.locate_bind h)
      | code c pos => exact .peek_bind (.locate_bind h)
    | interpolated start e stop => exact .peek_bind (.locate_bind h)
  | html value pos more =>
    have h := (takes_html hc value pos more hlen hg hl).bind_pure
      (f := fun nodes => Node.block ⟨nodes, o.place pos⟩)
    exact .peek_bind (.locate_bind h)
  | each iteration pos body =>
    have h := takes_eachLoop hc iteration pos body hlen hg.1 hg.2 hl
    exact .peek_bind (.locate_bind (.skip_bind h))
  | eachElse iteration pos body place alternate =>
    simp only [Derivation.tokens, List.length_cons, List.length_append] at hlen
    rcases hg with ⟨hbody, halternate⟩
    have hbody' : body.Greedy (.of (⟨.else, place⟩ :: (alternate.tokens ++ rest))) := by
      rw [← List.cons_append, Lookahead.of_append]
      exact hbody
    have h := takes_eachLoop_else hc iteration pos place body alternate
      (by rw [List.length_append]; omega) ⟨hbody', halternate⟩ hl
    exact .peek_bind (.locate_bind (.skip_bind h))
  | whileLoop test pos nested =>
    exact .peek_bind (.locate_bind (.skip_bind (takes_whileLoop hc test pos nested hlen hg hl)))
  | conditional test pos nested more =>
    have hg' : nested.Greedy (.of (more.tokens ++ rest)) ∧ more.Greedy (.of rest) := by
      rw [Lookahead.of_append]
      exact hg
    have h := takes_conditional hc test pos nested more hlen hg' hl
    exact .peek_bind (.locate_bind (.skip_bind h))
  | code c pos nested =>
    have h := takes_codeLine hc c pos nested hlen hg hl.1 hl.2
    exact .peek_bind (.locate_bind (.skip_bind h))
  | blockCode pos region =>
    have hr := Nat.le_of_lt (Nat.lt_trans hlen hc.rounds)
    have h := takes_blockCode (o := o) region inner.rounds hr hg pos
    exact .peek_bind (.locate_bind (.skip_bind h))

/-- **The readers for one level of nesting more cover one token more.** -/
theorem covers_ofDepth (o : Options) (depth : Nat) :
    (Inner.ofDepth (depth + 1)).Covers o depth := by
  induction depth with
  | zero => exact ⟨Nat.zero_lt_one, nofun, nofun⟩
  | succ depth ih =>
    refine ⟨Nat.lt_succ_self _, fun e scope rest hlen hg hl => ?_,
      fun b scope rest hlen hg hl => ?_⟩
    · exact takes_expr ih e (Nat.le_of_lt_succ hlen) hg hl
    · exact takes_block ih b (Nat.le_of_lt_succ hlen) hg hl

/-- **What the production that begins at the current token takes has a derivation.** -/
theorem ensures_expr (hs : inner.Sound) :
    (Grammar.expr inner scope).Ensures ts fun _ rest => Derives .expr scope ts rest := by
  refine .peek_bind (fun hts pos => .locate_bind fun loc => .unexpected) fun l pos us hts =>
    .locate_bind fun loc => ?_
  subst hts
  have hrun : l.terminal ∈ Layout.line.starts → (textRun inner scope true).Ensures
      (⟨l, pos⟩ :: us) fun _ rest => Derives .expr scope (⟨l, pos⟩ :: us) rest := fun hl =>
    (ensures_textRun hs (by decide : Layout.lines ≠ .region)).mono fun _ _ h => derives_run hl h
  cases l with
  | tag name => exact .skip_bind (ensures_element hs name loc)
  | mixin name args => exact .skip_bind (ensures_mixin hs name args loc)
  | mixinBlock => exact .skip_bind (ensures_mixinBlock loc)
  | block name mode => exact .skip_bind (ensures_namedBlock hs name mode loc)
  | case e => exact .skip_bind (ensures_caseOf hs e loc)
  | «extends» => exact .skip_bind (ensures_parent loc)
  | «include» => exact .skip_bind (ensures_inclusion hs loc)
  | filter name =>
    refine .skip_bind ((ensures_filter hs inner.rounds name pos loc).mono fun node rest h => ?_)
    rcases h with ⟨f, hts, hg, hl⟩
    exact ⟨.filter f, hts, hg, hl⟩
  | doctype value => exact .skip_bind (.pure ⟨.doctype value pos, rfl, trivial, trivial⟩)
  | comment value buffered => exact .skip_bind (ensures_comment hs value buffered loc)
  | text value => exact hrun (by simp [Lexeme.terminal, Layout.starts])
  | interpolatedCode c => exact hrun (by simp [Lexeme.terminal, Layout.starts])
  | startInterpolation => exact hrun (by decide)
  | textHtml value => exact (ensures_html hs).bind fun nodes rest h => .pure h
  | dot =>
    refine .skip_bind ((ensures_verbatimAt hs loc).bind fun body rest h => .pure ?_)
    rcases h with ⟨region, rfl, hg, hl⟩
    exact ⟨.dot pos region, rfl, hg, hl⟩
  | each iteration => exact .skip_bind (ensures_eachLoop hs iteration loc)
  | code c => exact .skip_bind (ensures_codeLine hs c loc)
  | blockCode => exact .skip_bind (ensures_blockCode inner.rounds loc)
  | «if» test => exact .skip_bind (ensures_conditional hs test loc)
  | «while» test => exact .skip_bind (ensures_whileLoop hs test loc)
  | call name args => exact .skip_bind (ensures_call hs name args loc)
  | interpolation e => exact .skip_bind (ensures_interpolatedElement hs e loc)
  | yield => exact .skip_bind (.pure ⟨.yield pos, rfl, trivial, trivial⟩)
  | idName value => exact ensures_shorthandElement hs (.idName value pos)
  | className value => exact ensures_shorthandElement hs (.className value pos)
  | _ => exact .unexpected

/-- **The readers for every depth are sound.** -/
theorem sound_ofDepth (depth : Nat) : (Inner.ofDepth depth).Sound := by
  induction depth with
  | zero => exact ⟨fun _ _ => .exhausted, fun _ _ => .exhausted⟩
  | succ depth ih => exact ⟨fun _ _ => ensures_expr ih, fun _ _ => ensures_block ih⟩

end Grammar

/-- The tokens before the first end-of-stream token, or all of them if there is none. -/
def beforeEos (ts : List Token) : List Token := ts.takeWhile (·.lexeme ≠ .eos)

/-- The tokens from the first end-of-stream token on. -/
def fromEos (ts : List Token) : List Token := ts.dropWhile (·.lexeme ≠ .eos)

theorem beforeEos_append_fromEos (ts : List Token) : beforeEos ts ++ fromEos ts = ts :=
  List.takeWhile_append_dropWhile

/-- **From the first end-of-stream token on, only the end of the input is seen.** -/
theorem of_fromEos (ts : List Token) : Lookahead.of (fromEos ts) = .finish := by
  induction ts with
  | nil => rfl
  | cons t ts ih =>
    unfold fromEos
    rcases t with ⟨l, pos⟩
    by_cases h : l = .eos
    · subst h
      rfl
    · rw [List.dropWhile_cons_of_pos (by simpa using h)]
      exact ih

/-- The tokens in front of the end of the input are determined by what is behind them. -/
theorem beforeEos_append {us rest : List Token} (hus : EosFree us)
    (hrest : (Lookahead.of rest).next = .eos) : beforeEos (us ++ rest) = us := by
  unfold beforeEos
  rw [List.takeWhile_append_of_pos (by simpa [EosFree] using hus)]
  cases rest with
  | nil => simp
  | cons t rest =>
    rcases t with ⟨l, pos⟩
    obtain rfl : l = .eos := Lexeme.eq_of_terminal hrest rfl
    simp

theorem beforeEos_append_cons {us rest : List Token} {t : Token} (hus : EosFree us)
    (ht : t.lexeme ≠ .eos) : beforeEos (us ++ t :: rest) = us ++ t :: beforeEos rest := by
  unfold beforeEos
  rw [List.takeWhile_append_of_pos (by simpa [EosFree] using hus),
    List.takeWhile_cons_of_pos (by simpa using ht)]

theorem beforeEos_of_eosFree {ts : List Token} (h : EosFree ts) : beforeEos ts = ts := by
  have heos : beforeEos (ts ++ []) = ts := beforeEos_append h rfl
  rwa [List.append_nil] at heos

/-- A derivation by which an input is read: its tokens are those of the input before the
first end-of-stream token, it is greedy at the end of the input, and it is lawful outside
of every mixin. -/
structure Derivation.Reads (d : Derivation .items) (ts : List Token) : Prop where
  tokens_eq : d.tokens = beforeEos ts
  greedy : d.Greedy .finish
  lawful : d.Lawful .outermost

namespace Grammar

/-- The readers under the bound of an input take the derivations of its tokens. -/
theorem run_document (o : Options) (d : Derivation .items) (rest : List Token) (finish : Position)
    (hend : (Lookahead.of rest).next = .eos) (hg : d.Greedy (.of rest)) (hl : d.Lawful .outermost) :
    (document (.ofDepth (budget (d.tokens ++ rest)))).run o (.before finish (d.tokens ++ rest)) =
      ⟨.done ⟨d.meaning o, ⟨.whole, o.filename⟩⟩ (.before finish rest),
        .started o.filename :: d.trail o⟩ := by
  have hlen : d.tokens.length < (d.tokens ++ rest).length + 1 := by
    rw [List.length_append]
    omega
  have h := takes_items (covers_ofDepth o ((d.tokens ++ rest).length + 1)) .eos (by decide) hend d
    hlen hg hl
  exact Reader.Takes.options_bind (.emit_bind h.bind_pure) finish

end Grammar

/-- **A reading of the tokens of a derivation is done** with its meaning and its trail. -/
theorem parse_of_derivation (o : Options) {ts : List Token} {d : Derivation .items}
    (hd : d.Reads ts) :
    ∃ rest, parse o ts =
      ⟨.done ⟨d.meaning o, ⟨.whole, o.filename⟩⟩ rest, .started o.filename :: d.trail o⟩ := by
  rcases hd with ⟨htokens, hg, hl⟩
  have hts : d.tokens ++ fromEos ts = ts := by rw [htokens, beforeEos_append_fromEos]
  have hfinish := of_fromEos ts
  have h := Grammar.run_document o d (fromEos ts)
    (((d.tokens ++ fromEos ts).getLast?.map Token.pos).getD .first) (by rw [hfinish]; rfl)
    (by rwa [hfinish]) hl
  rw [hts] at h
  exact ⟨_, h⟩

/-- **A reading that is done has read the tokens of a derivation.** -/
theorem exists_derivation_of_parse {o : Options} {ts : List Token} {tree : Block} {rest : Cursor}
    (h : (parse o ts).outcome = .done tree rest) :
    ∃ d : Derivation .items, d.Reads ts := by
  have hsound : (Grammar.document (.ofDepth (budget ts))).Ensures ts fun _ rest =>
      Grammar.DerivesUntil .eos .outermost ts rest :=
    .options_bind fun o => .emit_bind
      ((Grammar.ensures_items (Grammar.sound_ofDepth _) (by decide)).bind fun _ _ h => .pure h)
  match hrun : parse o ts with
  | ⟨outcome, events⟩ =>
    rw [hrun] at h
    subst h
    obtain ⟨us, -, ⟨d, rfl, hg, hl⟩, hend⟩ := hsound o _ tree rest events hrun
    refine ⟨d, (beforeEos_append d.eosFree hend).symm, ?_, hl⟩
    have hfinish : Lookahead.of us = .finish := by
      cases us with
      | nil => rfl
      | cons t us =>
        rcases t with ⟨l, pos⟩
        obtain rfl : l = .eos := Lexeme.eq_of_terminal hend rfl
        rfl
    rwa [hfinish] at hg

/-- **The tree of a reading is the meaning of each derivation of its tokens.** -/
theorem tree_eq_of_reads {o : Options} {ts : List Token} {tree : Block} {rest : Cursor}
    (h : (parse o ts).outcome = .done tree rest) {d : Derivation .items} (hd : d.Reads ts) :
    tree = ⟨d.meaning o, ⟨.whole, o.filename⟩⟩ := by
  obtain ⟨rest, hrun⟩ := parse_of_derivation o hd
  rw [hrun] at h
  cases h
  rfl

end Pug
