/-
# What elements take

An element takes a head, the content of its line, line breaks and what is nested in
it. Run and block on the line are lists of nodes already, since a run on the line of
an element begins with text or code. A shorthand puts the token of a name in front of
itself and takes it again.
-/

import Pug.Grammar.Mixin
import Pug.Proofs.Reading.Attributes
import Pug.Proofs.Reading.Block
import Pug.Proofs.Reading.Text

namespace Pug
namespace Grammar

open Reader

/-- The nodes of a run that begins with text or code are those of its parts. -/
theorem spliced_gather (o : Options) (loc : Location) (p : Plain) (nodes : List Node) :
    (gather loc (p.node o :: nodes)).spliced = p.node o :: nodes := by
  cases nodes with
  | nil => cases p <;> rfl
  | cons node nodes => rfl

/-- **The token that a shorthand puts in front of itself is gone past at once.** -/
theorem run_shorthandElement (inner : Inner) (scope : Scope) (pos : Position) (o : Options)
    (finish : Position) (ts : List Token) :
    (shorthandElement inner scope pos).run o (.before finish ts) =
      ((element inner scope "div" (o.place pos)).run o (.before finish ts)).after
        [.shorthand pos.line, .deferred 1] := by
  have hback : ((Cursor.before finish ts).defer ⟨.tag "div", pos⟩).advance =
      .before finish ts := rfl
  simp only [shorthandElement, run_bind, run_emit, run_defer, run_skip, run_locate,
    Run.andThen_done, Run.after_nil, Run.after_after, hback]
  rfl

section Takes

variable {o : Options} {inner : Inner} {size : Nat} {scope : Scope} {rest : List Token}

theorem takes_noContent {closable : Bool} (hnext : (Lookahead.of rest).next ∈ contentFollows)
    (loc : Location) : (content inner scope loc closable).Takes o [] rest (.none loc) [] := by
  refine .next_bind fun t ht => .locate_bind ?_
  have hmem : t.terminal ∈ contentFollows := ht ▸ hnext
  rcases t with ⟨l, pos⟩
  cases l with
  | newline => exact .pure
  | indent => exact .pure
  | outdent => exact .pure
  | eos => exact .pure
  | startPipelessText => exact .pure
  | endInterpolation => exact .pure
  | _ => simp [contentFollows, Token.terminal, Lexeme.terminal] at hmem

theorem takes_content (hc : inner.Covers o size) {closable : Bool}
    (d : Derivation (.content closable)) (hlen : d.tokens.length ≤ size)
    (hg : d.Greedy (.of rest)) (hl : d.Lawful scope) (loc : Location) :
    (content inner scope loc closable).Takes o d.tokens rest (d.meaning o loc) (d.trail o) := by
  cases d with
  | noContent => exact takes_noContent hg loc
  | lineRun first more =>
    have hrun := takes_textRun hc (by decide) (.plain first) more hlen
      ⟨trivial, hg⟩ ⟨trivial, hl⟩
    have h := hrun.bind_pure (f := fun node => (⟨false, ⟨node.spliced, loc⟩⟩ : Content))
    have hvalue : (gather (o.place (Derivation.plain first).fragmentStart)
        ((Derivation.plain first).meaning o :: more.meaning o)).spliced =
          first.node o :: more.meaning o := spliced_gather o _ first _
    rw [hvalue] at h
    cases first with
    | text value pos => exact .peek_bind (.locate_bind h)
    | code c pos => exact .peek_bind (.locate_bind h)
  | lineCode c pos => exact .peek_bind (.locate_bind (.skip_bind .pure))
  | colon pos e =>
    have he := hc.expr e scope rest hlen hg hl
    exact .peek_bind (.locate_bind (.skip_bind he.bind_pure))
  | slash pos => exact .peek_bind (.locate_bind (.skip_bind .pure))

/-- **A body takes the head, the line, line breaks and what is nested.** -/
theorem takes_body (hc : inner.Covers o size) {closable : Bool} (head : List HeadItem)
    (d : Derivation (.body closable))
    (hsize : (head.flatMap HeadItem.tokens).length ≤ size) (hlen : d.tokens.length < size)
    (hd : HeadItem.Distinct head) (hhead : (Lookahead.of (d.tokens ++ rest)).next ∉ headStarts)
    (hg : d.Greedy (.of rest)) (hl : d.Lawful scope) (loc : Location) :
    (body inner scope loc closable).Takes o (head.flatMap HeadItem.tokens ++ d.tokens) rest
      (d.meaning o loc (HeadItem.attributes o head))
      (HeadItem.trail o false head ++ d.trail o) := by
  refine .bind (takes_attributes head (Nat.lt_of_le_of_lt hsize hc.rounds) hd hhead) ?_
  cases d with
  | nesting line newlines nested =>
    simp only [Derivation.tokens, List.length_append] at hlen
    rcases hg with ⟨hdot, hline, hnewline, hnested⟩
    rw [← Lookahead.of_append] at hdot hline hnewline
    have htail : (tail inner scope loc false (line.meaning o loc).block).Takes o nested.tokens rest
        ⟨(line.meaning o loc).block.nodes ++ ((nested.meaning o).getD (.empty loc)).nodes,
          (line.meaning o loc).block.loc⟩ (nested.trail o) :=
      (takes_blockAt hc nested (by omega) hnested hl.2 loc).bind_pure
    have h := htail.bind_pure (f := fun block => (⟨HeadItem.attributes o head,
      (line.meaning o loc).selfClosing, false, block⟩ : Body))
    exact .refuse_bind hdot
      (.bind (takes_content hc line (by omega) hline hl.1 loc) (.skipNewlines_bind hnewline h))
  | textOnly pos line newlines region =>
    simp only [Derivation.tokens, List.length_cons, List.length_append] at hlen
    rcases hg with ⟨hline, hnewline, hregion⟩
    rw [← Lookahead.of_append] at hline hnewline
    have htail : (tail inner scope loc true (line.meaning o loc).block).Takes o region.tokens rest
        ((region.meaning o).getD (.empty loc)) (region.trail o) :=
      takes_verbatimAt hc region (by omega) hregion hl.2 loc
    have h := htail.bind_pure (f := fun block => (⟨HeadItem.attributes o head,
      (line.meaning o loc).selfClosing, true, block⟩ : Body))
    exact .accept_bind (by rfl)
      (.bind (takes_content hc line (by omega) hline hl.1 loc) (.skipNewlines_bind hnewline h))

theorem takes_element (hc : inner.Covers o size) (name : String) (pos : Position)
    (head : List HeadItem) (d : Derivation (.body true))
    (hlen : (Derivation.tag name pos head d).tokens.length ≤ size)
    (hg : (Derivation.tag name pos head d).Greedy (.of rest))
    (hl : (Derivation.tag name pos head d).Lawful scope) :
    (element inner scope name (o.place pos)).Takes o (head.flatMap HeadItem.tokens ++ d.tokens)
      rest ((Derivation.tag name pos head d).meaning o)
      ((Derivation.tag name pos head d).trail o) := by
  simp only [Derivation.tokens, List.length_cons, List.length_append] at hlen
  rcases hg with ⟨hhead, hbody⟩
  rw [← Lookahead.of_append] at hhead
  exact (takes_body hc head d (by omega) (by omega) hl.1 hhead hbody hl.2 _).bind_pure

theorem takes_interpolatedElement (hc : inner.Covers o size) (expr : String) (pos : Position)
    (head : List HeadItem) (d : Derivation (.body true))
    (hlen : (Derivation.interpolatedTag expr pos head d).tokens.length ≤ size)
    (hg : (Derivation.interpolatedTag expr pos head d).Greedy (.of rest))
    (hl : (Derivation.interpolatedTag expr pos head d).Lawful scope) :
    (interpolatedElement inner scope expr (o.place pos)).Takes o
      (head.flatMap HeadItem.tokens ++ d.tokens) rest
      ((Derivation.interpolatedTag expr pos head d).meaning o)
      ((Derivation.interpolatedTag expr pos head d).trail o) := by
  simp only [Derivation.tokens, List.length_cons, List.length_append] at hlen
  rcases hg with ⟨hhead, hbody⟩
  rw [← Lookahead.of_append] at hhead
  exact (takes_body hc head d (by omega) (by omega) hl.1 hhead hbody hl.2 _).bind_pure

theorem takes_shorthandElement (hc : inner.Covers o size) (first : Shorthand)
    (head : List HeadItem) (d : Derivation (.body true))
    (hlen : (Derivation.shorthand first head d).tokens.length ≤ size)
    (hg : (Derivation.shorthand first head d).Greedy (.of rest))
    (hl : (Derivation.shorthand first head d).Lawful scope) :
    (shorthandElement inner scope first.pos).Takes o (Derivation.shorthand first head d).tokens
      rest ((Derivation.shorthand first head d).meaning o)
      ((Derivation.shorthand first head d).trail o) := by
  simp only [Derivation.tokens, List.length_cons, List.length_append] at hlen
  rcases hg with ⟨hhead, hbody⟩
  rw [← Lookahead.of_append] at hhead
  have hsize : ((HeadItem.shorthand first :: head).flatMap HeadItem.tokens).length ≤ size := by
    simp only [List.flatMap_cons, HeadItem.tokens, List.length_append, List.length_cons,
      List.length_nil]
    omega
  have h := (takes_body hc (.shorthand first :: head) d hsize (by omega) hl.1 hhead hbody hl.2
    (o.place first.pos)).bind_pure (f := fun b => Node.tag "div" b.selfClosing b.textOnly
      (isInlineName "div") b.attrs b.block (o.place first.pos))
  intro finish
  rw [run_shorthandElement]
  exact congrArg (Run.after _) (h finish)

theorem takes_call (hc : inner.Covers o size) (name : String) (args : Option String)
    (pos : Position) (head : List HeadItem) (d : Derivation (.body false))
    (hlen : (Derivation.call name args pos head d).tokens.length ≤ size)
    (hg : (Derivation.call name args pos head d).Greedy (.of rest))
    (hl : (Derivation.call name args pos head d).Lawful scope) :
    (call inner scope name args (o.place pos)).Takes o (head.flatMap HeadItem.tokens ++ d.tokens)
      rest ((Derivation.call name args pos head d).meaning o)
      ((Derivation.call name args pos head d).trail o) := by
  simp only [Derivation.tokens, List.length_cons, List.length_append] at hlen
  rcases hg with ⟨hhead, hbody⟩
  rw [← Lookahead.of_append] at hhead
  exact (takes_body hc head d (by omega) (by omega) hl.1 hhead hbody hl.2 _).bind_pure

end Takes

section Ensures

variable {inner : Inner} {scope : Scope} {ts us mid rest : List Token} {pos : Position}

theorem derives_noContent {closable : Bool} (hnext : (Lookahead.of ts).next ∈ contentFollows) :
    Derives (.content closable) scope ts ts := ⟨.noContent, rfl, hnext, trivial⟩

theorem derives_noContent_cons {closable : Bool} {l : Lexeme} (h : l.terminal ∈ contentFollows) :
    Derives (.content closable) scope (⟨l, pos⟩ :: us) (⟨l, pos⟩ :: us) := derives_noContent h

/-- A run that begins with text or code is the content of a line. -/
theorem derives_lineRun {closable : Bool} {p : Plain}
    (h : Derives (.parts .line) scope (p.token :: us) rest) :
    Derives (.content closable) scope (p.token :: us) rest := by
  rcases h with ⟨d, hts, hg, hl⟩
  cases d with
  | endParts =>
    obtain rfl : p.token :: us = rest := hts
    refine absurd ?_ hg
    cases p <;> simp [Lookahead.of, Layout.starts, Plain.token, Token.terminal, Lexeme.terminal]
  | lineBreak spread place more => exact absurd rfl spread
  | part f more =>
    cases f with
    | plain q =>
      obtain ⟨hpq, rfl⟩ : p.token = q.token ∧ us = more.tokens ++ rest := by
        simpa [Derivation.tokens] using hts
      exact ⟨.lineRun q more, by simp [Derivation.tokens, hpq], hg.2, hl.2⟩
    | interpolated start e stop =>
      have hpq : p.token = ⟨.startInterpolation, start⟩ := by
        have h := congrArg List.head? hts
        simpa [Derivation.tokens] using h
      cases p <;> cases hpq

theorem ensures_content (hs : inner.Sound) (closable : Bool) (loc : Location) :
    (content inner scope loc closable).Ensures ts fun _ rest =>
      Derives (.content closable) scope ts rest := by
  refine .peek_bind (fun hts pos => .locate_bind fun place => ?_) fun l pos us hts =>
    .locate_bind fun place => ?_
  · subst hts
    exact .pure (derives_noContent (by decide))
  · subst hts
    cases l with
    | text value =>
      exact (ensures_textRun hs (by decide : Layout.line ≠ .region)).bind fun node rest h =>
        .pure (derives_lineRun (p := .text value pos) h)
    | interpolatedCode c =>
      exact (ensures_textRun hs (by decide : Layout.line ≠ .region)).bind fun node rest h =>
        .pure (derives_lineRun (p := .code c pos) h)
    | code c => exact .skip_bind (.pure ⟨.lineCode c pos, rfl, trivial, trivial⟩)
    | colon =>
      refine .skip_bind ((hs.expr scope us).bind fun node rest h => .pure ?_)
      rcases h with ⟨e, rfl, hg, hl⟩
      exact ⟨.colon pos e, rfl, hg, hl⟩
    | slash =>
      cases closable with
      | false => exact .unexpected
      | true => exact .skip_bind (.pure ⟨.slash pos, rfl, trivial, trivial⟩)
    | newline => exact .pure (derives_noContent_cons (by decide))
    | indent => exact .pure (derives_noContent_cons (by decide))
    | outdent => exact .pure (derives_noContent_cons (by decide))
    | eos => exact .pure (derives_noContent_cons (by decide))
    | startPipelessText => exact .pure (derives_noContent_cons (by decide))
    | endInterpolation => exact .pure (derives_noContent_cons (by decide))
    | _ => exact .unexpected

/-- The tokens `ts` are those of a distinct head and of a body, and then `rest`. -/
def DerivesBody (closable : Bool) (scope : Scope) (ts rest : List Token) : Prop :=
  ∃ (head : List HeadItem) (d : Derivation (.body closable)),
    ts = head.flatMap HeadItem.tokens ++ (d.tokens ++ rest) ∧ HeadItem.Distinct head ∧
    (Lookahead.of (d.tokens ++ rest)).next ∉ headStarts ∧ d.Greedy (.of rest) ∧ d.Lawful scope

theorem derives_textOnly {closable : Bool} {newlines : List Position}
    (hcontent : Derives (.content closable) scope us (newlineTokens newlines ++ mid))
    (hnewline : (Lookahead.of mid).next ≠ .newline) (hregion : Derives .region scope mid rest) :
    Derives (.body closable) scope (⟨.dot, pos⟩ :: us) rest := by
  rcases hcontent with ⟨content, rfl, hg, hl⟩
  rcases hregion with ⟨region, rfl, hg', hl'⟩
  refine ⟨.textOnly pos content newlines region, by simp [Derivation.tokens], ⟨?_, ?_, hg'⟩, hl,
    hl'⟩
  · rw [← Lookahead.of_append, List.append_assoc]
    exact hg
  · rw [← Lookahead.of_append]
    exact hnewline

theorem derives_nesting {closable : Bool} {newlines : List Position}
    (hdot : (Lookahead.of us).next ≠ .dot)
    (hcontent : Derives (.content closable) scope us (newlineTokens newlines ++ mid))
    (hnewline : (Lookahead.of mid).next ≠ .newline) (hnested : Derives .nested scope mid rest) :
    Derives (.body closable) scope us rest := by
  rcases hcontent with ⟨content, rfl, hg, hl⟩
  rcases hnested with ⟨nested, rfl, hg', hl'⟩
  refine ⟨.nesting content newlines nested, by simp [Derivation.tokens], ⟨?_, ?_, ?_, hg'⟩, hl,
    hl'⟩
  · rw [← Lookahead.of_append, List.append_assoc, List.append_assoc]
    exact hdot
  · rw [← Lookahead.of_append, List.append_assoc]
    exact hg
  · rw [← Lookahead.of_append]
    exact hnewline

theorem derivesBody_of_head {closable : Bool} {head : List HeadItem}
    (hd : HeadItem.Distinct head) (hhead : (Lookahead.of us).next ∉ headStarts)
    (hbody : Derives (.body closable) scope us rest) :
    DerivesBody closable scope (head.flatMap HeadItem.tokens ++ us) rest := by
  rcases hbody with ⟨d, rfl, hg, hl⟩
  exact ⟨head, d, rfl, hd, hhead, hg, hl⟩

theorem ensures_body (hs : inner.Sound) (closable : Bool) (loc : Location) :
    (body inner scope loc closable).Ensures ts fun _ rest =>
      DerivesBody closable scope ts rest := by
  refine ensures_attributes.bind fun attrs mid h => ?_
  rcases h with ⟨head, rfl, hd, hhead⟩
  refine .accept_bind (by decide) (fun t us hmid ht => ?_) fun hdot => ?_
  · rcases t with ⟨l, pos⟩
    obtain rfl : l = .dot := Lexeme.eq_of_terminal ht rfl
    subst hmid
    refine (ensures_content hs closable loc).bind fun line us hcontent => ?_
    refine .skipNewlines_bind fun newlines vs hus hnewline => ?_
    refine (ensures_verbatimAt hs loc).bind fun body rest hregion => .pure ?_
    subst hus
    exact derivesBody_of_head hd hhead (derives_textOnly hcontent hnewline hregion)
  · refine (ensures_content hs closable loc).bind fun line us hcontent => ?_
    refine .skipNewlines_bind fun newlines vs hus hnewline => ?_
    have htail : (tail inner scope loc false line.block).Ensures vs fun _ rest =>
        Derives .nested scope vs rest := (ensures_blockAt hs loc).bind fun _ _ h => .pure h
    refine htail.bind fun body rest hnested => .pure ?_
    subst hus
    exact derivesBody_of_head hd hhead (derives_nesting hdot hcontent hnewline hnested)

theorem derives_tag {name : String} (h : DerivesBody true scope us rest) :
    Derives .expr scope (⟨.tag name, pos⟩ :: us) rest := by
  rcases h with ⟨head, d, rfl, hd, hhead, hg, hl⟩
  rw [Lookahead.of_append] at hhead
  exact ⟨.tag name pos head d, by simp [Derivation.tokens], ⟨hhead, hg⟩, hd, hl⟩

theorem derives_interpolatedTag {expr : String} (h : DerivesBody true scope us rest) :
    Derives .expr scope (⟨.interpolation expr, pos⟩ :: us) rest := by
  rcases h with ⟨head, d, rfl, hd, hhead, hg, hl⟩
  rw [Lookahead.of_append] at hhead
  exact ⟨.interpolatedTag expr pos head d, by simp [Derivation.tokens], ⟨hhead, hg⟩, hd, hl⟩

theorem derives_call {name : String} {args : Option String} (h : DerivesBody false scope us rest) :
    Derives .expr scope (⟨.call name args, pos⟩ :: us) rest := by
  rcases h with ⟨head, d, rfl, hd, hhead, hg, hl⟩
  rw [Lookahead.of_append] at hhead
  exact ⟨.call name args pos head d, by simp [Derivation.tokens], ⟨hhead, hg⟩, hd, hl⟩

theorem ensures_element (hs : inner.Sound) (name : String) (loc : Location) :
    (element inner scope name loc).Ensures us fun _ rest =>
      Derives .expr scope (⟨.tag name, pos⟩ :: us) rest :=
  (ensures_body hs true loc).bind fun _ _ h => .pure (derives_tag h)

theorem ensures_interpolatedElement (hs : inner.Sound) (expr : String) (loc : Location) :
    (interpolatedElement inner scope expr loc).Ensures us fun _ rest =>
      Derives .expr scope (⟨.interpolation expr, pos⟩ :: us) rest :=
  (ensures_body hs true loc).bind fun _ _ h => .pure (derives_interpolatedTag h)

theorem ensures_call (hs : inner.Sound) (name : String) (args : Option String)
    (loc : Location) :
    (call inner scope name args loc).Ensures us fun _ rest =>
      Derives .expr scope (⟨.call name args, pos⟩ :: us) rest :=
  (ensures_body hs false loc).bind fun _ _ h => .pure (derives_call h)

/-- A head and a body that begin with a shorthand are an element without a name. -/
theorem derives_shorthand {first : Shorthand}
    (h : DerivesBody true scope (first.token :: us) rest) :
    Derives .expr scope (first.token :: us) rest := by
  rcases h with ⟨head, d, hts, hd, hhead, hg, hl⟩
  cases head with
  | nil =>
    rw [← show first.token :: us = d.tokens ++ rest from hts] at hhead
    exact absurd first.terminal_mem_headStarts hhead
  | cons item head =>
    obtain rfl : item = .shorthand first := by
      have htoken := congrArg List.head? hts
      cases item with
      | shorthand s =>
        cases first <;> cases s <;> cases htoken <;> rfl
      | andAttributes expr pos => cases first <;> cases htoken
      | group g => cases first <;> cases htoken
    rw [Lookahead.of_append] at hhead
    refine ⟨.shorthand first head d, ?_, ⟨hhead, hg⟩, hd, hl⟩
    simpa [Derivation.tokens, HeadItem.tokens] using hts

theorem ensures_shorthandElement (hs : inner.Sound) (first : Shorthand) :
    (shorthandElement inner scope first.pos).Ensures (first.token :: us) fun _ rest =>
      Derives .expr scope (first.token :: us) rest := by
  intro o finish node c events hrun
  rw [run_shorthandElement] at hrun
  have helement : (element inner scope "div" (o.place first.pos)).Ensures (first.token :: us)
      fun _ rest => Derives .expr scope (first.token :: us) rest :=
    (ensures_body hs true _).bind fun b rest h => .pure (derives_shorthand h)
  match h : (element inner scope "div" (o.place first.pos)).run o
      (.before finish (first.token :: us)) with
  | ⟨outcome, more⟩ =>
    rw [h] at hrun
    obtain rfl : outcome = .done node c := congrArg Run.outcome hrun
    exact helement o finish node c more h

end Ensures

end Grammar
end Pug
