/-
# What is wrong with an element

The line of an element has no place for a token that is none of its content and does not end
it. What lacks tokens is what stands last: the head, a colon's production, a run, or what is
nested. All that comes before was read to its end, and does not go on with what completes the
last part.
-/

import Pug.Proofs.Complaint.Attributes
import Pug.Proofs.Complaint.Text
import Pug.Proofs.Reading.Element

namespace Pug

open Reader

namespace Grammar

variable {o : Options} {finish : Position} {inner : Inner} {scope : Scope}
  {ts us mid rest : List Token} {pos : Position}

theorem derives_someBlock (h : Derives .block scope ts rest) : Derives .nested scope ts rest := by
  rcases h with ⟨b, hts, hg, hl⟩
  exact ⟨.someBlock b, hts, hg, hl⟩

/-- **A block under something is absent, or it can be completed.** -/
theorem settles_block? (hi : inner.Settles o finish) :
    Settles o finish (inner.block? scope) ts (fun _ rest => Derives .nested scope ts rest)
      (Completes (Derives .nested scope · []) ts) := by
  refine .ensuring (.lookingAt_bind ?_) (ensures_block? hi.sound)
  split
  · rename_i h
    obtain ⟨pos, us, rfl⟩ := Lookahead.exists_cons_of_next (of_decide_eq_true h) rfl (by decide)
    exact .bind ((hi.block scope _).imp fun hc => .of_token (by decide)
      (hc.mono fun _ => derives_someBlock)) fun _ _ _ => .pure trivial
  · exact .pure trivial

theorem settles_blockAt (hi : inner.Settles o finish) (loc : Location) :
    Settles o finish (inner.blockAt scope loc) ts (fun _ rest => Derives .nested scope ts rest)
      (Completes (Derives .nested scope · []) ts) :=
  .ensuring (.bind (settles_block? hi) fun _ _ _ => .pure trivial) (ensures_blockAt hi.sound loc)

theorem derives_colon {closable : Bool} (h : Derives .expr scope us rest) :
    Derives (.content closable) scope (⟨.colon, pos⟩ :: us) rest := by
  rcases h with ⟨e, rfl, hg, hl⟩
  exact ⟨.colon pos e, rfl, hg, hl⟩

/-- The content of a line is complete, or it ends in what lacks tokens. -/
theorem settles_content (hi : inner.Settles o finish) (closable : Bool) (loc : Location) :
    Settles o finish (content inner scope loc closable) ts
      (fun _ rest => Derives (.content closable) scope ts rest)
      (Completes (Derives (.content closable) scope · []) ts) := by
  have hexpected : Content.terminals closable ∈ expectations := by cases closable <;> decide
  have hline : Layout.line ≠ .region := by decide
  refine .ensuring (.peek_bind (fun _ => .locate_bind (.pure trivial)) fun l pos us hts =>
    .locate_bind ?_) (ensures_content hi.sound closable loc)
  subst hts
  cases l with
  | text value =>
    exact .bind ((settles_textRun hi hline).imp fun hc =>
      hc.mono fun _ => derives_lineRun (p := .text value pos)) fun _ _ _ => .pure trivial
  | interpolatedCode c =>
    exact .bind ((settles_textRun hi hline).imp fun hc =>
      hc.mono fun _ => derives_lineRun (p := .code c pos)) fun _ _ _ => .pure trivial
  | code c => exact .skip_bind (by simp) (.pure trivial)
  | colon =>
    exact .skip_bind (by simp) (.bind ((hi.expr scope us).imp fun hc =>
      .of_token (by decide) (hc.cons fun _ => derives_colon)) fun _ _ _ => .pure trivial)
  | slash =>
    cases closable with
    | false => exact .unexpected_cons hexpected (by simp [Token.terminal, Lexeme.terminal,
        Content.terminals])
    | true => exact .skip_bind (by simp) (.pure trivial)
  | newline => exact .pure trivial
  | indent => exact .pure trivial
  | outdent => exact .pure trivial
  | eos => exact .pure trivial
  | startPipelessText => exact .pure trivial
  | endInterpolation => exact .pure trivial
  | _ =>
    refine .unexpected_cons hexpected ?_
    cases closable <;> simp [Token.terminal, Lexeme.terminal, Content.terminals]

/-- What completes the tail of a body completes the body. -/
theorem completes_nesting {closable : Bool} {newlines : List Position}
    (hdot : (Lookahead.of us).next ≠ .dot)
    (hcontent : Derives (.content closable) scope us (newlineTokens newlines ++ mid))
    (hnewline : (Lookahead.of mid).next ≠ .newline)
    (hc : Completes (Derives .nested scope · []) mid) :
    Completes (Derives (.body closable) scope · []) us := by
  obtain ⟨more, hp, hnested⟩ := hc
  have hpast := hp.append (newlineTokens newlines)
  have hextended := hcontent.extend hpast
  rw [List.append_assoc] at hextended
  have hus : Lookahead.Prolongs closers (.of us) (.of (us ++ more)) := by
    obtain ⟨content, rfl, -, -⟩ := hcontent
    exact hpast.append content.tokens
  exact ⟨more, hus, derives_nesting (hus.next_ne (by decide) hdot) hextended
    (hp.next_ne (by decide) hnewline) hnested⟩

theorem completes_textOnly {closable : Bool} {newlines : List Position}
    (hcontent : Derives (.content closable) scope us (newlineTokens newlines ++ mid))
    (hnewline : (Lookahead.of mid).next ≠ .newline)
    (hc : Completes (Derives .region scope · []) mid) :
    Completes (Derives (.body closable) scope · []) (⟨.dot, pos⟩ :: us) := by
  obtain ⟨more, hp, hregion⟩ := hc
  have hextended := hcontent.extend (hp.append (newlineTokens newlines))
  rw [List.append_assoc] at hextended
  exact .of_token (by decide) ⟨more, derives_textOnly hextended (hp.next_ne (by decide) hnewline)
    hregion⟩

theorem derives_noBlock (hnext : (Lookahead.of ts).next ≠ .indent) :
    Derives .nested scope ts ts := ⟨.noBlock, rfl, hnext, trivial⟩

theorem derives_noRegion (hnext : (Lookahead.of ts).next ≠ .startPipelessText) :
    Derives .region scope ts ts := ⟨.noRegion, rfl, hnext, trivial⟩

/-- Content that ends the tokens is a body. -/
theorem derives_line {closable : Bool} (hdot : (Lookahead.of us).next ≠ .dot)
    (h : Derives (.content closable) scope us []) : Derives (.body closable) scope us [] := by
  have hcontent : Derives (.content closable) scope us (newlineTokens [] ++ []) := h
  exact derives_nesting hdot hcontent (by decide) (derives_noBlock (by decide))

theorem derives_textLine {closable : Bool} (h : Derives (.content closable) scope us []) :
    Derives (.body closable) scope (⟨.dot, pos⟩ :: us) [] := by
  have hcontent : Derives (.content closable) scope us (newlineTokens [] ++ []) := h
  exact derives_textOnly hcontent (by decide) (derives_noRegion (by decide))

/-- **A body that lacks tokens can be completed.** -/
theorem settles_body (hi : inner.Settles o finish) (closable : Bool) (loc : Location) :
    Settles o finish (body inner scope loc closable) ts
      (fun _ rest => DerivesBody closable scope ts rest)
      (Completable (DerivesBody closable scope · []) ts) := by
  refine .ensuring (.bind (settles_attributes.imp ?_) fun attrs mid h => ?_)
    (ensures_body hi.sound closable loc)
  · rintro ⟨more, -, head, htokens, hd⟩
    refine ⟨more, ?_⟩
    have hempty : Derives (.body closable) scope [] [] :=
      derives_line (by decide) (derives_noContent (by decide))
    have hbody := derivesBody_of_head hd (by decide) hempty
    rwa [List.append_nil, ← htokens] at hbody
  · obtain ⟨head, rfl, hd, hhead⟩ := h
    have hbody : Completes (Derives (.body closable) scope · []) mid →
        Completable (DerivesBody closable scope · []) (head.flatMap HeadItem.tokens ++ mid) := by
      rintro ⟨more, hp, hbody⟩
      refine ⟨more, ?_⟩
      rw [List.append_assoc]
      exact derivesBody_of_head hd (hp.notMem (by decide) hhead) hbody
    refine .imp ?_ hbody
    refine .accept_bind (by decide) (fun t us hmid ht => ?_) fun hdot => ?_
    · rcases t with ⟨l, pos⟩
      obtain rfl : l = .dot := Lexeme.eq_of_terminal ht rfl
      subst hmid
      refine .bind ((settles_content hi closable loc).imp fun hc => ?_) fun line vs hcontent => ?_
      · exact hc.cons fun _ => derives_textLine
      · refine .skipNewlines_bind fun newlines ws hvs hnewline => ?_
        subst hvs
        exact .bind ((settles_verbatimAt hi loc).imp (completes_textOnly hcontent hnewline))
          fun _ _ _ => .pure trivial
    · refine .bind ((settles_content hi closable loc).imp fun hc => ?_) fun line vs hcontent => ?_
      · obtain ⟨more, hp, h⟩ := hc
        exact ⟨more, hp, derives_line (hp.next_ne (by decide) hdot) h⟩
      · refine .skipNewlines_bind fun newlines ws hvs hnewline => ?_
        subst hvs
        have htail : Settles o finish (tail inner scope loc false line.block) ws
            (fun _ _ => True) (Completes (Derives (.body closable) scope · []) mid) :=
          .bind ((settles_blockAt hi loc).imp (completes_nesting hdot hcontent hnewline))
            fun _ _ _ => .pure trivial
        exact .bind htail fun _ _ _ => .pure trivial

theorem settles_element (hi : inner.Settles o finish) (name : String) (loc : Location) :
    Settles o finish (element inner scope name loc) us (fun _ _ => True)
      (Completable (Derives .expr scope · []) (⟨.tag name, pos⟩ :: us)) :=
  .bind ((settles_body hi true loc).imp fun hc => hc.cons fun _ => derives_tag)
    fun _ _ _ => .pure trivial

theorem settles_interpolatedElement (hi : inner.Settles o finish) (expr : String)
    (loc : Location) :
    Settles o finish (interpolatedElement inner scope expr loc) us (fun _ _ => True)
      (Completable (Derives .expr scope · []) (⟨.interpolation expr, pos⟩ :: us)) :=
  .bind ((settles_body hi true loc).imp fun hc => hc.cons fun _ => derives_interpolatedTag)
    fun _ _ _ => .pure trivial

theorem settles_call (hi : inner.Settles o finish) (name : String) (args : Option String)
    (loc : Location) :
    Settles o finish (call inner scope name args loc) us (fun _ _ => True)
      (Completable (Derives .expr scope · []) (⟨.call name args, pos⟩ :: us)) :=
  .bind ((settles_body hi false loc).imp fun hc => hc.cons fun _ => derives_call)
    fun _ _ _ => .pure trivial

theorem settles_shorthandElement (hi : inner.Settles o finish) (first : Shorthand) :
    Settles o finish (shorthandElement inner scope first.pos) (first.token :: us)
      (fun _ _ => True) (Completable (Derives .expr scope · []) (first.token :: us)) := by
  unfold Settles
  rw [run_shorthandElement]
  have helement : Settles o finish (element inner scope "div" (o.place first.pos))
      (first.token :: us) (fun _ _ => True)
      (Completable (Derives .expr scope · []) (first.token :: us)) :=
    .bind ((settles_body hi true _).imp fun hc => hc.mono fun _ => derives_shorthand)
      fun _ _ _ => .pure trivial
  exact Settled.after helement _

end Grammar
end Pug
