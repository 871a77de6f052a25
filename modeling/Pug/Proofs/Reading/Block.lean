/-
# What blocks and lists of productions take

A block is read where an indent comes next. A list of productions is read up to
the terminal that ends it, which no production begins with, and its items are
told apart by their first token: lines of HTML are read in place, and every other
production is read by the readers for what is nested.
-/

import Pug.Grammar.Block
import Pug.Proofs.Reading.Basic

namespace Pug

namespace Derivation

/-- **A production begins with one of the terminals that begin a production,** and only
lines of HTML begin with the terminal of HTML. -/
theorem expr_head (e : Derivation .expr) :
    (∃ value pos more, e = .html value pos more) ∨
      ∃ t us, e.tokens = t :: us ∧ t.terminal ∈ exprStarts ∧ t.terminal ≠ .textHtml := by
  have hstart : ∀ {l : Lexeme} {pos : Position} {us : List Token}, e.tokens = ⟨l, pos⟩ :: us →
      l.terminal ∈ exprStarts ∧ l.terminal ≠ .textHtml →
      ∃ t us, e.tokens = t :: us ∧ t.terminal ∈ exprStarts ∧ t.terminal ≠ .textHtml :=
    fun h hl => ⟨_, _, h, hl⟩
  cases e with
  | html value pos more => exact .inl ⟨value, pos, more, rfl⟩
  | filter f =>
    cases f <;> exact .inr (hstart rfl (by simp [Lexeme.terminal, exprStarts]))
  | run first more =>
    cases first with
    | plain p => cases p <;> exact .inr (hstart rfl (by simp [Lexeme.terminal, exprStarts]))
    | interpolated start e stop =>
      exact .inr (hstart rfl (by simp [Lexeme.terminal, exprStarts]))
  | shorthand first head body =>
    cases first <;> exact .inr (hstart rfl (by simp [Lexeme.terminal, exprStarts]))
  | _ => exact .inr (hstart rfl (by simp [Lexeme.terminal, exprStarts]))

end Derivation

namespace Grammar

open Reader

section Takes

variable {o : Options} {inner : Inner} {size : Nat} {scope : Scope} {rest : List Token}

theorem takes_block? (hc : inner.Covers o size) (d : Derivation .nested)
    (hlen : d.tokens.length < size) (hg : d.Greedy (.of rest)) (hl : d.Lawful scope) :
    (inner.block? scope).Takes o d.tokens rest (d.meaning o) (d.trail o) := by
  cases d with
  | noBlock =>
    refine .overlook_bind ?_ .pure
    exact hg
  | someBlock b =>
    have h := (hc.block b scope rest hlen hg hl).bind_pure (f := some)
    cases b with
    | block indent items outdent => exact .see_bind (by rfl) h

theorem takes_blockAt (hc : inner.Covers o size) (d : Derivation .nested)
    (hlen : d.tokens.length < size) (hg : d.Greedy (.of rest)) (hl : d.Lawful scope)
    (loc : Location) :
    (inner.blockAt scope loc).Takes o d.tokens rest ((d.meaning o).getD (.empty loc))
      (d.trail o) :=
  (takes_block? hc d hlen hg hl).bind_pure

theorem takes_htmlItems (hc : inner.Covers o size) (rounds : Nat) (d : Derivation .html)
    (hlen : d.tokens.length < size) (hr : d.tokens.length < rounds) (hg : d.Greedy (.of rest))
    (hl : d.Lawful scope) :
    ∃ items, (many (htmlItem inner scope) rounds).Takes o d.tokens rest items (d.trail o) ∧
      items.flatten = d.meaning o := by
  match d with
  | .endHtml =>
    refine ⟨[], .many_none (by omega) (.next_bind fun t ht => ?_), rfl⟩
    have hstart := Lookahead.terminal_ne ht hg
    split
    · rename_i h
      exact absurd (congrArg Lexeme.terminal h) (hstart .textHtml (by decide))
    · rename_i h
      exact absurd (congrArg Lexeme.terminal h) (hstart .indent (by decide))
    · rename_i h
      exact absurd (congrArg Lexeme.terminal h) (hstart .newline (by decide))
    · exact .pure
  | .htmlNewline pos more =>
    simp only [Derivation.tokens, List.length_cons] at hlen hr
    obtain ⟨items, hitems, hvalue⟩ :=
      takes_htmlItems hc (rounds - 1) more (by omega) (by omega) hg hl
    have hitem : (htmlItem inner scope).Takes o [⟨.newline, pos⟩] (more.tokens ++ rest)
        (some []) [] := .peek_bind (.skip_bind .pure)
    exact ⟨[] :: items, .many_some (by omega) hitem hitems, hvalue⟩
  | .htmlLine value pos more =>
    simp only [Derivation.tokens, List.length_cons] at hlen hr
    obtain ⟨items, hitems, hvalue⟩ :=
      takes_htmlItems hc (rounds - 1) more (by omega) (by omega) hg hl
    have hitem : (htmlItem inner scope).Takes o [⟨.textHtml value, pos⟩] (more.tokens ++ rest)
        (some [.text value true (o.place pos)]) [] :=
      .peek_bind (.skip_bind (.locate_bind .pure))
    refine ⟨_ :: items, .many_some (by omega) hitem hitems, ?_⟩
    rw [List.flatten_cons, hvalue]
    rfl
  | .htmlBlock b more =>
    have hpos := b.length_block_pos
    simp only [Derivation.tokens, List.length_append] at hlen hr
    obtain ⟨hb, hmore⟩ : b.Greedy (.of (more.tokens ++ rest)) ∧ more.Greedy (.of rest) := by
      rw [Lookahead.of_append]
      exact hg
    obtain ⟨items, hitems, hvalue⟩ :=
      takes_htmlItems hc (rounds - 1) more (by omega) (by omega) hmore hl.2
    have hblock := (hc.block b scope (more.tokens ++ rest) (by omega) hb hl.1).bind_pure
      (f := fun b => some b.nodes)
    have hitem : (htmlItem inner scope).Takes o b.tokens (more.tokens ++ rest)
        (some (b.meaning o).nodes) (b.trail o) := by
      cases b with
      | block indent bitems outdent => exact .peek_bind hblock
    refine ⟨_ :: items, .many_some (by omega) hitem hitems, ?_⟩
    rw [List.flatten_cons, hvalue]
    rfl

theorem takes_html (hc : inner.Covers o size) (value : String) (pos : Position)
    (d : Derivation .html) (hlen : d.tokens.length < size) (hg : d.Greedy (.of rest))
    (hl : d.Lawful scope) :
    (html inner scope).Takes o (⟨.textHtml value, pos⟩ :: d.tokens) rest
      (joinHtml (.text value true (o.place pos) :: d.meaning o)) (d.trail o) := by
  have hr := hc.rounds
  obtain ⟨items, hitems, hvalue⟩ := takes_htmlItems hc (inner.rounds - 1) d hlen (by omega) hg hl
  have hitem : (htmlItem inner scope).Takes o [⟨.textHtml value, pos⟩] (d.tokens ++ rest)
      (some [.text value true (o.place pos)]) [] :=
    .peek_bind (.skip_bind (.locate_bind .pure))
  have hloop := Takes.many_some (by omega) hitem hitems
  have h := hloop.bind_pure (f := fun items => joinHtml items.flatten)
  rw [List.flatten_cons, hvalue] at h
  rw [html_eq]
  exact h

theorem takes_item (hc : inner.Covers o size) {stop : Terminal} (hstop : stop ∉ exprStarts)
    (e : Derivation .expr) (hlen : e.tokens.length < size) (hg : e.Greedy (.of rest))
    (hl : e.Lawful scope) :
    (item inner scope stop).Takes o e.tokens rest (some (e.meaning o).spliced) (e.trail o) := by
  rcases e.expr_head with ⟨value, pos, more, rfl⟩ | ⟨t, us, htokens, hmem, hne⟩
  · have h := (takes_html hc value pos more (Nat.lt_of_succ_lt hlen) hg hl).bind_pure (f := some)
    have hneg : Terminal.textHtml ≠ stop := fun h => hstop (h ▸ by decide)
    refine .peek_bind ?_
    rw [if_neg (by exact hneg)]
    exact h
  · have h := (hc.expr e scope rest hlen hg hl).bind_pure (f := fun node => some node.spliced)
    rw [htokens] at h ⊢
    have hneg : t.terminal ≠ stop := fun h => hstop (h ▸ hmem)
    refine .peek_bind ?_
    rw [if_neg hneg]
    split
    · rename_i hnewline
      rw [hnewline] at hmem
      exact absurd hmem (by decide)
    · rename_i hhtml
      exact absurd hhtml hne
    · exact h

theorem takes_itemList (hc : inner.Covers o size) (stop : Terminal)
    (hstop : stop ∉ .newline :: exprStarts) (hnext : (Lookahead.of rest).next = stop)
    (rounds : Nat) (d : Derivation .items) (hlen : d.tokens.length < size)
    (hr : d.tokens.length < rounds) (hg : d.Greedy (.of rest)) (hl : d.Lawful scope) :
    ∃ lists, (many (item inner scope stop) rounds).Takes o d.tokens rest lists (d.trail o) ∧
      lists.flatten = d.meaning o := by
  match d with
  | .nil =>
    refine ⟨[], .many_none (by omega) (.next_bind fun t ht => ?_), rfl⟩
    rw [if_pos (ht.trans hnext)]
    exact .pure
  | .newline pos more =>
    simp only [Derivation.tokens, List.length_cons] at hlen hr
    obtain ⟨lists, hlists, hvalue⟩ :=
      takes_itemList hc stop hstop hnext (rounds - 1) more (by omega) (by omega) hg hl
    have hitem : (item inner scope stop).Takes o [⟨.newline, pos⟩] (more.tokens ++ rest)
        (some []) [] := by
      have hneg : Terminal.newline ≠ stop := fun h => hstop (h ▸ by decide)
      refine .peek_bind ?_
      rw [if_neg (by exact hneg)]
      exact .skip_bind .pure
    exact ⟨[] :: lists, .many_some (by omega) hitem hlists, hvalue⟩
  | .item e more =>
    have hpos := e.length_expr_pos
    simp only [Derivation.tokens, List.length_append] at hlen hr
    obtain ⟨he, hmore⟩ : e.Greedy (.of (more.tokens ++ rest)) ∧ more.Greedy (.of rest) := by
      rw [Lookahead.of_append]
      exact hg
    obtain ⟨lists, hlists, hvalue⟩ :=
      takes_itemList hc stop hstop hnext (rounds - 1) more (by omega) (by omega) hmore hl.2
    have hitem := takes_item hc (fun h => hstop (List.mem_cons_of_mem _ h)) e (by omega) he hl.1
    refine ⟨_ :: lists, .many_some (by omega) hitem hlists, ?_⟩
    rw [List.flatten_cons, hvalue]
    rfl

/-- **A list of productions takes its items** up to the terminal that ends it. -/
theorem takes_items (hc : inner.Covers o size) (stop : Terminal)
    (hstop : stop ∉ .newline :: exprStarts) (hnext : (Lookahead.of rest).next = stop)
    (d : Derivation .items) (hlen : d.tokens.length < size) (hg : d.Greedy (.of rest))
    (hl : d.Lawful scope) :
    (items inner scope stop).Takes o d.tokens rest (d.meaning o) (d.trail o) := by
  obtain ⟨lists, hlists, hvalue⟩ := takes_itemList hc stop hstop hnext inner.rounds d hlen
    (Nat.lt_trans hlen hc.rounds) hg hl
  have h := hlists.bind_pure (f := List.flatten)
  rw [hvalue] at h
  exact h

theorem takes_block (hc : inner.Covers o size) (b : Derivation .block)
    (hlen : b.tokens.length ≤ size) (hg : b.Greedy (.of rest)) (hl : b.Lawful scope) :
    (Grammar.block inner scope).Takes o b.tokens rest (b.meaning o) (b.trail o) := by
  cases b with
  | block indent list outdent =>
    simp only [Derivation.tokens, List.length_cons, List.length_append] at hlen
    have hlist : list.Greedy (.of (⟨.outdent, outdent⟩ :: rest)) ∧ list.Lawful scope := ⟨hg, hl⟩
    have h : (items inner scope .outdent).Takes o list.tokens (⟨.outdent, outdent⟩ :: rest)
        (list.meaning o) (list.trail o) :=
      takes_items hc .outdent (by decide) rfl list (by omega) hlist.1 hlist.2
    exact .expect_bind (by rfl) (.locate_bind (.bind_silent h (.skip_bind .pure)))

end Takes

section Ensures

variable {inner : Inner} {scope : Scope} {ts us mid rest : List Token} {pos : Position}

theorem ensures_block? (hs : inner.Sound) :
    (inner.block? scope).Ensures ts fun _ rest => Derives .nested scope ts rest := by
  refine .lookingAt_bind ?_
  split
  · refine (hs.block scope ts).bind fun b rest h => .pure ?_
    rcases h with ⟨d, hts, hg, hl⟩
    exact ⟨.someBlock d, hts, hg, hl⟩
  · rename_i h
    have hnext : (Lookahead.of ts).next ≠ .indent := by simpa using h
    exact .pure ⟨.noBlock, rfl, hnext, trivial⟩

theorem ensures_blockAt (hs : inner.Sound) (loc : Location) :
    (inner.blockAt scope loc).Ensures ts fun _ rest => Derives .nested scope ts rest :=
  (ensures_block? hs).bind fun _ _ h => .pure h

theorem derives_endHtml (hnext : (Lookahead.of ts).next ∉ [.textHtml, .newline, .indent]) :
    Derives .html scope ts ts := ⟨.endHtml, rfl, hnext, trivial⟩

theorem derives_htmlBlock (hb : Derives .block scope ts mid) (hd : Derives .html scope mid rest) :
    Derives .html scope ts rest := by
  rcases hb with ⟨b, rfl, hg, hl⟩
  rcases hd with ⟨d, rfl, hg', hl'⟩
  refine ⟨.htmlBlock b d, (List.append_assoc _ _ _).symm, ⟨?_, hg'⟩, hl, hl'⟩
  rw [← Lookahead.of_append]
  exact hg

theorem ensures_htmlItem (hs : inner.Sound) :
    (htmlItem inner scope).Ensures ts (Round (Derives .html scope) ts) := by
  refine .peek_bind (fun hts pos => ?_) fun l pos us hts => ?_
  · subst hts
    exact .pure (derives_endHtml (by decide))
  · subst hts
    cases l with
    | textHtml value =>
      refine .skip_bind (.locate_bind fun loc => .pure fun rest h => ?_)
      rcases h with ⟨d, rfl, hg, hl⟩
      exact ⟨.htmlLine value pos d, rfl, hg, hl⟩
    | newline =>
      refine .skip_bind (.pure fun rest h => ?_)
      rcases h with ⟨d, rfl, hg, hl⟩
      exact ⟨.htmlNewline pos d, rfl, hg, hl⟩
    | indent =>
      exact (hs.block scope _).bind fun b mid hb => .pure fun rest h => derives_htmlBlock hb h
    | _ =>
      refine .pure (derives_endHtml ?_)
      simp [Lookahead.of, Token.terminal, Lexeme.terminal]

/-- A sequence that begins with a line of HTML is a production. -/
theorem derives_html {value : String}
    (h : Derives .html scope (⟨.textHtml value, pos⟩ :: us) rest) :
    Derives .expr scope (⟨.textHtml value, pos⟩ :: us) rest := by
  rcases h with ⟨d, hts, hg, hl⟩
  cases d with
  | endHtml =>
    obtain rfl : ⟨.textHtml value, pos⟩ :: us = rest := hts
    exact absurd (List.mem_cons_self) hg
  | htmlNewline place more => simp [Derivation.tokens] at hts
  | htmlLine value' place more =>
    obtain ⟨⟨rfl, rfl⟩, rfl⟩ : (value = value' ∧ pos = place) ∧ us = more.tokens ++ rest := by
      simpa [Derivation.tokens] using hts
    exact ⟨.html value pos more, rfl, hg, hl⟩
  | htmlBlock b more =>
    cases b
    simp [Derivation.tokens] at hts

/-- **What a sequence of HTML lines takes** is a production, if it begins with a line. -/
theorem ensures_html (hs : inner.Sound) {value : String} :
    (html inner scope).Ensures (⟨.textHtml value, pos⟩ :: us) fun _ rest =>
      Derives .expr scope (⟨.textHtml value, pos⟩ :: us) rest := by
  rw [html_eq]
  exact (Ensures.many (fun _ => ensures_htmlItem hs) _ _).bind fun _ _ h => .pure (derives_html h)

theorem derives_item (he : Derives .expr scope ts mid) (hd : Derives .items scope mid rest) :
    Derives .items scope ts rest := by
  rcases he with ⟨e, rfl, hg, hl⟩
  rcases hd with ⟨d, rfl, hg', hl'⟩
  refine ⟨.item e d, (List.append_assoc _ _ _).symm, ⟨?_, hg'⟩, hl, hl'⟩
  rw [← Lookahead.of_append]
  exact hg

/-- The tokens `ts` are those of items and then `rest`, which begins with `stop`. -/
def DerivesUntil (stop : Terminal) (scope : Scope) (ts rest : List Token) : Prop :=
  Derives .items scope ts rest ∧ (Lookahead.of rest).next = stop

theorem ensures_item (hs : inner.Sound) {stop : Terminal}
    (hstop : stop ∉ .newline :: exprStarts) :
    (item inner scope stop).Ensures ts (Round (DerivesUntil stop scope) ts) := by
  have hend : (Lookahead.of ts).next = stop → DerivesUntil stop scope ts ts := by
    intro h
    have hnext : (Lookahead.of ts).next ∉ .newline :: exprStarts := h ▸ hstop
    exact ⟨⟨.nil, rfl, hnext, trivial⟩, h⟩
  have hexpr : ∀ mid, Derives .expr scope ts mid →
      ∀ rest, DerivesUntil stop scope mid rest → DerivesUntil stop scope ts rest :=
    fun mid he rest h => ⟨derives_item he h.1, h.2⟩
  refine .peek_bind (fun hts pos => ?_) fun l pos us hts => ?_
  · subst hts
    split
    · rename_i h
      exact .pure (hend h)
    · exact (hs.expr scope []).bind fun node mid he => .pure (hexpr mid he)
  · subst hts
    split
    · rename_i h
      exact .pure (hend h)
    · cases l with
      | newline =>
        refine .skip_bind (.pure fun rest h => ?_)
        rcases h with ⟨⟨d, rfl, hg, hl⟩, hnext⟩
        exact ⟨⟨.newline pos d, rfl, hg, hl⟩, hnext⟩
      | textHtml value =>
        exact (ensures_html hs).bind fun nodes mid he => .pure (hexpr mid he)
      | _ => exact (hs.expr scope _).bind fun node mid he => .pure (hexpr mid he)

/-- **What a list of productions takes is a list of items,** and the terminal that ends
it comes next. -/
theorem ensures_items (hs : inner.Sound) {stop : Terminal}
    (hstop : stop ∉ .newline :: exprStarts) :
    (items inner scope stop).Ensures ts fun _ rest => DerivesUntil stop scope ts rest :=
  (Ensures.many (fun _ => ensures_item hs hstop) _ _).bind fun _ _ h => .pure h

theorem ensures_block (hs : inner.Sound) :
    (Grammar.block inner scope).Ensures ts fun _ rest => Derives .block scope ts rest := by
  refine .expect_bind (by decide) fun t us hts ht => .locate_bind fun loc => ?_
  rcases t with ⟨l, pos⟩
  obtain rfl : l = .indent := Lexeme.eq_of_terminal ht rfl
  refine (ensures_items hs (by decide)).bind fun nodes mid h => ?_
  rcases h with ⟨⟨d, rfl, hg, hl⟩, hnext⟩
  obtain ⟨stop, rest, rfl⟩ := Lookahead.exists_cons_of_next hnext rfl (by decide)
  refine .skip_bind (.pure ⟨.block pos d stop, ?_, hg, hl⟩)
  simp only [hts, Derivation.tokens, List.cons_append, List.append_assoc, List.nil_append]

end Ensures

end Grammar
end Pug
