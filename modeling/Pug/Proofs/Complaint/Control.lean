/-
# What is wrong with lists of productions and with control structures

A list of productions goes on until the terminal that ends it, and where none of its items
can begin there is a complaint. A list that lacks tokens is completed by what completes its
last production and by the end of the list, in front of which no production goes on. The
same holds of the branches of a case.
-/

import Pug.Proofs.Complaint.Element
import Pug.Proofs.Reading.Control

namespace Pug

open Reader

namespace Grammar

variable {o : Options} {finish : Position} {inner : Inner} {scope : Scope}
  {ts us mid rest : List Token} {pos : Position}

theorem settles_htmlItem (hi : inner.Settles o finish) :
    Settles o finish (htmlItem inner scope) ts
      (fun x mid => x.isSome → Completes (Derives .html scope · []) mid →
        Completes (Derives .html scope · []) ts) (Completes (Derives .html scope · []) ts) := by
  refine .peek_bind (fun _ => .pure_none) fun l pos us hts => ?_
  subst hts
  cases l with
  | textHtml value =>
    refine .skip_bind (by simp) (.locate_bind (.pure fun _ hc => hc.cons ?_))
    rintro vs ⟨d, rfl, hg, hl⟩
    exact ⟨.htmlLine value pos d, rfl, hg, hl⟩
  | newline =>
    refine .skip_bind (by simp) (.pure fun _ hc => hc.cons ?_)
    rintro vs ⟨d, rfl, hg, hl⟩
    exact ⟨.htmlNewline pos d, rfl, hg, hl⟩
  | indent =>
    exact .bind ((hi.block scope _).imp fun hc => .of_token (by decide)
      (hc.mono fun _ h => derives_htmlBlock h (derives_endHtml (by decide))))
      fun b mid hb => .pure fun _ hc => hb.completes hc fun _ _ => derives_htmlBlock
  | _ => exact .pure_none

theorem settles_html (hi : inner.Settles o finish) {value : String} :
    Settles o finish (html inner scope) (⟨.textHtml value, pos⟩ :: us)
      (fun _ rest => Derives .expr scope (⟨.textHtml value, pos⟩ :: us) rest)
      (Completable (Derives .expr scope · []) (⟨.textHtml value, pos⟩ :: us)) := by
  have hsound : (html inner scope).Ensures (⟨.textHtml value, pos⟩ :: us) fun _ rest =>
      Derives .expr scope (⟨.textHtml value, pos⟩ :: us) rest :=
    ensures_html hi.sound
  rw [html_eq] at hsound ⊢
  refine .ensuring (.bind ((Settles.many (G := Completes (Derives .html scope · []))
    (fun _ => settles_htmlItem hi) _ _).imp fun hc => ?_) fun _ _ _ => .pure trivial) hsound
  exact hc.completable.mono fun _ => derives_html

section Items

/-! A list is read up to `tail`, which begins with the terminal that ends the list. -/

variable {stop : Terminal} {tail : List Token}

theorem derives_nil (hstop : stop ∉ .newline :: exprStarts)
    (htail : (Lookahead.of tail).next = stop) : Derives .items scope tail tail := by
  have hnext : (Lookahead.of tail).next ∉ .newline :: exprStarts := htail ▸ hstop
  exact ⟨.nil, rfl, hnext, trivial⟩

theorem derives_newline (h : Derives .items scope us rest) :
    Derives .items scope (⟨.newline, pos⟩ :: us) rest := by
  rcases h with ⟨d, rfl, hg, hl⟩
  exact ⟨.newline pos d, rfl, hg, hl⟩

theorem settles_item (hi : inner.Settles o finish) (hstop : stop ∉ .newline :: exprStarts)
    (htail : (Lookahead.of tail).next = stop)
    (hcloses : Lookahead.Prolongs closers .finish (.of tail)) :
    Settles o finish (item inner scope stop) ts
      (fun x mid => x.isSome → Completes (Derives .items scope · tail) mid →
        Completes (Derives .items scope · tail) ts)
      (Completes (Derives .items scope · tail) ts) := by
  have hnil : Derives .items scope tail tail := derives_nil hstop htail
  have hexpr : ∀ {l pos us}, l.terminal ≠ .newline →
      Completable (Derives .expr scope · []) (⟨l, pos⟩ :: us) →
      Completes (Derives .items scope · tail) (⟨l, pos⟩ :: us) := by
    rintro l pos us hl ⟨more, h⟩
    refine .of_token hl ⟨more ++ tail, ?_⟩
    have hmore := derives_item (h.prolong hcloses) hnil
    rwa [List.append_assoc] at hmore
  have hitem : ∀ {ts mid}, Derives .expr scope ts mid →
      Completes (Derives .items scope · tail) mid → Completes (Derives .items scope · tail) ts :=
    fun he hc => he.completes hc fun _ _ => derives_item
  refine .peek_bind (fun hts => ?_) fun l pos us hts => ?_
  · -- Where the input ends no production is wanted, but the end of the list.
    have hend : Completes (Derives .items scope · tail) ts := hts ▸ ⟨tail, hcloses, hnil⟩
    split
    · exact .pure_none
    · exact .bind ((hi.expr scope []).imp fun _ => hend) fun _ _ _ => .pure fun _ _ => hend
  · subst hts
    split
    · exact .pure_none
    · cases l with
      | newline => exact .skip_bind (by simp) (.pure fun _ hc => hc.cons fun _ => derives_newline)
      | textHtml value =>
        exact .bind ((settles_html hi).imp (hexpr (by simp [Lexeme.terminal])))
          fun _ mid he => .pure fun _ => hitem he
      | _ =>
        exact .bind ((hi.expr scope _).imp (hexpr (by simp [Lexeme.terminal])))
          fun _ mid he => .pure fun _ => hitem he

/-- **A list of productions that lacks tokens can be completed.** -/
theorem settles_items (hi : inner.Settles o finish) (hstop : stop ∉ .newline :: exprStarts)
    (htail : (Lookahead.of tail).next = stop)
    (hcloses : Lookahead.Prolongs closers .finish (.of tail)) :
    Settles o finish (items inner scope stop) ts (fun _ rest => DerivesUntil stop scope ts rest)
      (Completes (Derives .items scope · tail) ts) :=
  .ensuring (.bind (.many (G := Completes (Derives .items scope · tail))
    (fun _ => settles_item hi hstop htail hcloses) _ _) fun _ _ _ => .pure trivial)
    (ensures_items hi.sound hstop)

end Items

theorem derives_block {stop : Position} (h : Derives .items scope us (⟨.outdent, stop⟩ :: rest)) :
    Derives .block scope (⟨.indent, pos⟩ :: us) rest := by
  rcases h with ⟨d, rfl, hg, hl⟩
  refine ⟨.block pos d stop, ?_, hg, hl⟩
  simp only [Derivation.tokens, List.cons_append, List.append_assoc, List.nil_append]

/-- An outdent closes whatever is open. -/
theorem prolongs_outdent (pos : Position) :
    Lookahead.Prolongs closers .finish (.of [⟨.outdent, pos⟩]) := by
  have houtdent : Terminal.outdent ∈ closers := by decide
  exact .of_closer houtdent

/-- The terminal that ends a list is gone past. -/
theorem settles_skip_end {α : Type} {C : Prop} {terminal : Terminal} (hne : terminal ≠ .eos)
    (hnext : (Lookahead.of mid).next = terminal) (a : α) :
    Settles o finish (skip >>= fun _ => pure a) mid (fun _ _ => True) C := by
  cases mid with
  | nil => exact absurd hnext.symm hne
  | cons t us => exact .skip_bind (lexeme_ne_eos hnext hne) (.pure trivial)

/-- **A block that lacks tokens can be completed.** -/
theorem settles_block (hi : inner.Settles o finish) :
    Settles o finish (Grammar.block inner scope) ts (fun _ rest => Derives .block scope ts rest)
      (Completable (Derives .block scope · []) ts) := by
  have hitems : ∀ us, Settles o finish (items inner scope .outdent) us
      (fun _ rest => DerivesUntil .outdent scope us rest)
      (Completes (Derives .items scope · [⟨.outdent, finish⟩]) us) :=
    fun us => settles_items hi (by decide) rfl (prolongs_outdent finish)
  refine .ensuring (.expect_bind (by decide) (by decide) ?_ fun t us hts ht => .locate_bind ?_)
    (ensures_block hi.sound)
  · rintro rfl
    have hstop : Terminal.outdent ∉ .newline :: exprStarts := by decide
    exact ⟨[⟨.indent, finish⟩, ⟨.outdent, finish⟩], derives_block (derives_nil hstop rfl)⟩
  · rcases t with ⟨l, pos⟩
    obtain rfl : l = .indent := Lexeme.eq_of_terminal ht rfl
    subst hts
    refine .bind ((hitems us).imp fun hc => ?_) fun nodes mid h =>
      settles_skip_end (by decide) h.2 _
    exact hc.completable.cons fun _ => derives_block

theorem derives_expandColon (h : Derives .expr scope us rest) :
    Derives .expansion scope (⟨.colon, pos⟩ :: us) rest := by
  rcases h with ⟨e, rfl, hg, hl⟩
  exact ⟨.expandColon pos e, rfl, hg, hl⟩

theorem derives_expandBlock (h : Derives .block scope ts rest) :
    Derives .expansion scope ts rest := by
  rcases h with ⟨d, hts, hg, hl⟩
  exact ⟨.expandBlock d, hts, hg, hl⟩

theorem settles_expansion (hi : inner.Settles o finish) :
    Settles o finish (expansion inner scope) ts (fun _ rest => Derives .expansion scope ts rest)
      (Completable (Derives .expansion scope · []) ts) := by
  have hcompletable : Completable (Derives .block scope · []) ts →
      Completable (Derives .expansion scope · []) ts :=
    fun hc => hc.mono fun _ => derives_expandBlock
  have hblock : Settles o finish (inner.block scope) ts (fun _ _ => True)
      (Completable (Derives .expansion scope · []) ts) :=
    ((hi.block scope ts).imp hcompletable).mono fun _ _ _ => trivial
  refine .ensuring (.peek_bind (fun hts => ?_) fun l pos us hts => ?_)
    (ensures_expansion hi.sound)
  · exact hts ▸ hblock
  · subst hts
    split
    · rename_i h
      obtain rfl : l = .colon := Lexeme.eq_of_terminal h rfl
      exact .skip_bind (by simp) (.locate_bind (.bind ((hi.expr scope us).imp fun hc =>
        hc.cons fun _ => derives_expandColon) fun _ _ _ => .pure trivial))
    · exact hblock

/-- A `when` has a body, or it has none where none can come. -/
theorem settles_whenBody (hi : inner.Settles o finish) :
    Settles o finish (whenBody inner scope) us
      (fun _ mid => Derives .expansion scope us mid ∨
        mid = us ∧ (Lookahead.of us).next ∈ [.newline, .outdent])
      (Completable (Derives .expansion scope · []) us) := by
  refine .any_bind fun t ht => ?_
  split
  · rename_i h
    refine .pure (.inr ⟨rfl, ?_⟩)
    rw [ht, Cursor.terminal_peek_before] at h
    simpa using h
  · exact .bind (settles_expansion hi) fun _ _ h => .pure (.inl h)

section Branches

variable {stop : Position}

theorem derives_endBranches : DerivesBranches scope [⟨.outdent, stop⟩] [⟨.outdent, stop⟩] := by
  refine ⟨⟨.endBranches, rfl, ?_, trivial⟩, rfl⟩
  exact (by decide : Terminal.outdent ∉ [.newline, .comment, .when, .default])

theorem settles_caseItem (hi : inner.Settles o finish) :
    Settles o finish (caseItem inner scope) ts
      (fun x mid => x.isSome → Completes (DerivesBranches scope · [⟨.outdent, stop⟩]) mid →
        Completes (DerivesBranches scope · [⟨.outdent, stop⟩]) ts)
      (Completes (DerivesBranches scope · [⟨.outdent, stop⟩]) ts) := by
  have hbody : ∀ {us}, Completable (Derives .expansion scope · []) us →
      Completable (fun vs => ∃ mid, Derives .expansion scope vs mid ∧
        DerivesBranches scope mid [⟨.outdent, stop⟩]) us := by
    rintro us ⟨more, h⟩
    refine ⟨more ++ [⟨.outdent, stop⟩], [⟨.outdent, stop⟩], ?_, derives_endBranches⟩
    have hmore := h.prolong (prolongs_outdent stop)
    rwa [List.append_assoc] at hmore
  refine .peek_bind (fun hts => .locate_bind (.unexpected rfl (by decide) ?_ fun _ => ?_))
    fun l pos us hts => .locate_bind ?_
  · simp [Token.terminal, Lexeme.terminal]
  · subst hts
    exact ⟨[⟨.outdent, stop⟩], prolongs_outdent stop, derives_endBranches⟩
  subst hts
  cases l with
  | outdent => exact .pure_none
  | comment value buffered =>
    refine .skip_bind (by simp) (.pure fun _ hc => hc.cons ?_)
    rintro vs ⟨⟨d, rfl, hg, hl⟩, hnext⟩
    exact ⟨⟨.branchComment value buffered pos d, rfl, hg, hl⟩, hnext⟩
  | newline =>
    refine .skip_bind (by simp) (.pure fun _ hc => hc.cons ?_)
    rintro vs ⟨⟨d, rfl, hg, hl⟩, hnext⟩
    exact ⟨⟨.branchNewline pos d, rfl, hg, hl⟩, hnext⟩
  | when expr =>
    refine .skip_bind (by simp) (.bind ((settles_whenBody hi).imp fun hc => ?_)
      fun body mid h => .pure fun _ hc => ?_)
    · refine .of_token (by simp [Lexeme.terminal]) ((hbody hc).cons ?_)
      rintro vs ⟨mid, h, hrest⟩
      exact derives_when h hrest
    · rcases h with h | ⟨rfl, hnext⟩
      · have hwhen : Completes (fun vs => DerivesBranches scope (⟨.when expr, pos⟩ :: vs)
            [⟨.outdent, stop⟩]) us := h.completes hc fun _ _ => derives_when
        exact hwhen.cons fun _ h => h
      · obtain ⟨more, hp, h⟩ := hc
        exact .of_token (by simp [Lexeme.terminal])
          ⟨more, derives_fallthrough (hp.mem (by decide) hnext) h⟩
  | default =>
    refine .skip_bind (by simp) (.bind ((settles_expansion hi).imp fun hc => ?_)
      fun body mid h => .pure fun _ hc => ?_)
    · refine .of_token (by decide) ((hbody hc).cons ?_)
      rintro vs ⟨mid, h, hrest⟩
      exact derives_default h hrest
    · have hdefault : Completes (fun vs => DerivesBranches scope (⟨.default, pos⟩ :: vs)
          [⟨.outdent, stop⟩]) us := h.completes hc fun _ _ => derives_default
      exact hdefault.cons fun _ h => h
  | _ =>
    exact .unexpected_cons (by decide) (by simp [Token.terminal, Lexeme.terminal])

theorem derives_caseOf {e : String} {indent : Position}
    (h : DerivesBranches scope us (⟨.outdent, stop⟩ :: rest)) :
    Derives .expr scope (⟨.case e, pos⟩ :: ⟨.indent, indent⟩ :: us) rest := by
  rcases h with ⟨⟨d, rfl, hg, hl⟩, -⟩
  refine ⟨.caseOf e pos indent d stop, ?_, hg, hl⟩
  simp only [Derivation.tokens, List.cons_append, List.append_assoc, List.nil_append]

theorem ensures_branches (hs : inner.Sound) (rounds : Nat) :
    (many (caseItem inner scope) rounds).Ensures ts fun _ rest => DerivesBranches scope ts rest :=
  .many (fun _ => ensures_caseItem hs) rounds ts

/-- **A case that lacks tokens can be completed.** -/
theorem settles_caseOf (hi : inner.Settles o finish) (e : String) (loc : Location) :
    Settles o finish (caseOf inner scope e loc) us (fun _ _ => True)
      (Completable (Derives .expr scope · []) (⟨.case e, pos⟩ :: us)) := by
  refine .expect_bind (by decide) (by decide) ?_ fun t vs hus ht => .locate_bind ?_
  · rintro rfl
    exact ⟨[⟨.indent, finish⟩, ⟨.outdent, finish⟩], derives_caseOf derives_endBranches⟩
  · rcases t with ⟨l, indent⟩
    obtain rfl : l = .indent := Lexeme.eq_of_terminal ht rfl
    subst hus
    refine .bind (.ensuring ((Settles.many
      (G := Completes (DerivesBranches scope · [⟨.outdent, finish⟩]))
      (fun _ => settles_caseItem hi) _ _).imp fun hc => ?_) (ensures_branches hi.sound _))
      fun lists mid h => settles_skip_end (by decide) h.2 _
    exact (hc.completable.cons fun _ => derives_caseOf).cons fun _ h => h

end Branches

end Grammar
end Pug
