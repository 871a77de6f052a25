/-
# What text takes

A run takes the parts of its layout, and so does a verbatim region up to its
delimiter. Whether a line break in a run is kept is decided by the token behind it,
which is the first one of the parts that follow or, if none does, a token that is
neither text nor code.
-/

import Pug.Grammar.Text
import Pug.Proofs.Reading.Basic

namespace Pug
namespace Grammar

open Reader

section Takes

variable {o : Options} {inner : Inner} {size : Nat} {scope : Scope} {rest : List Token}

theorem takes_interpolation (hc : inner.Covers o size) (start stop : Position)
    (e : Derivation .expr) (hlen : e.tokens.length < size)
    (hg : (Derivation.interpolated start e stop).Greedy (.of rest)) (hl : e.Lawful scope) :
    (interpolation inner scope).Takes o (Derivation.interpolated start e stop).tokens rest
      (e.meaning o) (e.trail o) := by
  have he := hc.expr e scope (⟨.endInterpolation, stop⟩ :: rest) hlen hg hl
  exact .skip_bind (.bind_silent he (.expect_bind (by rfl) .pure))

theorem takes_runItem_fragment (hc : inner.Covers o size) (multiline : Bool)
    (f : Derivation .fragment) (hlen : f.tokens.length ≤ size) (hg : f.Greedy (.of rest))
    (hl : f.Lawful scope) :
    (runItem inner scope multiline).Takes o f.tokens rest (some [f.meaning o]) (f.trail o) := by
  cases f with
  | plain p =>
    cases p with
    | text value pos => exact .peek_bind (.locate_bind (.skip_bind .pure))
    | code c pos => exact .peek_bind (.locate_bind (.skip_bind .pure))
  | interpolated start e stop =>
    have hlen' : e.tokens.length < size := by
      simp only [Derivation.tokens, List.length_cons, List.length_append] at hlen
      omega
    exact .peek_bind (.locate_bind (takes_interpolation hc start stop e hlen' hg hl).bind_pure)

theorem takes_runItem_none {layout : Layout} (hlayout : layout ≠ .region)
    (hnext : (Lookahead.of rest).next ∉ layout.starts) :
    (runItem inner scope (layout = .lines)).Takes o [] rest none [] := by
  refine .next_bind fun t ht => .locate_bind ?_
  have hstart := Lookahead.terminal_ne ht hnext
  split
  · rename_i h
    exact absurd (congrArg Lexeme.terminal h) (hstart .text (by cases layout <;> decide))
  · rename_i h
    have hcode : Terminal.interpolatedCode ∈ layout.starts := by cases layout <;> decide
    exact absurd (congrArg Lexeme.terminal h) (hstart .interpolatedCode hcode)
  · rename_i h
    exact absurd (congrArg Lexeme.terminal h)
      (hstart .startInterpolation (by cases layout <;> decide))
  · rename_i h
    cases layout with
    | line => exact .pure
    | lines => exact absurd (congrArg Lexeme.terminal h) (hstart .newline (by decide))
    | region => exact absurd rfl hlayout
  · exact .pure

/-- The token behind a line break of a run decides whether it is kept. -/
theorem keepsBreak_next {d : Derivation (.parts .lines)} (hg : d.Greedy (.of rest)) {t : Token}
    (ht : t.terminal = (Lookahead.of (d.tokens ++ rest)).next) :
    keepsBreak t = Layout.lines.keeps d.tokens := by
  have hkeeps : Layout.lines.keeps d.tokens = d.tokens.head?.any keepsBreak := rfl
  rw [hkeeps]
  cases h : d.tokens with
  | cons u us =>
    rw [h] at ht
    simp [keepsBreak, show t.terminal = u.terminal from ht]
  | nil =>
    cases d with
    | endParts =>
      have hstart := Lookahead.terminal_ne ht hg
      simp [keepsBreak, hstart .text (by decide), hstart .interpolatedCode (by decide)]
    | lineBreak spread pos more => simp [Derivation.tokens] at h
    | part f more => cases f <;> simp [Derivation.tokens] at h

theorem takes_runParts (hc : inner.Covers o size) {layout : Layout} (hlayout : layout ≠ .region)
    (rounds : Nat) (d : Derivation (.parts layout)) (hlen : d.tokens.length ≤ size)
    (hr : d.tokens.length < rounds) (hg : d.Greedy (.of rest)) (hl : d.Lawful scope) :
    ∃ parts, (many (runItem inner scope (layout = .lines)) rounds).Takes o d.tokens rest parts
      (d.trail o) ∧ parts.flatten = d.meaning o := by
  match d with
  | .endParts =>
    exact ⟨[], .many_none (by omega) (takes_runItem_none hlayout hg), rfl⟩
  | .lineBreak spread pos more =>
    obtain rfl : layout = .lines := by
      cases layout with
      | line => exact absurd rfl spread
      | lines => rfl
      | region => exact absurd rfl hlayout
    simp only [Derivation.tokens, List.length_cons] at hlen hr
    obtain ⟨parts, hparts, hvalue⟩ :=
      takes_runParts hc hlayout (rounds - 1) more (by omega) (by omega) hg hl
    have hitem : (runItem inner scope true).Takes o [⟨.newline, pos⟩] (more.tokens ++ rest)
        (some (if Layout.lines.keeps more.tokens then [.text "\n" false (o.place pos)] else []))
        [] := by
      refine .peek_bind (.locate_bind (.skip_bind (.next_bind fun t ht => ?_)))
      rw [keepsBreak_next (d := more) hg ht]
      exact .pure
    refine ⟨_ :: parts, .many_some (by omega) hitem hparts, ?_⟩
    rw [List.flatten_cons, hvalue]
    rfl
  | .part f more =>
    have hpos := f.length_fragment_pos
    simp only [Derivation.tokens, List.length_append] at hlen hr
    obtain ⟨hf, hmore⟩ : f.Greedy (.of (more.tokens ++ rest)) ∧ more.Greedy (.of rest) := by
      rw [Lookahead.of_append]
      exact hg
    obtain ⟨parts, hparts, hvalue⟩ :=
      takes_runParts hc hlayout (rounds - 1) more (by omega) (by omega) hmore hl.2
    have hitem := takes_runItem_fragment hc (layout = .lines) f (by omega) hf hl.1
    refine ⟨[f.meaning o] :: parts, .many_some (by omega) hitem hparts, ?_⟩
    rw [List.flatten_cons, hvalue]
    rfl

theorem takes_textRun (hc : inner.Covers o size) {layout : Layout} (hlayout : layout ≠ .region)
    (f : Derivation .fragment) (d : Derivation (.parts layout))
    (hlen : (f.tokens ++ d.tokens).length ≤ size)
    (hg : f.Greedy (.of (d.tokens ++ rest)) ∧ d.Greedy (.of rest))
    (hl : f.Lawful scope ∧ d.Lawful scope) :
    (textRun inner scope (layout = .lines)).Takes o (f.tokens ++ d.tokens) rest
      (gather (o.place f.fragmentStart) (f.meaning o :: d.meaning o))
      (f.trail o ++ d.trail o) := by
  have hg' : (Derivation.part f d).Greedy (.of rest) := by
    rw [Lookahead.of_append] at hg
    exact hg
  obtain ⟨parts, hparts, hvalue⟩ := takes_runParts hc hlayout inner.rounds (.part f d)
    hlen (Nat.lt_of_le_of_lt hlen hc.rounds) hg' hl
  have h := hparts.bind_pure (f := fun parts => gather (o.place f.fragmentStart) parts.flatten)
  rw [hvalue] at h
  cases f with
  | plain p => exact .peek_bind (.locate_bind h)
  | interpolated start e stop => exact .peek_bind (.locate_bind h)

theorem takes_verbatimItem_fragment (hc : inner.Covers o size) (f : Derivation .fragment)
    (hlen : f.tokens.length ≤ size) (hg : f.Greedy (.of rest)) (hl : f.Lawful scope) :
    (verbatimItem inner scope).Takes o f.tokens rest (some (f.meaning o)) (f.trail o) := by
  cases f with
  | plain p =>
    cases p with
    | text value pos => exact .peek_bind (.locate_bind (.skip_bind .pure))
    | code c pos => exact .peek_bind (.locate_bind (.skip_bind .pure))
  | interpolated start e stop =>
    have hlen' : e.tokens.length < size := by
      simp only [Derivation.tokens, List.length_cons, List.length_append] at hlen
      omega
    exact .peek_bind (.locate_bind (takes_interpolation hc start stop e hlen' hg hl).bind_pure)

/-- A verbatim region behind the delimiter that begins it. -/
theorem takes_verbatimItems (hc : inner.Covers o size) (rounds : Nat) (stop : Position)
    (d : Derivation (.parts .region)) (hlen : d.tokens.length ≤ size)
    (hr : d.tokens.length < rounds) (hg : d.Greedy (.of (⟨.endPipelessText, stop⟩ :: rest)))
    (hl : d.Lawful scope) :
    (many (verbatimItem inner scope) rounds).Takes o
      (d.tokens ++ [⟨.endPipelessText, stop⟩]) rest (d.meaning o) (d.trail o) := by
  match d with
  | .endParts =>
    exact .many_none (by omega) (.peek_bind (.locate_bind (.skip_bind .pure)))
  | .lineBreak spread pos more =>
    simp only [Derivation.tokens, List.length_cons] at hlen hr
    have hmore := takes_verbatimItems hc (rounds - 1) stop more (by omega) (by omega)
      hg hl
    have hitem : (verbatimItem inner scope).Takes o [⟨.newline, pos⟩]
        ((more.tokens ++ [⟨.endPipelessText, stop⟩]) ++ rest)
        (some (.text "\n" false (o.place pos))) [] :=
      .peek_bind (.locate_bind (.skip_bind .pure))
    exact .many_some (by omega) hitem hmore
  | .part f more =>
    have hpos := f.length_fragment_pos
    simp only [Derivation.tokens, List.length_append] at hlen hr
    obtain ⟨hf, hg'⟩ : f.Greedy (.of (more.tokens ++ ⟨.endPipelessText, stop⟩ :: rest)) ∧
        more.Greedy (.of (⟨.endPipelessText, stop⟩ :: rest)) := by
      rw [Lookahead.of_append]
      exact hg
    have hmore := takes_verbatimItems hc (rounds - 1) stop more (by omega) (by omega)
      hg' hl.2
    rw [← List.singleton_append, ← List.append_assoc] at hf
    have h := Takes.many_some (by omega) (takes_verbatimItem_fragment hc f (by omega) hf hl.1) hmore
    rw [← List.append_assoc] at h
    exact h

theorem takes_verbatim? (hc : inner.Covers o size) (d : Derivation .region)
    (hlen : d.tokens.length ≤ size) (hg : d.Greedy (.of rest)) (hl : d.Lawful scope) :
    (verbatim? inner scope).Takes o d.tokens rest (d.meaning o) (d.trail o) := by
  cases d with
  | noRegion =>
    refine .next_bind fun t ht => ?_
    rw [if_neg (ht ▸ hg)]
    exact .pure
  | someRegion start parts stop =>
    simp only [Derivation.tokens, List.length_cons, List.length_append] at hlen
    have hr := hc.rounds
    have h := takes_verbatimItems hc inner.rounds stop parts (by omega) (by omega)
      hg hl
    exact .peek_bind (.skip_bind (.locate_bind h.bind_pure))

theorem takes_verbatimAt (hc : inner.Covers o size) (d : Derivation .region)
    (hlen : d.tokens.length ≤ size) (hg : d.Greedy (.of rest)) (hl : d.Lawful scope)
    (loc : Location) :
    (verbatimAt inner scope loc).Takes o d.tokens rest ((d.meaning o).getD (.empty loc))
      (d.trail o) :=
  (takes_verbatim? hc d hlen hg hl).bind_pure

end Takes

section Ensures

variable {inner : Inner} {scope : Scope} {ts us mid rest : List Token} {pos : Position}

theorem derives_part {layout : Layout} (hf : Derives .fragment scope ts mid)
    (hd : Derives (.parts layout) scope mid rest) : Derives (.parts layout) scope ts rest := by
  rcases hf with ⟨f, rfl, hg, hl⟩
  rcases hd with ⟨d, rfl, hg', hl'⟩
  refine ⟨.part f d, (List.append_assoc _ _ _).symm, ⟨?_, hg'⟩, hl, hl'⟩
  rw [← Lookahead.of_append]
  exact hg

theorem derives_lineBreak {layout : Layout} (spread : layout ≠ .line)
    (hd : Derives (.parts layout) scope us rest) :
    Derives (.parts layout) scope (⟨.newline, pos⟩ :: us) rest := by
  rcases hd with ⟨d, rfl, hg, hl⟩
  exact ⟨.lineBreak spread pos d, rfl, hg, hl⟩

theorem ensures_interpolation (hs : inner.Sound) :
    (interpolation inner scope).Ensures (⟨.startInterpolation, pos⟩ :: us)
      fun _ rest => Derives .fragment scope (⟨.startInterpolation, pos⟩ :: us) rest := by
  refine .skip_bind ((hs.expr scope us).bind fun node mid h => ?_)
  rcases h with ⟨e, rfl, hg, hl⟩
  refine .expect_bind (by decide) fun t rest hmid ht => .pure ?_
  rcases t with ⟨l, stop⟩
  obtain rfl : l = .endInterpolation := Lexeme.eq_of_terminal ht rfl
  subst hmid
  refine ⟨.interpolated pos e stop, ?_, hg, hl⟩
  simp only [Derivation.tokens, List.cons_append, List.append_assoc, List.nil_append]

/-- What is left when a run ends is none of its parts. -/
theorem derives_endParts {layout : Layout} (hnext : (Lookahead.of ts).next ∉ layout.starts) :
    Derives (.parts layout) scope ts ts := ⟨.endParts, rfl, hnext, trivial⟩

theorem ensures_runItem (hs : inner.Sound) {layout : Layout} (hlayout : layout ≠ .region) :
    (runItem inner scope (layout = .lines)).Ensures ts
      (Round (Derives (.parts layout) scope) ts) := by
  refine .peek_bind (fun hts pos => .locate_bind fun loc => ?_) fun l pos us hts =>
    .locate_bind fun loc => ?_
  · subst hts
    exact .pure (derives_endParts (by cases layout <;> decide))
  · subst hts
    cases l with
    | text value =>
      exact .skip_bind (.pure fun rest h =>
        derives_part ⟨.plain (.text value pos), rfl, trivial, trivial⟩ h)
    | interpolatedCode c =>
      exact .skip_bind (.pure fun rest h =>
        derives_part ⟨.plain (.code c pos), rfl, trivial, trivial⟩ h)
    | startInterpolation =>
      exact (ensures_interpolation hs).bind fun node mid hf =>
        .pure fun rest h => derives_part hf h
    | newline =>
      cases layout with
      | line =>
        refine .pure (derives_endParts ?_)
        simp [Lookahead.of, Layout.starts, Token.terminal, Lexeme.terminal]
      | lines =>
        refine .skip_bind (.peek_bind (fun hus pos => ?_) fun l pos vs hus => ?_)
        · subst hus
          exact .pure fun rest h => derives_lineBreak (by decide) h
        · subst hus
          exact .pure fun rest h => derives_lineBreak (by decide) h
      | region => exact absurd rfl hlayout
    | _ =>
      refine .pure (derives_endParts ?_)
      cases layout <;> simp [Lookahead.of, Layout.starts, Token.terminal, Lexeme.terminal]

theorem ensures_textRun (hs : inner.Sound) {layout : Layout} (hlayout : layout ≠ .region) :
    (textRun inner scope (layout = .lines)).Ensures ts fun _ rest =>
      Derives (.parts layout) scope ts rest := by
  have hloop : (many (runItem inner scope (layout = .lines)) inner.rounds).Ensures ts
      fun _ rest => Derives (.parts layout) scope ts rest :=
    .many (fun ts => ensures_runItem hs hlayout) _ _
  refine .peek_bind (fun hts pos => .locate_bind fun loc => ?_) fun l pos us hts =>
    .locate_bind fun loc => ?_
  · exact hts ▸ hloop.bind fun parts rest h => .pure h
  · exact hts ▸ hloop.bind fun parts rest h => .pure h

/-- A run over several lines that begins with no line break is a production. -/
theorem derives_run {l : Lexeme} (hl : l.terminal ∈ Layout.line.starts)
    (h : Derives (.parts .lines) scope (⟨l, pos⟩ :: us) rest) :
    Derives .expr scope (⟨l, pos⟩ :: us) rest := by
  rcases h with ⟨d, hts, hg, hlawful⟩
  cases d with
  | endParts =>
    obtain rfl : ⟨l, pos⟩ :: us = rest := hts
    refine absurd ?_ hg
    exact List.mem_append_left [Terminal.newline] hl
  | lineBreak spread place more =>
    obtain ⟨⟨rfl, rfl⟩, rfl⟩ : (l = .newline ∧ pos = place) ∧ us = more.tokens ++ rest := by
      simpa [Derivation.tokens] using hts
    exact absurd hl (by decide)
  | part f more => exact ⟨.run f more, hts, hg, hlawful⟩

/-- What stands behind the delimiter that begins a verbatim region, down to the one that
ends it. -/
def DerivesRegion (scope : Scope) (ts rest : List Token) : Prop :=
  ∃ stop, Derives (.parts .region) scope ts (⟨.endPipelessText, stop⟩ :: rest)

theorem ensures_verbatimItem (hs : inner.Sound) :
    (verbatimItem inner scope).Ensures ts (Round (DerivesRegion scope) ts) := by
  refine .peek_bind (fun hts pos => .locate_bind fun loc => .reject) fun l pos us hts =>
    .locate_bind fun loc => ?_
  subst hts
  cases l with
  | endPipelessText =>
    refine .skip_bind (.pure ⟨pos, derives_endParts ?_⟩)
    simp [Lookahead.of, Layout.starts, Token.terminal, Lexeme.terminal]
  | text value =>
    exact .skip_bind (.pure fun rest => Exists.imp fun stop =>
      derives_part ⟨.plain (.text value pos), rfl, trivial, trivial⟩)
  | newline =>
    exact .skip_bind (.pure fun rest => Exists.imp fun stop => derives_lineBreak (by decide))
  | interpolatedCode c =>
    exact .skip_bind (.pure fun rest => Exists.imp fun stop =>
      derives_part ⟨.plain (.code c pos), rfl, trivial, trivial⟩)
  | startInterpolation =>
    exact (ensures_interpolation hs).bind fun node mid hf =>
      .pure fun rest => Exists.imp fun stop => derives_part hf
  | _ => exact .reject

theorem ensures_verbatim? (hs : inner.Sound) :
    (verbatim? inner scope).Ensures ts fun _ rest => Derives .region scope ts rest := by
  refine .peek_bind (fun hts pos => ?_) fun l pos us hts => ?_
  · subst hts
    exact .pure ⟨.noRegion, rfl, fun h => (by cases h), trivial⟩
  · subst hts
    split
    · rename_i h
      obtain rfl : l = .startPipelessText := Lexeme.eq_of_terminal h rfl
      refine .skip_bind (.locate_bind fun loc => ?_)
      refine (Ensures.many (fun ts => ensures_verbatimItem hs) _ _).bind fun nodes rest h =>
        .pure ?_
      rcases h with ⟨stop, d, rfl, hg, hl⟩
      refine ⟨.someRegion pos d stop, ?_, hg, hl⟩
      simp only [Derivation.tokens, List.cons_append, List.append_assoc, List.nil_append]
    · rename_i h
      exact .pure ⟨.noRegion, rfl, h, trivial⟩

theorem ensures_verbatimAt (hs : inner.Sound) (loc : Location) :
    (verbatimAt inner scope loc).Ensures ts fun _ rest => Derives .region scope ts rest :=
  (ensures_verbatim? hs).bind fun _ _ h => .pure h

end Ensures

end Grammar
end Pug
