/-
# What is wrong with text

Text itself is never wrong: a run ends at the first token that is no part of it. Only an
interpolation can lack tokens, and a verbatim region can lack its delimiter or go on with a
token that does not occur in it.
-/

import Pug.Proofs.Complaint.Basic
import Pug.Proofs.Reading.Text

namespace Pug

open Reader

namespace Grammar

variable {o : Options} {finish : Position} {inner : Inner} {scope : Scope}
  {ts us mid rest : List Token} {pos : Position}

/-- A fragment ends with its last token, whatever comes behind it. -/
theorem derives_fragment_append (h : Derives .fragment scope ts mid) (more : List Token) :
    Derives .fragment scope (ts ++ more) (mid ++ more) := by
  rcases h with ⟨f, rfl, hg, hl⟩
  refine ⟨f, List.append_assoc _ _ _, ?_, hl⟩
  cases f with
  | plain p => trivial
  | interpolated start e stop => exact hg

theorem derives_interpolated {stop : Position}
    (h : Derives .expr scope us (⟨.endInterpolation, stop⟩ :: rest)) :
    Derives .fragment scope (⟨.startInterpolation, pos⟩ :: us) rest := by
  rcases h with ⟨e, rfl, hg, hl⟩
  refine ⟨.interpolated pos e stop, ?_, hg, hl⟩
  simp only [Derivation.tokens, List.cons_append, List.append_assoc, List.nil_append]

/-- A production between brackets that lacks the second bracket is completed by it. -/
theorem derives_interpolated_append (h : Derives .expr scope us []) (stop : Position) :
    Derives .fragment scope (⟨.startInterpolation, pos⟩ :: (us ++ [⟨.endInterpolation, stop⟩]))
      [] := by
  have hcloser : Terminal.endInterpolation ∈ closers := by decide
  have hprolongs : Lookahead.Prolongs closers .finish (.of [⟨.endInterpolation, stop⟩]) :=
    .of_closer hcloser
  exact derives_interpolated (h.prolong hprolongs)

theorem settles_interpolation (hi : inner.Settles o finish) :
    Settles o finish (interpolation inner scope) (⟨.startInterpolation, pos⟩ :: us)
      (fun _ rest => Derives .fragment scope (⟨.startInterpolation, pos⟩ :: us) rest)
      (Completable (Derives .fragment scope · []) (⟨.startInterpolation, pos⟩ :: us)) := by
  refine .ensuring (.skip_bind (by simp) (.bind ((hi.expr scope us).imp ?_) fun node mid h =>
    .expect_bind (by decide) (by decide) ?_ fun _ _ _ _ => .pure trivial))
    (ensures_interpolation hi.sound)
  · rintro ⟨more, h⟩
    refine ⟨more ++ [⟨.endInterpolation, finish⟩], ?_⟩
    have hmore : Derives .fragment scope (⟨.startInterpolation, pos⟩ :: (us ++ more ++
        [⟨.endInterpolation, finish⟩])) [] := derives_interpolated_append h finish
    rwa [List.append_assoc] at hmore
  · rintro rfl
    exact ⟨[⟨.endInterpolation, finish⟩], derives_interpolated_append h finish⟩

theorem settles_runItem (hi : inner.Settles o finish) {layout : Layout}
    (hlayout : layout ≠ .region) :
    Settles o finish (runItem inner scope (layout = .lines)) ts
      (fun x mid => x.isSome → Completes (Derives (.parts layout) scope · []) mid →
        Completes (Derives (.parts layout) scope · []) ts)
      (Completes (Derives (.parts layout) scope · []) ts) := by
  have hpart : ∀ {ts mid}, Derives .fragment scope ts mid →
      Completes (Derives (.parts layout) scope · []) mid →
      Completes (Derives (.parts layout) scope · []) ts :=
    fun hf hc => hf.completes hc fun _ _ => derives_part
  refine .peek_bind (fun _ => .locate_bind (.pure_none)) fun l pos us hts => .locate_bind ?_
  subst hts
  cases l with
  | text value =>
    exact .skip_bind (by simp) (.pure fun _ =>
      hpart ⟨.plain (.text value pos), rfl, trivial, trivial⟩)
  | interpolatedCode c =>
    exact .skip_bind (by simp) (.pure fun _ =>
      hpart ⟨.plain (.code c pos), rfl, trivial, trivial⟩)
  | startInterpolation =>
    have hend : (Lookahead.of []).next ∉ layout.starts := by cases layout <;> decide
    exact .bind ((settles_interpolation hi).imp fun hc => .of_token (by decide)
      (hc.mono fun _ h => derives_part h (derives_endParts hend)))
      fun node mid hf => .pure fun _ => hpart hf
  | newline =>
    cases layout with
    | line => exact .pure_none
    | lines =>
      refine .skip_bind (by simp) (.any_bind fun t _ => .pure fun _ hc => ?_)
      exact hc.cons fun _ => derives_lineBreak (by decide)
    | region => exact absurd rfl hlayout
  | _ => exact .pure_none

/-- **A run that lacks tokens can be completed.** -/
theorem settles_textRun (hi : inner.Settles o finish) {layout : Layout}
    (hlayout : layout ≠ .region) :
    Settles o finish (textRun inner scope (layout = .lines)) ts
      (fun _ rest => Derives (.parts layout) scope ts rest)
      (Completes (Derives (.parts layout) scope · []) ts) := by
  refine .ensuring (.any_bind fun t _ => .locate_bind ?_) (ensures_textRun hi.sound hlayout)
  exact .bind (.many (G := Completes (Derives (.parts layout) scope · []))
    (fun ts => settles_runItem hi hlayout) _ _) fun _ _ _ => .pure trivial

/-- The delimiter of a region ends what has no parts. -/
theorem derivesRegion_end : DerivesRegion scope (⟨.endPipelessText, pos⟩ :: rest) rest := by
  refine ⟨pos, derives_endParts ?_⟩
  simp [Lookahead.of, Layout.starts, Token.terminal, Lexeme.terminal]

theorem derivesRegion_part (hf : Derives .fragment scope ts mid)
    (h : DerivesRegion scope mid rest) : DerivesRegion scope ts rest := by
  rcases h with ⟨stop, h⟩
  exact ⟨stop, derives_part hf h⟩

theorem settles_verbatimItem (hi : inner.Settles o finish) :
    Settles o finish (verbatimItem inner scope) ts
      (fun x mid => x.isSome → Completable (DerivesRegion scope · []) mid →
        Completable (DerivesRegion scope · []) ts)
      (Completable (DerivesRegion scope · []) ts) := by
  have hpart : ∀ {ts mid}, Derives .fragment scope ts mid →
      Completable (DerivesRegion scope · []) mid → Completable (DerivesRegion scope · []) ts := by
    rintro ts mid hf ⟨more, h⟩
    exact ⟨more, derivesRegion_part (derives_fragment_append hf more) h⟩
  refine .peek_bind (fun hts => .locate_bind (.reject rfl ⟨rfl, ?_⟩ fun _ _ => ?_))
    fun l pos us hts => .locate_bind ?_
  · simp [Token.terminal, Lexeme.terminal]
  · subst hts
    exact ⟨[⟨.endPipelessText, finish⟩], derivesRegion_end⟩
  · subst hts
    cases l with
    | endPipelessText => exact .skip_bind (by simp) (.pure_none)
    | text value =>
      exact .skip_bind (by simp) (.pure fun _ =>
        hpart ⟨.plain (.text value pos), rfl, trivial, trivial⟩)
    | newline =>
      refine .skip_bind (by simp) (.pure fun _ hc => hc.cons ?_)
      rintro vs ⟨stop, h⟩
      exact ⟨stop, derives_lineBreak (by decide) h⟩
    | interpolatedCode c =>
      exact .skip_bind (by simp) (.pure fun _ =>
        hpart ⟨.plain (.code c pos), rfl, trivial, trivial⟩)
    | startInterpolation =>
      refine .bind ((settles_interpolation hi).imp ?_) fun node mid hf => .pure fun _ => hpart hf
      rintro ⟨more, h⟩
      refine ⟨more ++ [⟨.endPipelessText, finish⟩], ?_⟩
      have hmore := derives_fragment_append h [⟨.endPipelessText, finish⟩]
      rw [List.append_assoc] at hmore
      exact derivesRegion_part hmore derivesRegion_end
    | _ => exact .reject_cons ⟨rfl, by simp [Token.terminal, Lexeme.terminal]⟩

theorem derives_someRegion (h : DerivesRegion scope us rest) :
    Derives .region scope (⟨.startPipelessText, pos⟩ :: us) rest := by
  rcases h with ⟨stop, d, rfl, hg, hl⟩
  refine ⟨.someRegion pos d stop, ?_, hg, hl⟩
  simp only [Derivation.tokens, List.cons_append, List.append_assoc, List.nil_append]

/-- **A verbatim region that lacks tokens can be completed.** -/
theorem settles_verbatim? (hi : inner.Settles o finish) :
    Settles o finish (verbatim? inner scope) ts (fun _ rest => Derives .region scope ts rest)
      (Completes (Derives .region scope · []) ts) := by
  refine .ensuring (.peek_bind (fun _ => .pure trivial) fun l pos us hts => ?_)
    (ensures_verbatim? hi.sound)
  subst hts
  split
  · rename_i h
    obtain rfl : l = .startPipelessText := Lexeme.eq_of_terminal h rfl
    refine .skip_bind (by simp) (.locate_bind (.bind ((Settles.many
      (G := Completable (DerivesRegion scope · [])) (fun ts => settles_verbatimItem hi) _ _).imp
      fun hc => ?_) fun _ _ _ => .pure trivial))
    exact .of_token (by decide) (hc.cons fun _ => derives_someRegion)
  · exact .pure trivial

theorem settles_verbatimAt (hi : inner.Settles o finish) (loc : Location) :
    Settles o finish (verbatimAt inner scope loc) ts (fun _ rest => Derives .region scope ts rest)
      (Completes (Derives .region scope · []) ts) :=
  .ensuring (.bind (settles_verbatim? hi) fun _ _ _ => .pure trivial)
    (ensures_verbatimAt hi.sound loc)

end Grammar
end Pug
