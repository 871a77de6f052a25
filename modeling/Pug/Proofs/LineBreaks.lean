/-
# Repeated line breaks

Outside of verbatim regions a line break is as good as two of them. A list of productions drops all
of them, and so do lines of HTML and the branches of a case; behind the line of an element and in
front of an alternate all of them are gone past at once; and a run of text keeps at most the last
one. Elsewhere already the first one is refused.

Where the tokens in front of a line break begin as many verbatim regions as they end, the line break
is in none of them.
-/

import Pug.Proofs.Coupling.Change

namespace Pug

/-- How many tokens are of a terminal. -/
def occurrences (terminal : Terminal) (ts : List Token) : Nat :=
  ts.countP fun t => t.terminal = terminal

theorem occurrences_cons (terminal : Terminal) (t : Token) (ts : List Token) :
    occurrences terminal (t :: ts) =
      occurrences terminal ts + if t.terminal = terminal then 1 else 0 := by
  simp [occurrences, List.countP_cons]

/-- With so many verbatim regions around, the tokens end those and all that they begin. -/
def Balanced (depth : Nat) (ts : List Token) : Prop :=
  occurrences .endPipelessText ts = occurrences .startPipelessText ts + depth

theorem fitting_balanced : Fitting Balanced where
  step h hstart hend := by
    have hstart' : _ ≠ Terminal.startPipelessText := fun h => hstart (Lexeme.eq_of_terminal h rfl)
    have hend' : _ ≠ Terminal.endPipelessText := fun h => hend (Lexeme.eq_of_terminal h rfl)
    unfold Balanced at h ⊢
    rw [occurrences_cons, occurrences_cons, Token.terminal, if_neg hstart', if_neg hend'] at h
    exact h
  enter h ht := by
    unfold Balanced at h ⊢
    rw [occurrences_cons, occurrences_cons, Token.terminal, ht] at h
    simp only [Lexeme.terminal, reduceCtorEq, if_true, if_false] at h
    omega
  leave h ht := by
    unfold Balanced at h ⊢
    rw [occurrences_cons, occurrences_cons, Token.terminal, ht] at h
    simp only [Lexeme.terminal, reduceCtorEq, if_true, if_false] at h
    omega

/-- One of two line breaks may be missing where no verbatim region is around. -/
theorem sound_newline (o : Options) (pos : Position) :
    (Coupling.changed True Balanced ⟨.newline, pos⟩ [⟨.newline, pos⟩] []).Sound o := by
  refine Coupling.sound_changed fitting_balanced (.inl rfl) (fun _ depth rest h => ?_) nofun
  have hdepth : 0 = 0 + depth := h
  exact ⟨by omega, .inl rfl⟩

/-- **Repeated line breaks are inert outside of verbatim regions.** -/
theorem parse_repeated_newline (o : Options) {p : List Token}
    (hp : occurrences .startPipelessText p = occurrences .endPipelessText p) (pos : Position)
    (r : List Token) :
    ∃ verdict, (parse o (p ++ [⟨.newline, pos⟩, ⟨.newline, pos⟩] ++ r)).verdict? = some verdict ∧
      (parse o (p ++ [⟨.newline, pos⟩] ++ r)).verdict? = some verdict ∧
      (parse o (p ++ [⟨.newline, pos⟩] ++ r)).warnings =
        (parse o (p ++ [⟨.newline, pos⟩, ⟨.newline, pos⟩] ++ r)).warnings := by
  obtain ⟨verdict, hverdict, hverdict', hwarnings⟩ :=
    Coupling.exists_verdict_changed r (sound_newline o pos) (fun _ => hp.symm) (by simp) (by simp)
      rfl
  rw [List.append_assoc, List.append_assoc]
  exact ⟨verdict, hverdict, hverdict', hwarnings trivial⟩

/-- Two line breaks between a comment with a verbatim region and a line of text. -/
theorem parse_repeated_newline_comment :
    occurrences .startPipelessText [⟨.comment "c" true, ⟨1, 1⟩⟩, ⟨.startPipelessText, ⟨1, 3⟩⟩,
        ⟨.text "x", ⟨2, 1⟩⟩, ⟨.endPipelessText, ⟨2, 2⟩⟩] =
      occurrences .endPipelessText [⟨.comment "c" true, ⟨1, 1⟩⟩, ⟨.startPipelessText, ⟨1, 3⟩⟩,
        ⟨.text "x", ⟨2, 1⟩⟩, ⟨.endPipelessText, ⟨2, 2⟩⟩] ∧
    (parse .default ([⟨.comment "c" true, ⟨1, 1⟩⟩, ⟨.startPipelessText, ⟨1, 3⟩⟩,
        ⟨.text "x", ⟨2, 1⟩⟩, ⟨.endPipelessText, ⟨2, 2⟩⟩] ++ [⟨.newline, ⟨2, 3⟩⟩] ++
        [⟨.text "y", ⟨4, 1⟩⟩])).verdict? =
      some (.ok ⟨[.blockComment "c" true ⟨[.text "x" false ⟨⟨2, 1⟩, none⟩], ⟨⟨1, 3⟩, none⟩⟩
        ⟨⟨1, 1⟩, none⟩, .text "y" false ⟨⟨4, 1⟩, none⟩], ⟨.whole, none⟩⟩) := by
  refine ⟨by decide, ?_⟩
  obtain ⟨verdict, hverdict, hverdict', -⟩ :=
    @parse_repeated_newline .default [⟨.comment "c" true, ⟨1, 1⟩⟩, ⟨.startPipelessText, ⟨1, 3⟩⟩,
      ⟨.text "x", ⟨2, 1⟩⟩, ⟨.endPipelessText, ⟨2, 2⟩⟩] (by decide) ⟨2, 3⟩ [⟨.text "y", ⟨4, 1⟩⟩]
  cases hverdict
  exact hverdict'

end Pug
