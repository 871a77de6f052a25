/-
# Templates that differ at one place

Two templates are the same but at one place, where each has tokens of its own. The place begins
with one token in both, which is a line break or the announcement of an include, since at no other
token the readings may go apart. Behind the place they have to come together.

Whether the place is in a verbatim region is known from the tokens in front of it, which `fits`
relates to the number of regions around.
-/

import Pug.Proofs.Coupling.Template

namespace Pug

/-- A relation of depths to tokens ahead that is kept along a reading. -/
structure Fitting (fits : Nat → List Token → Prop) : Prop where
  step : ∀ {depth t us}, fits depth (t :: us) → t.lexeme ≠ .startPipelessText →
    t.lexeme ≠ .endPipelessText → fits depth us
  enter : ∀ {depth t us}, fits depth (t :: us) → t.lexeme = .startPipelessText →
    fits (depth + 1) us
  leave : ∀ {depth t us}, fits (depth + 1) (t :: us) → t.lexeme = .endPipelessText →
    fits depth us

namespace Coupling

/-- Behind `head`, the second reading has `second` where the first one has `first`. -/
def changed (heeds : Prop) (fits : Nat → List Token → Prop) (head : Token)
    (first second : List Token) : Coupling where
  places := .stay
  heeds := heeds
  refuses _ := False
  tokens depth ts ts' := ts' = ts ∨ ∃ us rest, fits depth us ∧
    ts = us ++ head :: (first ++ rest) ∧ ts' = us ++ head :: (second ++ rest)

variable {heeds : Prop} {fits : Nat → List Token → Prop} {head t t' : Token}
  {first second us us' : List Token} {depth depth' : Nat} {o : Options}

/-- The first tokens are the same. The place is not ahead any more, or is behind them, or begins with
them. -/
theorem changed_cons
    (h : (changed heeds fits head first second).tokens depth (t :: us) (t' :: us')) :
    t' = t ∧ (us' = us ∨
      (∃ vs rest, fits depth (t :: vs) ∧ us = vs ++ head :: (first ++ rest) ∧
        us' = vs ++ head :: (second ++ rest)) ∨
      ∃ rest, fits depth [] ∧ t = head ∧ us = first ++ rest ∧ us' = second ++ rest) := by
  rcases h with hsame | ⟨vs, rest, hfits, hts, hts'⟩
  · obtain ⟨rfl, rfl⟩ := List.cons.inj hsame
    exact ⟨rfl, .inl rfl⟩
  · cases vs with
    | nil =>
      obtain ⟨rfl, rfl⟩ := List.cons.inj hts
      obtain ⟨rfl, rfl⟩ := List.cons.inj hts'
      exact ⟨rfl, .inr (.inr ⟨rest, hfits, rfl, rfl, rfl⟩)⟩
    | cons v vs =>
      obtain ⟨rfl, rfl⟩ := List.cons.inj hts
      obtain ⟨rfl, rfl⟩ := List.cons.inj hts'
      exact ⟨rfl, .inr (.inl ⟨vs, rest, hfits, rfl, rfl⟩)⟩

/-- A token with which the place does not begin is gone past by both readings. -/
theorem changed_tail
    (h : (changed heeds fits head first second).tokens depth (t :: us) (t' :: us'))
    (ht : t ≠ head) (hfits : ∀ vs, fits depth (t :: vs) → fits depth' vs) :
    (changed heeds fits head first second).tokens depth' us us' := by
  rcases (changed_cons h).2 with hsame | ⟨vs, rest, hvs, rfl, rfl⟩ | ⟨rest, -, heq, -⟩
  · exact .inl hsame
  · exact .inr ⟨vs, rest, hfits vs hvs, rfl, rfl⟩
  · exact absurd heq ht

/-- **A change is sound** if the readings agree from where it begins to where it ends. -/
theorem sound_changed (hfits : Fitting fits)
    (hhead : head.lexeme = .newline ∨ head.lexeme = .include)
    (hnewline : head.lexeme = .newline → ∀ depth rest, fits depth [] → depth = 0 ∧
      (changed heeds fits head first second).tokens depth (first ++ rest)
        (head :: (second ++ rest)))
    (hinclusion : head.lexeme = .include → ∀ depth rest n n' scope c c',
      c.ahead = head :: (first ++ rest) → c'.ahead = head :: (second ++ rest) →
      c'.stop = c.stop →
      (changed heeds fits head first second).Agrees
        (fun _ => (changed heeds fits head first second).Meets depth)
        ((Grammar.expr (.ofDepth n) scope).run o c)
        ((Grammar.expr (.ofDepth n') scope).run o c')) :
    (changed heeds fits head first second).Sound o where
  nil h := by
    rcases h with hsame | ⟨us, rest, -, hts, -⟩
    · exact hsame
    · simp at hts
  cons h := by
    rcases h with hsame | ⟨us, rest, -, hts, hts'⟩
    · exact ⟨_, hsame⟩
    · cases us with
      | nil =>
        obtain ⟨rfl, -⟩ := List.cons.inj hts
        exact ⟨_, hts'⟩
      | cons u us =>
        obtain ⟨rfl, -⟩ := List.cons.inj hts
        exact ⟨_, hts'⟩
  step h ht := by
    refine changed_tail h ?_ fun vs hvs => hfits.step hvs ?_ ?_
    · rintro rfl
      rcases hhead with hhead | hhead <;> simp [Token.terminal, hhead, Lexeme.terminal,
        Terminal.ordinary, Terminal.parting] at ht
    · intro hstart
      simp [Token.terminal, hstart, Lexeme.terminal, Terminal.ordinary] at ht
    · intro hend
      simp [Token.terminal, hend, Lexeme.terminal, Terminal.ordinary] at ht
  newline h ht := by
    obtain ⟨rfl, hus⟩ := changed_cons h
    rcases hus with hsame | ⟨vs, rest, hvs, rfl, rfl⟩ | ⟨rest, hnil, rfl, rfl, rfl⟩
    · exact .inl (.inl hsame)
    · have hbehind := hfits.step hvs (by simp [ht]) (by simp [ht])
      exact .inl (.inr ⟨vs, rest, hbehind, rfl, rfl⟩)
    · exact .inr (hnewline ht _ rest hnil)
  enter h ht := by
    refine changed_tail h ?_ fun vs hvs => hfits.enter hvs ht
    rintro rfl
    rcases hhead with hhead | hhead <;> cases ht.symm.trans hhead
  leave h ht := by
    refine changed_tail h ?_ fun vs hvs => hfits.leave hvs ht
    rintro rfl
    rcases hhead with hhead | hhead <;> cases ht.symm.trans hhead
  part h ht := by
    obtain ⟨rfl, hus⟩ := changed_cons h
    rcases hus with hsame | ⟨vs, rest, hvs, rfl, rfl⟩ | ⟨rest, -, rfl, rfl, rfl⟩
    · exact .inl (.inl hsame)
    · have hbehind := hfits.step hvs (Token.lexeme_ne_of_parting ht (by decide))
        (Token.lexeme_ne_of_parting ht (by decide))
      exact .inl (.inr ⟨vs, rest, hbehind, rfl, rfl⟩)
    · rcases hhead with hnewline | hinclude
      · rw [Token.terminal, hnewline] at ht
        cases ht
      · exact .inr fun n n' scope c c' => hinclusion hinclude _ rest n n' scope c c'

/-- The inputs meet at their beginning if both places end with one token. Behind an
end-of-stream token the place is not read. -/
theorem meets_changed {p r : List Token} (hfits : EosFree p → fits 0 p)
    (hfirst : EosFree (head :: first)) (hsecond : EosFree (head :: second))
    (hlast : (head :: first).getLast? = (head :: second).getLast?) :
    (changed heeds fits head first second).Meets 0 (.ofList (p ++ head :: (first ++ r)))
      (.ofList (p ++ head :: (second ++ r))) := by
  by_cases hp : EosFree p
  · have hfree : ∀ more, EosFree (head :: more) → EosFree (p ++ head :: more) :=
      fun more hmore => (eosFree_append p (head :: more)).2 ⟨hp, hmore⟩
    have hsplit : ∀ more rest, p ++ head :: (more ++ rest) = p ++ head :: more ++ rest :=
      fun more rest => (List.append_assoc p (head :: more) rest).symm
    have hend : (p ++ head :: second).getLast? = (p ++ head :: first).getLast? := by
      rw [List.getLast?_append, List.getLast?_append, hlast]
    rw [hsplit, hsplit]
    refine ⟨.inr ⟨p, beforeEos r, hfits hp, ?_, ?_⟩, ?_⟩
    · rw [Cursor.ahead_ofList_append (hfree first hfirst), hsplit]
    · rw [Cursor.ahead_ofList_append (hfree second hsecond), hsplit]
    · change _ = (Cursor.ofList _).stop
      rw [Cursor.stop_ofList_append (hfree first hfirst),
        Cursor.stop_ofList_append (hfree second hsecond), Cursor.eos_ofList_append hend]
  · -- Both inputs end in `p` already.
    obtain ⟨us, t, rest, rfl, hus, ht⟩ := exists_first_eos hp
    rw [List.append_assoc, List.append_assoc]
    refine ⟨.inl ?_, ?_⟩
    · exact (Cursor.ahead_ofList_eos hus ht _).trans (Cursor.ahead_ofList_eos hus ht _).symm
    · exact (Cursor.stop_ofList_eos hus ht _).trans (Cursor.stop_ofList_eos hus ht _).symm

/-- **Templates that differ at one place get one verdict,** if the change is sound. -/
theorem exists_verdict_changed {p : List Token} (r : List Token)
    (hsound : (changed heeds fits head first second).Sound o) (hfits : EosFree p → fits 0 p)
    (hfirst : EosFree (head :: first)) (hsecond : EosFree (head :: second))
    (hlast : (head :: first).getLast? = (head :: second).getLast?) :
    ∃ verdict, (parse o (p ++ head :: (first ++ r))).verdict? = some verdict ∧
      (parse o (p ++ head :: (second ++ r))).verdict? = some verdict ∧
      (heeds → (parse o (p ++ head :: (second ++ r))).warnings =
        (parse o (p ++ head :: (first ++ r))).warnings) :=
  hsound.exists_same_verdict rfl (meets_changed hfits hfirst hsecond hlast)

end Coupling
end Pug
