/-
# Loops of readers

A loop runs a reader round after round until the reader declines. The number of
rounds is bounded, and a loop that has used them up is exhausted.
-/

import Pug.Reader.Step

namespace Pug
namespace Reader

/-- The values read in the rounds before the first one that declines. -/
def many {α : Type} (item : Reader (Option α)) : Nat → Reader (List α)
  | 0 => exhausted
  | rounds + 1 => do
    match ← item with
    | none => pure []
    | some a => return a :: (← many item rounds)

/-- The state after the rounds before the first one that declines. -/
def iterate {σ : Type} (step : σ → Reader (Option σ)) : Nat → σ → Reader σ
  | 0, _ => exhausted
  | rounds + 1, state => do
    match ← step state with
    | none => pure state
    | some next => iterate step rounds next

/-- **What comes behind a loop matters only where a round declines.** -/
theorem many_bind_congr {α β : Type} {item : Reader (Option α)} {next next' : List α → Reader β}
    (h : ∀ o c rest events, item.run o c = ⟨.done none rest, events⟩ →
      ∀ as, (next as).run o rest = (next' as).run o rest) (rounds : Nat) :
    many item rounds >>= next = many item rounds >>= next' := by
  induction rounds generalizing next next' with
  | zero => rfl
  | succ rounds ih =>
    have hmore (a : α) : (many item rounds >>= fun as => next (a :: as)) =
        many item rounds >>= fun as => next' (a :: as) :=
      ih fun o c rest events hitem as => h o c rest events hitem (a :: as)
    refine Reader.ext (funext fun o => funext fun c => ?_)
    simp only [many, bind_assoc, run_bind item]
    rcases hitem : item.run o c with ⟨⟨_ | a, rest⟩ | e | _, events⟩
    · simp [h o c rest events hitem]
    · simp [hmore, -run_bind]
    · rfl
    · rfl

/-- **A loop whose steps add what is read** adds all the values that are read. -/
theorem iterate_eq_many {α σ : Type} {item : Reader (Option α)} {add : σ → α → σ}
    {step : σ → Reader (Option σ)} (hstep : ∀ s, step s = Option.map (add s) <$> item)
    (rounds : Nat) (s : σ) :
    iterate step rounds s = List.foldl add s <$> many item rounds := by
  induction rounds generalizing s with
  | zero => rfl
  | succ rounds ih =>
    rw [iterate, many, hstep, bind_map_left, map_bind]
    refine bind_congr fun x => ?_
    cases x with
    | none => rfl
    | some a =>
      simp only [Option.map_some, ih, map_eq_pure_bind, bind_assoc, pure_bind, List.foldl_cons]

end Reader
end Pug
