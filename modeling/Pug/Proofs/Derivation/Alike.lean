/-
# Terminals that are not told apart

Where a grammar takes terminals of some kinds for the same, derivations may go on whichever of them
comes next. Two lookaheads are alike up to such kinds if they show the same, or both show terminals
of these kinds. A condition on what is seen holds of both or of none, if it does not tell the kinds
apart.
-/

import Pug.Proofs.Derivation.Greedy

namespace Pug

/-- Two terminals are the same, or both are of the given kinds. -/
def Terminal.Alike (kinds : List Terminal) (t u : Terminal) : Prop :=
  t = u ∨ t ∈ kinds ∧ u ∈ kinds

/-- Of the given kinds, either all are among some terminals or none is. -/
def Terminal.Joint (kinds terminals : List Terminal) : Prop :=
  ∀ t ∈ kinds, ∀ u ∈ kinds, t ∈ terminals → u ∈ terminals

instance (kinds terminals : List Terminal) : Decidable (Terminal.Joint kinds terminals) :=
  inferInstanceAs (Decidable (∀ t ∈ kinds, ∀ u ∈ kinds, t ∈ terminals → u ∈ terminals))

namespace Terminal.Alike

variable {kinds terminals : List Terminal} {t u other : Terminal}

/-- Terminals among which are all kinds, or none, do not tell the kinds apart. -/
theorem mem_iff (h : t.Alike kinds u) (hjoint : Joint kinds terminals) :
    t ∈ terminals ↔ u ∈ terminals := by
  rcases h with rfl | ⟨ht, hu⟩
  · rfl
  · exact ⟨hjoint t ht u hu, hjoint u hu t ht⟩

/-- Nor does a terminal of none of the kinds. -/
theorem eq_iff (h : t.Alike kinds u) (hother : other ∉ kinds) : t = other ↔ u = other := by
  rcases h with rfl | ⟨ht, hu⟩
  · rfl
  · exact iff_of_false (fun h => hother (h ▸ ht)) fun h => hother (h ▸ hu)

end Terminal.Alike

namespace Lookahead

/-- What is seen is the same, but for terminals of the given kinds. -/
structure Alike (kinds : List Terminal) (a b : Lookahead) : Prop where
  next : a.next.Alike kinds b.next
  past : a.pastNewlines.Alike kinds b.pastNewlines

namespace Alike

variable {kinds terminals : List Terminal} {a b : Lookahead} {terminal : Terminal}

protected theorem rfl : Alike kinds a a := ⟨.inl rfl, .inl rfl⟩

/-- In front of two tokens that are alike the same is seen. -/
theorem cons (h : a.Alike kinds b) (hkinds : Terminal.newline ∉ kinds) {t u : Token}
    (ht : t.terminal.Alike kinds u.terminal) :
    Alike kinds (a.before [t]) (b.before [u]) := by
  have hnewline : t.terminal = .newline ↔ u.terminal = .newline := ht.eq_iff hkinds
  refine ⟨ht, ?_⟩
  by_cases hline : t.terminal = .newline
  · have hline' := hnewline.1 hline
    simpa [Token.isNewline, hline, hline'] using h.past
  · have hline' := mt hnewline.2 hline
    simpa [Token.isNewline, hline, hline'] using ht

theorem same (h : a.Alike kinds b) (ts : List Token) :
    Alike kinds (a.before ts) (b.before ts) := by
  induction ts with
  | nil => exact h
  | cons t ts ih =>
    refine ⟨.inl rfl, ?_⟩
    by_cases hline : t.isNewline
    · simpa [hline] using ih.past
    · simpa [hline] using .inl rfl

/-- In front of one token more, and of tokens more, the same is seen. -/
theorem before_cons {ts us : List Token} (h : (a.before ts).Alike kinds (b.before us)) (t : Token) :
    Alike kinds (a.before (t :: ts)) (b.before (t :: us)) := h.same [t]

theorem before_append {ts us : List Token} (h : (a.before ts).Alike kinds (b.before us))
    (front : List Token) : Alike kinds (a.before (front ++ ts)) (b.before (front ++ us)) := by
  rw [Lookahead.before_append, Lookahead.before_append]
  exact h.same front

theorem notMem (h : a.Alike kinds b) (hjoint : Terminal.Joint kinds terminals)
    (ha : a.next ∉ terminals) : b.next ∉ terminals := by rwa [← h.next.mem_iff hjoint]

theorem mem (h : a.Alike kinds b) (hjoint : Terminal.Joint kinds terminals)
    (ha : a.next ∈ terminals) : b.next ∈ terminals := by rwa [← h.next.mem_iff hjoint]

theorem next_ne (h : a.Alike kinds b) (hother : terminal ∉ kinds) (ha : a.next ≠ terminal) :
    b.next ≠ terminal := by rwa [Ne, ← h.next.eq_iff hother]

theorem past_notMem (h : a.Alike kinds b) (hjoint : Terminal.Joint kinds terminals)
    (ha : a.pastNewlines ∉ terminals) : b.pastNewlines ∉ terminals := by
  rwa [← h.past.mem_iff hjoint]

end Alike
end Lookahead
end Pug
