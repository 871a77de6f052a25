/-
# Derivations in front of more tokens

What is seen of the tokens ahead changes where tokens are added at the end of the input:
`Lookahead.Prolongs starts a b` says that `b` is what `a` becomes when the tokens that are
added begin with one of `starts`, and that no alternate of a conditional follows among
them.

The end of the input closes whatever is open, and so do an outdent and the bracket behind an
interpolation: no optional part and no further round of a repetition begins with one of
these, and the line of an element may be empty in front of each of them. So a derivation that
is greedy at the end of the input is greedy in front of these too (`greedy_of_prolongs`).
In the same way a derivation that is lawful outside of a mixin is lawful inside of one
(`lawful_of_inMixin`).
-/

import Pug.Proofs.Derivation.Greedy

namespace Pug

/-- The terminals, besides the end of the input, that close whatever is open. -/
def closers : List Terminal := [.outdent, .endInterpolation]

namespace Lookahead

/-- Where `a` shows the end of the input, `b` shows one of `starts` first, and past the line
breaks no alternate of a conditional. Elsewhere `b` shows what `a` shows. -/
structure Prolongs (starts : List Terminal) (a b : Lookahead) : Prop where
  next : b.next = a.next ∨ a.next = .eos ∧ b.next ∈ starts
  past : b.pastNewlines = a.pastNewlines ∨
    a.pastNewlines = .eos ∧ b.pastNewlines ∉ [.elseIf, .else]

namespace Prolongs

variable {a b : Lookahead} {starts terminals : List Terminal} {terminal : Terminal}

protected theorem rfl : Prolongs starts a a := ⟨.inl rfl, .inl rfl⟩

/-- Tokens that begin with a closer are added at the end. -/
theorem of_closer (h : terminal ∈ closers) : Prolongs closers finish ⟨terminal, terminal⟩ := by
  refine ⟨.inr ⟨rfl, h⟩, .inr ⟨rfl, ?_⟩⟩
  simp only [closers, List.mem_cons, List.not_mem_nil, or_false] at h
  rcases h with rfl | rfl <;> simp

theorem past_before (h : Prolongs starts a b) (ts : List Token) :
    (b.before ts).pastNewlines = (a.before ts).pastNewlines ∨
      (a.before ts).pastNewlines = .eos ∧ (b.before ts).pastNewlines ∉ [.elseIf, .else] := by
  induction ts with
  | nil => exact h.past
  | cons t ts ih =>
    simp only [Lookahead.before_cons]
    split
    · exact ih
    · exact .inl rfl

/-- In front of some tokens only what is past the line breaks can change. -/
theorem before_cons (h : Prolongs starts a b) (t : Token) (ts : List Token) :
    Prolongs [] (a.before (t :: ts)) (b.before (t :: ts)) :=
  ⟨.inl rfl, h.past_before (t :: ts)⟩

theorem of_nil (h : Prolongs [] a b) : Prolongs starts a b := by
  refine ⟨.inl ?_, h.past⟩
  rcases h.next with heq | ⟨-, hmem⟩
  · exact heq
  · exact absurd hmem List.not_mem_nil

theorem before (h : Prolongs starts a b) (ts : List Token) :
    Prolongs starts (a.before ts) (b.before ts) := by
  cases ts with
  | nil => exact h
  | cons t ts => exact (h.before_cons t ts).of_nil

/-- What is seen first is not among the terminals to which no start belongs, if it was not
before. -/
theorem notMem (h : Prolongs starts a b) (hs : ∀ start ∈ starts, start ∉ terminals)
    (ha : a.next ∉ terminals) : b.next ∉ terminals := by
  rcases h.next with heq | ⟨-, hmem⟩
  · rwa [heq]
  · exact hs _ hmem

theorem next_ne (h : Prolongs starts a b) (hs : terminal ∉ starts) (ha : a.next ≠ terminal) :
    b.next ≠ terminal := by
  rcases h.next with heq | ⟨-, hmem⟩
  · rwa [heq]
  · rintro rfl
    exact hs hmem

/-- What is seen first is still among terminals of which the end is none, or all starts are. -/
theorem mem (h : Prolongs starts a b)
    (hs : Terminal.eos ∈ terminals → ∀ start ∈ starts, start ∈ terminals)
    (ha : a.next ∈ terminals) : b.next ∈ terminals := by
  rcases h.next with heq | ⟨heos, hmem⟩
  · rwa [heq]
  · rw [heos] at ha
    exact hs ha _ hmem

theorem past_notMem (h : Prolongs starts a b) (ha : a.pastNewlines ∉ [.elseIf, .else]) :
    b.pastNewlines ∉ [.elseIf, .else] := by
  rcases h.past with heq | ⟨-, hnot⟩
  · rwa [heq]
  · exact hnot

end Prolongs
end Lookahead

namespace Derivation

/-- **A derivation that is greedy at the end of the input is greedy in front of what closes
it.** The induction hands on what is seen at the end of a derivation; conditions of its own
has a derivation that ends early. -/
theorem greedy_of_prolongs {s : Symbol} (d : Derivation s) :
    ∀ {a b : Lookahead}, Lookahead.Prolongs closers a b → d.Greedy a → d.Greedy b := by
  induction d with
  | nil => exact fun h hg => h.notMem (by decide) hg
  | item e rest ihe ih => exact fun h hg => ⟨ihe (h.before rest.tokens) hg.1, ih h hg.2⟩
  | block indent items outdent ih =>
    exact fun h hg => ih (h.before [⟨.outdent, outdent⟩]) hg
  | noBlock => exact fun h hg => h.next_ne (by decide) hg
  | noRegion => exact fun h hg => h.next_ne (by decide) hg
  | someRegion start parts stop ih =>
    exact fun h hg => ih (h.before [⟨.endPipelessText, stop⟩]) hg
  | @endParts layout => exact fun h hg => h.notMem (by cases layout <;> decide) hg
  | part f rest ihf ih => exact fun h hg => ⟨ihf (h.before rest.tokens) hg.1, ih h hg.2⟩
  | interpolated start e stop ih =>
    exact fun h hg => ih (h.before [⟨.endInterpolation, stop⟩]) hg
  | endHtml => exact fun h hg => h.notMem (by decide) hg
  | htmlBlock b rest ihb ih => exact fun h hg => ⟨ihb (h.before rest.tokens) hg.1, ih h hg.2⟩
  | noContent => exact fun h hg => h.mem (by decide) hg
  | nesting content newlines nested ihc ihn =>
    exact fun h hg => ⟨(h.before _).next_ne (by decide) hg.1, ihc (h.before _) hg.2.1,
      (h.before _).next_ne (by decide) hg.2.2.1, ihn h hg.2.2.2⟩
  | textOnly pos content newlines region ihc ihr =>
    exact fun h hg => ⟨ihc (h.before _) hg.1, (h.before _).next_ne (by decide) hg.2.1,
      ihr h hg.2.2⟩
  | endBranches => exact fun h hg => h.notMem (by decide) hg
  | fallthrough expr pos rest ih =>
    exact fun h hg => ⟨(h.before _).mem (by decide) hg.1, ih h hg.2⟩
  | when expr pos body rest ihb ih =>
    exact fun h hg => ⟨ihb (h.before rest.tokens) hg.1, ih h hg.2⟩
  | default pos body rest ihb ih =>
    exact fun h hg => ⟨ihb (h.before rest.tokens) hg.1, ih h hg.2⟩
  | endAlternates => exact fun h hg => h.past_notMem hg
  | elseIf newlines test pos nested rest ihn ih =>
    exact fun h hg => ⟨ihn (h.before rest.tokens) hg.1, ih h hg.2⟩
  | filterRegion name pos group region ih =>
    exact fun h hg => ⟨fun hnone => (h.before _).next_ne (by decide) (hg.1 hnone),
      (h.before _).notMem (by decide) hg.2.1, ih h hg.2.2⟩
  | tag name pos head body ih =>
    exact fun h hg => ⟨(h.before _).notMem (by decide) hg.1, ih h hg.2⟩
  | interpolatedTag expr pos head body ih =>
    exact fun h hg => ⟨(h.before _).notMem (by decide) hg.1, ih h hg.2⟩
  | shorthand first head body ih =>
    exact fun h hg => ⟨(h.before _).notMem (by decide) hg.1, ih h hg.2⟩
  | call name args pos head body ih =>
    exact fun h hg => ⟨(h.before _).notMem (by decide) hg.1, ih h hg.2⟩
  | caseOf expr pos indent branches outdent ih =>
    exact fun h hg => ih (h.before [⟨.outdent, outdent⟩]) hg
  | run first rest ihf ih => exact fun h hg => ⟨ihf (h.before rest.tokens) hg.1, ih h hg.2⟩
  | each iteration pos body ih =>
    exact fun h hg => ⟨ih h hg.1, h.next_ne (by decide) hg.2⟩
  | eachElse iteration pos body place alternate ihb iha =>
    exact fun h hg => ⟨ihb (h.before _) hg.1, iha h hg.2⟩
  | conditional test pos nested rest ihn ih =>
    exact fun h hg => ⟨ihn (h.before rest.tokens) hg.1, ih h hg.2⟩
  | blockCode pos region => exact fun h hg hnone => h.next_ne (by decide) (hg hnone)
  | plain | lineCode | slash | filterText | mixinBlock | yield | doctype | parent =>
    exact fun _ _ => trivial
  | _ => assumption

/-- **What is lawful outside of a mixin is lawful inside of one.** -/
theorem lawful_of_inMixin {s : Symbol} (d : Derivation s) :
    ∀ {scope scope' : Grammar.Scope}, (scope.inMixin = true → scope'.inMixin = true) →
      d.Lawful scope → d.Lawful scope' := by
  induction d with
  | mixinBlock pos => exact fun h hl => h hl
  | mixin name args pos nested ih => exact fun _ hl => hl
  | item _ _ ihe ih => exact fun h hl => ⟨ihe h hl.1, ih h hl.2⟩
  | part _ _ ihf ih => exact fun h hl => ⟨ihf h hl.1, ih h hl.2⟩
  | htmlBlock _ _ ihb ih => exact fun h hl => ⟨ihb h hl.1, ih h hl.2⟩
  | nesting _ _ _ ihc ihn => exact fun h hl => ⟨ihc h hl.1, ihn h hl.2⟩
  | textOnly _ _ _ _ ihc ihr => exact fun h hl => ⟨ihc h hl.1, ihr h hl.2⟩
  | when _ _ _ _ ihb ih => exact fun h hl => ⟨ihb h hl.1, ih h hl.2⟩
  | default _ _ _ ihb ih => exact fun h hl => ⟨ihb h hl.1, ih h hl.2⟩
  | elseIf _ _ _ _ _ ihn ih => exact fun h hl => ⟨ihn h hl.1, ih h hl.2⟩
  | tag _ _ _ _ ih => exact fun h hl => ⟨hl.1, ih h hl.2⟩
  | interpolatedTag _ _ _ _ ih => exact fun h hl => ⟨hl.1, ih h hl.2⟩
  | shorthand _ _ _ ih => exact fun h hl => ⟨hl.1, ih h hl.2⟩
  | call _ _ _ _ _ ih => exact fun h hl => ⟨hl.1, ih h hl.2⟩
  | run _ _ ihf ih => exact fun h hl => ⟨ihf h hl.1, ih h hl.2⟩
  | eachElse _ _ _ _ _ ihb iha => exact fun h hl => ⟨ihb h hl.1, iha h hl.2⟩
  | conditional _ _ _ _ ihn ih => exact fun h hl => ⟨ihn h hl.1, ih h hl.2⟩
  | code _ _ _ ih => exact fun h hl => ⟨hl.1, ih h hl.2⟩
  | nil | noBlock | noRegion | endParts | plain | endHtml | noContent | lineCode | slash
  | endBranches | endAlternates | filterText | yield | doctype | parent | blockCode =>
    exact fun _ _ => trivial
  | _ => assumption

end Derivation
end Pug
