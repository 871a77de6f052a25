/-
# Templates read side by side

Two templates whose tokens are coupled get one verdict: both are read, the second one to the tree
of the first one with its nodes moved, or both fail with one error. No other outcome is possible,
since no reading of a template is exhausted. The root of a tree is at the whole of its file, wherever
the nodes are.
-/

import Pug.Proofs.Coupling.Production
import Pug.Proofs.Termination

namespace Pug

open Grammar

/-- What a run says of the tokens: what is read, or what is wrong. -/
def Run.verdict? {α : Type} (r : Run α) : Option (Except ParseError α) :=
  match r.outcome with
  | .done value _ => some (.ok value)
  | .failed e => some (.error e)
  | .exhausted => none

theorem Run.exists_done {α : Type} {r : Run α} {value : α} (h : r.verdict? = some (.ok value)) :
    ∃ rest, r.outcome = .done value rest := by
  rcases r with ⟨outcome, events⟩
  cases outcome with
  | done value' rest =>
    cases h
    exact ⟨rest, rfl⟩
  | failed e => cases h
  | exhausted => cases h

namespace Relocation

/-- The tree of a template with what is in it moved. The root stays at the whole of the file. -/
def template (ρ : Relocation) (tree : Block) : Block :=
  ⟨ρ.move tree.nodes, ⟨tree.loc.toPosition, ρ.filename tree.loc.filename⟩⟩

/-- What is said of a template, with each location moved. -/
def verdict (ρ : Relocation) : Except ParseError Block → Except ParseError Block
  | .ok tree => .ok (ρ.template tree)
  | .error e => .error (ρ.move e)

@[simp] theorem template_stay (tree : Block) : stay.template tree = tree := by
  rcases tree with ⟨nodes, loc⟩
  exact congrArg (Block.mk · loc) (move_stay_nodes nodes)

@[simp] theorem verdict_stay (v : Except ParseError Block) : stay.verdict v = v := by
  cases v with
  | ok tree => exact congrArg Except.ok (template_stay tree)
  | error e => rfl

end Relocation

/-- A reading of a template is one of its productions, with the name of the file left behind. -/
theorem parse_eq (o : Options) (ts : List Token) :
    parse o ts = (((items (.ofDepth (budget ts)) .outermost .eos).run o (.ofList ts)).andThen
      fun nodes rest => ⟨.done ⟨nodes, ⟨.whole, o.filename⟩⟩ rest, []⟩).after
        [.started o.filename] := rfl

namespace Coupling

variable {k : Coupling} {o : Options} {ts ts' : List Token}

/-- The lists of items of templates whose tokens are coupled agree up to the end of the input. -/
theorem Sound.agrees_items (hk : k.Sound o) (h : k.Meets 0 (.ofList ts) (.ofList ts')) :
    k.Agrees (fun _ => k.Stops 0 .eos)
      ((items (.ofDepth (budget ts)) .outermost .eos).run o (.ofList ts))
      ((items (.ofDepth (budget ts')) .outermost .eos).run (k.places.options o) (.ofList ts')) :=
  coupled_items hk (coupled_ofDepth hk (budget ts) (budget ts')) .outermost
    (nofun : Terminal.eos ≠ .newline) (.ofList ts) (.ofList ts') h

/-- **Templates whose tokens are coupled get one verdict,** and the same warnings if the coupling
is about them, unless it allows for an error. -/
theorem Sound.exists_verdict (hk : k.Sound o) (hrefuses : ∀ e, ¬ k.refuses e)
    (h : k.Meets 0 (.ofList ts) (.ofList ts')) :
    ∃ verdict, (parse o ts).verdict? = some verdict ∧
      (parse (k.places.options o) ts').verdict? = some (k.places.verdict verdict) ∧
      (k.heeds →
        (parse (k.places.options o) ts').warnings = k.places.move (parse o ts).warnings) := by
  have hagrees := hk.agrees_items h
  have hdone : (parse o ts).outcome ≠ .exhausted := document_ne_exhausted o (Nat.le_refl _)
  have hdone' : (parse (k.places.options o) ts').outcome ≠ .exhausted :=
    document_ne_exhausted (k.places.options o) (Nat.le_refl _)
  rw [parse_eq] at hdone hdone' ⊢
  rw [parse_eq]
  generalize (items _ _ _).run o _ = run at *
  generalize (items _ _ _).run (k.places.options o) _ = run' at *
  have hstarted : k.Heard [.started o.filename] [.started (k.places.options o).filename] :=
    heard_silent rfl rfl
  cases hagrees with
  | done hc hevents => exact ⟨_, rfl, rfl, hstarted.append (hevents.append heard_nil)⟩
  | failed hevents => exact ⟨_, rfl, rfl, hstarted.append hevents⟩
  | exhausted => exact absurd rfl hdone
  | exhausted' => exact absurd rfl hdone'
  | refused he => exact absurd he (hrefuses _)

/-- Where everything stays in place and no error is allowed for, the verdict is the same. -/
theorem Sound.exists_same_verdict (hk : k.Sound o)
    (hsame : (k.places, k.refuses) = (.stay, fun _ => False))
    (h : k.Meets 0 (.ofList ts) (.ofList ts')) :
    ∃ verdict, (parse o ts).verdict? = some verdict ∧ (parse o ts').verdict? = some verdict ∧
      (k.heeds → (parse o ts').warnings = (parse o ts).warnings) := by
  obtain ⟨hplaces, hrefuses⟩ := Prod.mk.inj hsame
  obtain ⟨verdict, hverdict, hverdict', hwarnings⟩ :=
    hk.exists_verdict (fun e he => by rwa [hrefuses] at he) h
  rw [hplaces] at hverdict' hwarnings
  rw [Relocation.verdict_stay, Relocation.options_stay] at hverdict'
  rw [move_stay_warnings, Relocation.options_stay] at hwarnings
  exact ⟨verdict, hverdict, hverdict', hwarnings⟩

/-- The tokens of the second reading are those of the first one, each at another place. -/
def relocated (ρ : Relocation) : Coupling where
  places := ρ
  heeds := True
  refuses _ := False
  tokens _ ts ts' := ts' = ρ.move ts

theorem relocated_tail {ρ : Relocation} {depth depth' : Nat} {t t' : Token} {us us' : List Token}
    (h : (relocated ρ).tokens depth (t :: us) (t' :: us')) :
    (relocated ρ).tokens depth' us us' := (List.cons.inj h).2

theorem sound_relocated (ρ : Relocation) (o : Options) : (relocated ρ).Sound o where
  nil h := h
  cons h := ⟨_, h⟩
  step h _ := relocated_tail h
  newline h _ := .inl (relocated_tail h)
  enter h _ := relocated_tail h
  leave h _ := relocated_tail h
  part h _ := .inl (relocated_tail h)

end Coupling
end Pug
