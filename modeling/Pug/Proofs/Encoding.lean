/-
# What is written can be read again

Tokens and options go into a reading as JSON, and trees, errors and warnings come out of it as
JSON. Nothing is lost on the way: each of them is read back from what it is written as, so two
of them that are written alike are equal.
-/

import Mathlib.Logic.Function.Basic
import Pug.Proofs.Encoding.Records
import Pug.Proofs.Encoding.Tree

namespace Pug

/-- A way to write data that has a way to read it again. -/
def Json.Recovers {α : Type} (write : α → Json) (read : Json → Option α) : Prop :=
  ∀ a, read (write a) = some a

theorem Json.Recovers.injective {α : Type} {write : α → Json} {read : Json → Option α}
    (h : Json.Recovers write read) : Function.Injective write := by
  intro a b hab
  have hread : some a = some b := by rw [← h a, ← h b, hab]
  exact Option.some.inj hread

theorem Token.recovers : Json.Recovers Token.toJson Token.ofJson? := Token.ofJson?_toJson

theorem Options.recovers : Json.Recovers Options.toJson Options.ofJson? := fun o => by
  have hlegacy : Json.list? Json.string? (.ofList .string o.legacyExtensions) =
      some o.legacyExtensions := Json.list?_ofList fun _ _ => rfl
  simp [toJson, ofJson?, hlegacy]

theorem ParseError.recovers : Json.Recovers ParseError.toJson ParseError.ofJson? := fun e => by
  have hloc : Location.ofJson? e.toJson = some e.loc := e.loc.ofJson?_members _
  have hkind : e.toJson.required Fault.ofJson? "kind" = some e.fault := by
    simp [toJson, Location.members, Position.members]
  simp [ofJson?, hloc, hkind]

theorem Warning.recovers : Json.Recovers Warning.toJson Warning.ofJson? := fun w => by
  have hloc : Location.ofJson? w.toJson = some w.loc := w.loc.ofJson?_members _
  have hkind : w.toJson.required Advice.ofJson? "kind" = some w.advice := by
    simp [toJson, Location.members, Position.members]
  simp [ofJson?, hloc, hkind]

theorem Block.recovers : Json.Recovers Block.toJson Block.ofJson? := fun b =>
  (readBack _).toJson b (Nat.le_succ _)

/-- **What is written can be read again.** A token of any kind, options, an error, a warning
and a tree of any shape and depth are read back from their JSON, and no two of a kind have the
same JSON. -/
theorem read_written :
    ((∀ t : Token, Token.ofJson? t.toJson = some t) ∧
      (∀ o : Options, Options.ofJson? o.toJson = some o) ∧
      (∀ e : ParseError, ParseError.ofJson? e.toJson = some e) ∧
      (∀ w : Warning, Warning.ofJson? w.toJson = some w) ∧
      ∀ b : Block, Block.ofJson? b.toJson = some b) ∧
    Function.Injective Token.toJson ∧ Function.Injective Options.toJson ∧
      Function.Injective ParseError.toJson ∧ Function.Injective Warning.toJson ∧
      Function.Injective Block.toJson :=
  ⟨⟨Token.recovers, Options.recovers, ParseError.recovers, Warning.recovers, Block.recovers⟩,
    Token.recovers.injective, Options.recovers.injective, ParseError.recovers.injective,
    Warning.recovers.injective, Block.recovers.injective⟩

end Pug
