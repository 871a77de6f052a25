/-
# What is read on its own

A template that is read on its own can stand indented wherever a block can. Whatever comes
behind the outdent, and whatever is around, the block has the nodes of the template: an outdent
closes what the end of the input closes, and a template that is read needs no mixin around it.

In the same way a production that is read on its own up to the end of the input can stand
wherever the input might end. By itself it is a template too.
-/

import Pug.Proofs.Composition
import Pug.Proofs.Derivation.Closing
import Pug.Proofs.Reading.Document

namespace Pug

/-- A template that is read on its own, between an indent and an outdent. -/
structure Indented (o : Options) where
  indent : Position
  ts : List Token
  outdent : Position
  tree : Block
  eosFree : EosFree ts
  read : ∃ rest, (parse o ts).outcome = .done tree rest

/-- The tokens of a production that is read on its own, outside of every mixin, and takes all of
them. -/
structure Production (o : Options) where
  ts : List Token
  node : Node
  events : List Event
  eosFree : EosFree ts
  read : ∃ rest, (Grammar.expr (.ofDepth (budget ts)) .outermost).run o (.ofList ts) =
    ⟨.done node rest, events⟩ ∧ rest.toList = []

variable {o : Options}

namespace Indented

/-- The tokens of an indented template. -/
def tokens (b : Indented o) : List Token :=
  ⟨.indent, b.indent⟩ :: (b.ts ++ [⟨.outdent, b.outdent⟩])

/-- The tokens of an indented template that may be absent. -/
def tokens? : Option (Indented o) → List Token
  | none => []
  | some b => b.tokens

/-- The block that an indented template is read as. -/
def block (b : Indented o) : Block := ⟨b.tree.nodes, o.place b.indent⟩

/-- The body that an indented template is read as: one without nodes at `loc` if it is absent. -/
def bodyAt (loc : Location) : Option (Indented o) → Block
  | none => .empty loc
  | some b => b.block

/-- The warnings of an indented template. -/
def warnings (b : Indented o) : List Warning := (parse o b.ts).warnings

/-- **An indented template is a block** in front of every token and in every scope. -/
theorem exists_derivation (b : Indented o) :
    ∃ d : Derivation .block, d.tokens = b.tokens ∧ d.meaning o = b.block ∧
      (d.trail o).filterMap Event.warning? = b.warnings ∧
      (∀ a, d.Greedy a) ∧ ∀ scope, d.Lawful scope := by
  obtain ⟨rest, hdone⟩ := b.read
  obtain ⟨d, hd⟩ := exists_derivation_of_parse hdone
  have houtside : ∀ scope : Grammar.Scope,
      Grammar.Scope.outermost.inMixin = true → scope.inMixin = true := fun _ h => nomatch h
  have htokens : d.tokens = b.ts := hd.tokens_eq.trans (beforeEos_of_eosFree b.eosFree)
  have htree : b.tree = ⟨d.meaning o, ⟨.whole, o.filename⟩⟩ := tree_eq_of_reads hdone hd
  refine ⟨.block b.indent d b.outdent, ?_, ?_, (warnings_of_reads hd).symm, fun a => ?_,
    fun scope => ?_⟩
  · rw [Derivation.tokens, htokens, tokens]
  · rw [Derivation.meaning, block, htree]
  · exact d.greedy_of_prolongs (.of_closer List.mem_cons_self) hd.greedy
  · exact d.lawful_of_inMixin (houtside scope) hd.lawful

/-- The same for a block that may be absent: no block goes on in front of what is no indent. -/
theorem exists_nested (body : Option (Indented o)) :
    ∃ d : Derivation .nested, d.tokens = tokens? body ∧ d.meaning o = body.map block ∧
      (∀ a, (body = none → a.next ≠ .indent) → d.Greedy a) ∧ ∀ scope, d.Lawful scope := by
  cases body with
  | none => exact ⟨.noBlock, rfl, rfl, fun a ha => ha rfl, fun _ => trivial⟩
  | some b =>
    obtain ⟨d, htokens, hmeaning, -, hgreedy, hlawful⟩ := b.exists_derivation
    exact ⟨.someBlock d, htokens, congrArg some hmeaning, fun a _ => hgreedy a, hlawful⟩

theorem getD_map_block (loc : Location) (body : Option (Indented o)) :
    (body.map block).getD (.empty loc) = bodyAt loc body := by
  cases body <;> rfl

end Indented

/-- A derivation by which the only production of a template is read. -/
theorem Derivation.reads_single {d : Derivation .expr} (hg : d.Greedy .finish)
    (hl : d.Lawful .outermost) : (Derivation.item d .nil).Reads d.tokens := by
  have hend : Terminal.eos ∉ .newline :: exprStarts := by decide
  refine ⟨?_, ⟨hg, hend⟩, hl, trivial⟩
  rw [beforeEos_of_eosFree d.eosFree]
  exact List.append_nil _

/-- **A template of one production** is read as its meaning. -/
theorem parse_single {d : Derivation .expr} (hg : d.Greedy .finish) (hl : d.Lawful .outermost) :
    (∃ rest, (parse o d.tokens).outcome =
      .done ⟨(d.meaning o).spliced, ⟨.whole, o.filename⟩⟩ rest) ∧
    (parse o d.tokens).warnings = (d.trail o).filterMap Event.warning? := by
  have hreads := Derivation.reads_single hg hl
  obtain ⟨rest, hrun⟩ := parse_of_derivation o hreads
  rw [Derivation.meaning_single] at hrun
  rw [warnings_of_reads hreads, Derivation.trail_single, hrun]
  exact ⟨⟨rest, rfl⟩, rfl⟩

namespace Production

/-- The warnings of a production. -/
def warnings (e : Production o) : List Warning := e.events.filterMap Event.warning?

/-- **A production that is read on its own has a derivation** at the end of the input. -/
theorem exists_derivation (e : Production o) :
    ∃ d : Derivation .expr, d.tokens = e.ts ∧ d.meaning o = e.node ∧
      (d.trail o).filterMap Event.warning? = e.warnings ∧
      d.Greedy .finish ∧ d.Lawful .outermost := by
  obtain ⟨ts, node, events, hfree, rest, hrun, hrest⟩ := e
  obtain ⟨us, rfl, d, htokens, hgreedy, hlawful⟩ :=
    Grammar.ensures_expr (Grammar.sound_ofDepth (budget ts)) o _ node rest events hrun
  obtain rfl : us = [] := hrest
  rw [List.append_nil] at htokens
  have htakes := Grammar.takes_expr (Grammar.covers_ofDepth o (ts.length + 1)) d
    (htokens ▸ Nat.le_succ _) hgreedy hlawful (Cursor.ofList ts).finish
  rw [List.append_nil, ← htokens] at htakes
  cases hrun.symm.trans htakes
  exact ⟨d, htokens.symm, rfl, rfl, hgreedy, hlawful⟩

/-- A production on its own, indented. -/
def indented (e : Production o) (indent outdent : Position) : Indented o where
  indent
  ts := e.ts
  outdent
  tree := ⟨e.node.spliced, ⟨.whole, o.filename⟩⟩
  eosFree := e.eosFree
  read := by
    obtain ⟨d, htokens, hmeaning, -, hgreedy, hlawful⟩ := e.exists_derivation
    have hparse := (parse_single (o := o) hgreedy hlawful).1
    rwa [htokens, hmeaning] at hparse

@[simp] theorem warnings_indented (e : Production o) (indent outdent : Position) :
    (e.indented indent outdent).warnings = e.warnings := by
  obtain ⟨d, htokens, -, htrail, hgreedy, hlawful⟩ := e.exists_derivation
  have hparse := (parse_single (o := o) hgreedy hlawful).2
  rwa [htokens, htrail] at hparse

end Production
end Pug
