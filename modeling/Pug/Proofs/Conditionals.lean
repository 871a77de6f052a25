/-
# Chains of conditions

The branches of a conditional are read one after the other, and the conditional is put together
from the last one to the first: each `else if` is the alternate of the branch in front of it,
and an `else` with a block is the alternate of the last one. A branch may be without a block,
and before each branch there may be line breaks. How deep branches are nested is of no account,
since an indented template is read to its own outdent, whichever conditionals are in it.

Line breaks behind the last branch belong to it only if an alternate comes past them. Behind an
`else` none is looked for.
-/

import Pug.Proofs.Standalone

namespace Pug

/-- An `else if` with the line breaks before it. -/
structure ElseIf (o : Options) where
  newlines : List Position
  test : String
  pos : Position
  body : Option (Indented o)

/-- An `else` with the line breaks before it. -/
structure Else (o : Options) where
  newlines : List Position
  pos : Position
  body : Option (Indented o)

/-- A conditional with all its branches. -/
structure Chain (o : Options) where
  test : String
  pos : Position
  body : Option (Indented o)
  links : List (ElseIf o)
  last : Option (Else o)

variable {o : Options}

/-- The tokens of an `else if`. -/
def ElseIf.tokens (l : ElseIf o) : List Token :=
  newlineTokens l.newlines ++ ⟨.elseIf l.test, l.pos⟩ :: Indented.tokens? l.body

/-- The alternate that an `else if` is, with the alternate behind it. -/
def ElseIf.alternate (l : ElseIf o) (next : Option Alternate) : Alternate :=
  .elseIf l.test (Indented.bodyAt (o.place l.pos) l.body) next (o.place l.pos)

namespace Else

/-- The tokens of an `else`, if there is one. -/
def tokens? : Option (Else o) → List Token
  | none => []
  | some e => newlineTokens e.newlines ++ ⟨.else, e.pos⟩ :: Indented.tokens? e.body

/-- The alternate that an `else` is: none without a block. -/
def alternate? (last : Option (Else o)) : Option Alternate :=
  (last.bind body).map fun b => .otherwise b.block

end Else

namespace Chain

/-- The tokens of a conditional. -/
def tokens (c : Chain o) : List Token :=
  ⟨.if c.test, c.pos⟩ ::
    (Indented.tokens? c.body ++ (c.links.flatMap ElseIf.tokens ++ Else.tokens? c.last))

/-- The alternates behind the first branch: each link is the alternate of the one in front of
it. -/
def alternate? (c : Chain o) : Option Alternate :=
  c.links.foldr (fun l next => some (l.alternate next)) (Else.alternate? c.last)

/-- The node of a conditional. -/
def node (c : Chain o) : Node :=
  .conditional c.test (Indented.bodyAt (o.place c.pos) c.body) c.alternate? (o.place c.pos)

/-- The body of the last branch. -/
def lastBody (c : Chain o) : Option (Indented o) :=
  match c.last with
  | some e => e.body
  | none => c.links.foldl (fun _ l => l.body) c.body

/-- What comes behind a conditional does not belong to it: no alternate past the line breaks
unless an `else` was read, and no block where the last branch has none. -/
def Ends (c : Chain o) (a : Lookahead) : Prop :=
  (c.last = none → a.pastNewlines ∉ [.elseIf, .else]) ∧ (c.lastBody = none → a.next ≠ .indent)

/-- In front of a branch comes a line break, or its own token, but no indent. -/
theorem next_ne_indent (a : Lookahead) (newlines : List Position) {l : Lexeme}
    (hl : l.terminal ≠ .indent) (pos : Position) (ts : List Token) :
    (a.before (newlineTokens newlines ++ ⟨l, pos⟩ :: ts)).next ≠ .indent := by
  cases newlines with
  | nil => exact hl
  | cons pos newlines => exact nofun

/-- The branches behind the first one are alternates, and no block comes before them. The
induction is on the links, with the body of the branch in front of them. -/
theorem exists_alternates (c : Chain o) {a : Lookahead} (hends : c.Ends a) :
    ∃ d : Derivation .alternates,
      d.tokens = c.links.flatMap ElseIf.tokens ++ Else.tokens? c.last ∧
      d.meaning o = c.alternate? ∧ d.Greedy a ∧ (∀ scope, d.Lawful scope) ∧
      (c.body = none → (a.before d.tokens).next ≠ .indent) := by
  obtain ⟨test, pos, body, links, last⟩ := c
  induction links generalizing body with
  | nil =>
    cases last with
    | none => exact ⟨.endAlternates, rfl, rfl, hends.1 rfl, fun _ => trivial, hends.2⟩
    | some e =>
      obtain ⟨nested, htokens, hmeaning, hgreedy, hlawful⟩ := Indented.exists_nested e.body
      refine ⟨.otherwise e.newlines e.pos nested, ?_, ?_, hgreedy a hends.2, hlawful,
        fun _ => next_ne_indent a _ (by decide) _ _⟩
      · simp [Derivation.tokens, Else.tokens?, htokens]
      · rw [Derivation.meaning, hmeaning, Option.map_map]
        rfl
  | cons l links ih =>
    obtain ⟨rest, htrest, hmrest, hgrest, hlrest, hnext⟩ := ih l.body hends
    obtain ⟨nested, htokens, hmeaning, hgreedy, hlawful⟩ := Indented.exists_nested l.body
    have hne : (Lexeme.elseIf l.test).terminal ≠ .indent := nofun
    refine ⟨.elseIf l.newlines l.test l.pos nested rest, ?_, ?_, ⟨hgreedy _ hnext, hgrest⟩,
      fun scope => ⟨hlawful scope, hlrest scope⟩, fun _ => next_ne_indent a _ hne _ _⟩
    · simp [Derivation.tokens, ElseIf.tokens, htokens, htrest]
    · rw [Derivation.meaning, hmeaning, Indented.getD_map_block, hmrest]
      rfl

/-- **A conditional is a production** wherever what comes behind it does not belong to it. -/
theorem exists_derivation (c : Chain o) {a : Lookahead} (hends : c.Ends a) :
    ∃ d : Derivation .expr, d.tokens = c.tokens ∧ d.meaning o = c.node ∧ d.Greedy a ∧
      ∀ scope, d.Lawful scope := by
  obtain ⟨rest, htrest, hmrest, hgrest, hlrest, hnext⟩ := c.exists_alternates hends
  obtain ⟨nested, htokens, hmeaning, hgreedy, hlawful⟩ := Indented.exists_nested c.body
  refine ⟨.conditional c.test c.pos nested rest, ?_, ?_, ⟨hgreedy _ hnext, hgrest⟩,
    fun scope => ⟨hlawful scope, hlrest scope⟩⟩
  · rw [Derivation.tokens, htokens, htrest, tokens]
  · rw [Derivation.meaning, hmeaning, Indented.getD_map_block, hmrest, node]

end Chain

open Grammar in
/-- **The chain of a conditional is the list of its branches.** A conditional by itself is a
template with one node, which has the test and the body of the first branch; the alternates
behind it are the links in their order, each with its own test and the nodes of its own body,
and behind the last one comes the body of the `else`, if there is an `else` with a body.

In front of other tokens, whatever is around, it is read as the same node up to its last branch:
line breaks behind it stay in place unless an alternate comes past them, and behind an `else`
alternates stay in place too. -/
theorem read_chain (o : Options) (c : Chain o) :
    (∃ rest, (parse o c.tokens).outcome = .done ⟨[c.node], ⟨.whole, o.filename⟩⟩ rest) ∧
    ∀ (n : Nat) (scope : Scope) (rest : List Token), c.tokens.length < n → c.Ends (.of rest) →
      ∃ events, ∀ finish, (expr (.ofDepth n) scope).run o (.before finish (c.tokens ++ rest)) =
        ⟨.done c.node (.before finish rest), events⟩ := by
  constructor
  · obtain ⟨d, htokens, hmeaning, hgreedy, hlawful⟩ := c.exists_derivation
      (a := .finish) ⟨fun _ => by decide, fun _ => by decide⟩
    have hparse := (parse_single (o := o) hgreedy (hlawful .outermost)).1
    rwa [htokens, hmeaning] at hparse
  · intro n scope rest hn hends
    obtain ⟨d, htokens, hmeaning, hgreedy, hlawful⟩ := c.exists_derivation hends
    obtain ⟨m, rfl⟩ := Nat.exists_eq_succ_of_ne_zero (Nat.ne_zero_of_lt hn)
    have htakes := takes_expr (covers_ofDepth o m) d (by rw [htokens]; omega) hgreedy
      (hlawful scope)
    rw [htokens, hmeaning] at htakes
    exact ⟨d.trail o, htakes⟩

/-- The `else` has no block, so it leaves no alternate behind, but the chain ends with it. -/
theorem read_chain_else :
    (∃ rest, (parse .default [⟨.if "a", ⟨1, 1⟩⟩, ⟨.indent, ⟨2, 1⟩⟩, ⟨.yield, ⟨2, 3⟩⟩,
        ⟨.outdent, ⟨3, 1⟩⟩, ⟨.newline, ⟨3, 1⟩⟩, ⟨.elseIf "b", ⟨3, 1⟩⟩, ⟨.else, ⟨4, 1⟩⟩]).outcome =
      .done ⟨[.conditional "a" ⟨[.yieldBlock ⟨⟨2, 3⟩, none⟩], ⟨⟨2, 1⟩, none⟩⟩
        (some (.elseIf "b" (.empty ⟨⟨3, 1⟩, none⟩) none ⟨⟨3, 1⟩, none⟩)) ⟨⟨1, 1⟩, none⟩],
        ⟨.whole, none⟩⟩ rest) ∧
    ∃ events, ∀ finish, (Grammar.expr (.ofDepth 8) .outermost).run .default (.before finish
        ([⟨.if "a", ⟨1, 1⟩⟩, ⟨.indent, ⟨2, 1⟩⟩, ⟨.yield, ⟨2, 3⟩⟩, ⟨.outdent, ⟨3, 1⟩⟩,
          ⟨.newline, ⟨3, 1⟩⟩, ⟨.elseIf "b", ⟨3, 1⟩⟩, ⟨.else, ⟨4, 1⟩⟩] ++
          [⟨.newline, ⟨5, 1⟩⟩, ⟨.else, ⟨5, 1⟩⟩])) =
      ⟨.done (.conditional "a" ⟨[.yieldBlock ⟨⟨2, 3⟩, none⟩], ⟨⟨2, 1⟩, none⟩⟩
        (some (.elseIf "b" (.empty ⟨⟨3, 1⟩, none⟩) none ⟨⟨3, 1⟩, none⟩)) ⟨⟨1, 1⟩, none⟩)
        (.before finish [⟨.newline, ⟨5, 1⟩⟩, ⟨.else, ⟨5, 1⟩⟩]), events⟩ := by
  have h := read_chain .default
    ⟨"a", ⟨1, 1⟩, some ⟨⟨2, 1⟩, [⟨.yield, ⟨2, 3⟩⟩], ⟨3, 1⟩,
        ⟨[.yieldBlock ⟨⟨2, 3⟩, none⟩], ⟨.whole, none⟩⟩, by simp, ⟨_, rfl⟩⟩,
      [⟨[⟨3, 1⟩], "b", ⟨3, 1⟩, none⟩], some ⟨[], ⟨4, 1⟩, none⟩⟩
  exact ⟨h.1, h.2 8 .outermost [⟨.newline, ⟨5, 1⟩⟩, ⟨.else, ⟨5, 1⟩⟩] (by decide)
    ⟨nofun, fun _ => by decide⟩⟩

end Pug
