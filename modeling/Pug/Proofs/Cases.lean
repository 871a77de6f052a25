/-
# Cases as lists of branches

Between the indent and the outdent of a case stand line breaks, comments and branches. A branch
is a `when` or the `default`; its body is an indented template, or one production behind a
colon, and a `when` may have none. The branches are read one after the other, so the case has a
node for each of them, in order, and nothing else.

A production behind a colon, and a `when` without a body, end with their line: behind them comes
a line break, or the outdent of the case. The production may go past the line breaks behind it;
these mean nothing in a case.
-/

import Pug.Proofs.Standalone

namespace Pug

/-- A token that begins a branch of a case. -/
inductive BranchToken where
  | when (expr : String)
  | default

namespace BranchToken

/-- The lexeme of a token that begins a branch. -/
def lexeme : BranchToken → Lexeme
  | .when expr => .when expr
  | .default => .default

/-- The expression of a branch. -/
def expr : BranchToken → String
  | .when expr => expr
  | .default => defaultExpr

/-- The node of a branch. -/
def node (x : BranchToken) (loc : Location) (body : Block) : Node := .when x.expr (some body) loc

/-- The derivation of a branch, with those behind it. -/
def derivation (x : BranchToken) (pos : Position) (body : Derivation .expansion)
    (rest : Derivation .branches) : Derivation .branches :=
  match x with
  | .when expr => .when expr pos body rest
  | .default => .default pos body rest

theorem terminal_notMem (x : BranchToken) : x.lexeme.terminal ∉ resumers := by
  cases x <;> simp [lexeme, Lexeme.terminal, resumers]

end BranchToken

/-- What stands in a case. -/
inductive CaseEntry (o : Options) where
  | newline (pos : Position)
  | comment (value : String) (buffered : Bool) (pos : Position)
  | bare (expr : String) (pos : Position)
  | indented (x : BranchToken) (pos : Position) (b : Indented o)
  | colon (x : BranchToken) (pos place : Position) (e : Production o)

variable {o : Options}

namespace CaseEntry

/-- The tokens of an entry. -/
def tokens : CaseEntry o → List Token
  | .newline pos => [⟨.newline, pos⟩]
  | .comment value buffered pos => [⟨.comment value buffered, pos⟩]
  | .bare expr pos => [⟨.when expr, pos⟩]
  | .indented x pos b => ⟨x.lexeme, pos⟩ :: b.tokens
  | .colon x pos place e => ⟨x.lexeme, pos⟩ :: ⟨.colon, place⟩ :: e.ts

/-- The branch that an entry is, if it is one. -/
def nodes : CaseEntry o → List Node
  | .newline _ => []
  | .comment _ _ _ => []
  | .bare expr pos => [.when expr none (o.place pos)]
  | .indented x pos b => [x.node (o.place pos) b.block]
  | .colon x pos place e => [x.node (o.place pos) (e.node.asBody (o.place place))]

/-- The warnings of an entry. -/
def warnings : CaseEntry o → List Warning
  | .indented _ _ b => b.warnings
  | .colon _ _ _ e => e.warnings
  | _ => []

/-- Whether an entry ends with its line. -/
def endsWithLine : CaseEntry o → Bool
  | .bare _ _ => true
  | .colon _ _ _ _ => true
  | _ => false

/-- Whether an entry is a line break. -/
def isNewline : CaseEntry o → Bool
  | .newline _ => true
  | _ => false

/-- Behind each entry that ends with its line comes a line break, if anything. -/
def Spaced : List (CaseEntry o) → Prop
  | [] => True
  | entry :: rest =>
      (entry.endsWithLine = true → ∀ next ∈ rest.head?, next.isNewline = true) ∧ Spaced rest

/-- An entry may be put in the place of another one that ends with its line. -/
theorem Spaced.replace {entry entry' : CaseEntry o} (hline : entry.endsWithLine = true)
    (hnewline : entry.isNewline = false) {before after : List (CaseEntry o)}
    (h : Spaced (before ++ entry :: after)) : Spaced (before ++ entry' :: after) := by
  induction before with
  | nil => exact ⟨fun _ => h.1 hline, h.2⟩
  | cons first before ih =>
    refine ⟨fun hfirst next hnext => ?_, ih h.2⟩
    have hspaced := h.1 hfirst
    cases before with
    | nil => simp [hnewline] at hspaced
    | cons second before => exact hspaced next hnext

theorem Spaced.dropWhile {entries : List (CaseEntry o)} (h : Spaced entries) :
    Spaced (entries.dropWhile isNewline) := by
  induction entries with
  | nil => trivial
  | cons entry rest ih =>
    rw [List.dropWhile_cons]
    split
    · exact ih h.2
    · exact h

/-- Entries begin with line breaks, which mean nothing. -/
theorem exists_newlines (entries : List (CaseEntry o)) :
    ∃ newlines, entries.flatMap tokens =
        newlineTokens newlines ++ (entries.dropWhile isNewline).flatMap tokens ∧
      (entries.dropWhile isNewline).flatMap nodes = entries.flatMap nodes ∧
      (entries.dropWhile isNewline).flatMap warnings = entries.flatMap warnings := by
  induction entries with
  | nil => exact ⟨[], rfl, rfl, rfl⟩
  | cons entry rest ih =>
    cases entry with
    | newline pos =>
      obtain ⟨newlines, htokens, hnodes, hwarnings⟩ := ih
      exact ⟨pos :: newlines, congrArg _ htokens, hnodes, hwarnings⟩
    | _ => exact ⟨[], rfl, rfl, rfl⟩

/-- What is seen at the end of a case. -/
def ending : Lookahead := ⟨.outdent, .outdent⟩

/-- Behind the line breaks comes nothing that was begun before them. -/
theorem exists_ahead (entries : List (CaseEntry o)) :
    ∃ terminal, terminal ∉ resumers ∧
      ending.before ((entries.dropWhile isNewline).flatMap tokens) = ⟨terminal, terminal⟩ := by
  have hhead := List.head?_dropWhile_not isNewline entries
  cases hdrop : entries.dropWhile isNewline with
  | nil => exact ⟨.outdent, by decide, rfl⟩
  | cons entry rest =>
    rw [hdrop] at hhead
    cases entry with
    | newline pos => cases hhead
    | comment value buffered pos => exact ⟨.comment, by decide, rfl⟩
    | bare expr pos => exact ⟨.when, by decide, rfl⟩
    | indented x pos b => exact ⟨x.lexeme.terminal, x.terminal_notMem, by cases x <;> rfl⟩
    | colon x pos place e => exact ⟨x.lexeme.terminal, x.terminal_notMem, by cases x <;> rfl⟩

/-- Entries are read by a derivation up to the outdent of the case. -/
structure Reads (entries : List (CaseEntry o)) (d : Derivation .branches) : Prop where
  tokens_eq : d.tokens = entries.flatMap tokens
  meaning_eq : d.meaning o = entries.flatMap nodes
  warnings_eq : (d.trail o).filterMap Event.warning? = entries.flatMap warnings
  greedy : d.Greedy ending
  lawful : d.Lawful .outermost

/-- A branch is read in front of what is read behind it. -/
theorem Reads.branch {entry : CaseEntry o} {rest : List (CaseEntry o)} {d : Derivation .branches}
    (x : BranchToken) (pos : Position) (body : Derivation .expansion)
    (htokens : (⟨x.lexeme, pos⟩ :: body.tokens) ++ d.tokens = (entry :: rest).flatMap tokens)
    (hmeaning : x.node (o.place pos) (body.meaning o) :: d.meaning o =
      (entry :: rest).flatMap nodes)
    (hwarnings : (body.trail o).filterMap Event.warning? ++
      (d.trail o).filterMap Event.warning? = (entry :: rest).flatMap warnings)
    (hbody : body.Greedy (ending.before d.tokens)) (hlawful : body.Lawful .outermost)
    (hgreedy : d.Greedy ending) (hrest : d.Lawful .outermost) :
    Reads (entry :: rest) (x.derivation pos body d) := by
  rw [← List.filterMap_append] at hwarnings
  cases x <;> exact ⟨htokens, hmeaning, hwarnings, ⟨hbody, hgreedy⟩, hlawful, hrest⟩

theorem Spaced.eq_nil_or_newline {entry : CaseEntry o} {rest : List (CaseEntry o)}
    (h : Spaced (entry :: rest)) (hline : entry.endsWithLine = true) :
    rest = [] ∨ ∃ pos more, rest = .newline pos :: more := by
  match rest with
  | [] => exact .inl rfl
  | next :: more =>
    have hnext : next.isNewline = true := h.1 hline next rfl
    cases next with
    | newline pos => exact .inr ⟨pos, more, rfl⟩
    | _ => cases hnext

/-- **A production behind a colon is read up to the end of its line**, or it goes past the line
breaks there and the case goes on behind them. -/
theorem exists_reads_colon {x : BranchToken} {pos place : Position} (e : Production o)
    {rest : List (CaseEntry o)} (h : Spaced (.colon x pos place e :: rest))
    {d d' : Derivation .branches} (hd : Reads rest d)
    (hd' : Reads (rest.dropWhile isNewline) d') :
    ∃ d, Reads (.colon x pos place e :: rest) d := by
  obtain ⟨c, htokens, hmeaning, hwarnings, hgreedy, hlawful⟩ := e.exists_derivation
  have hends : c.Greedy (ending.before d.tokens) →
      ∃ d, Reads (.colon x pos place e :: rest) d := by
    refine fun hc => ⟨_, Reads.branch x pos (.expandColon place c) ?_ ?_ ?_ hc hlawful hd.greedy
      hd.lawful⟩
    · rw [Derivation.tokens, htokens, hd.tokens_eq]
      rfl
    · rw [Derivation.meaning, hmeaning, hd.meaning_eq]
      rfl
    · rw [Derivation.trail, hwarnings, hd.warnings_eq]
      rfl
  rcases h.eq_nil_or_newline rfl with rfl | ⟨newline, more, hrest⟩
  · rw [hd.tokens_eq] at hends
    exact hends (c.greedy_of_prolongs (.of_closer List.mem_cons_self) hgreedy)
  · obtain ⟨newlines, hnewlines, hnodes, hwarns⟩ := exists_newlines rest
    obtain ⟨terminal, hterminal, hahead⟩ := exists_ahead rest
    have hn : newlines ≠ [] := by
      rintro rfl
      rw [newlineTokens, List.map_nil, List.nil_append] at hnewlines
      rw [← hnewlines, hrest] at hahead
      have hnext : Terminal.newline = terminal := congrArg Lookahead.next hahead
      exact hterminal (hnext ▸ List.mem_cons_self)
    rcases Derivation.separates_expr c hn hterminal hgreedy with hc | ⟨c', habsorbs, hc'⟩
    · refine hends ?_
      rwa [hd.tokens_eq, hnewlines, Lookahead.before_append, hahead,
        Lookahead.before_newlineTokens hn]
    · refine ⟨_, Reads.branch x pos (.expandColon place c') ?_ ?_ ?_ ?_
        (habsorbs.lawful _ hlawful) hd'.greedy hd'.lawful⟩
      · rw [Derivation.tokens, habsorbs.tokens_eq, htokens, hd'.tokens_eq, List.flatMap_cons,
          hnewlines]
        simp [tokens]
      · rw [Derivation.meaning, habsorbs.meaning_eq, hmeaning, hd'.meaning_eq, hnodes]
        rfl
      · rw [Derivation.trail, habsorbs.trail_eq, hwarnings, hd'.warnings_eq, hwarns]
        rfl
      · rwa [hd'.tokens_eq, hahead]

/-- **What stands in a case has a derivation.** The induction is on the number of the entries:
behind a production that goes past line breaks it goes on behind these. -/
theorem exists_reads (entries : List (CaseEntry o)) (h : Spaced entries) :
    ∃ d, Reads entries d := by
  have hend : Terminal.outdent ∉ [.newline, .comment, .when, .default] := by decide
  match entries with
  | [] => exact ⟨.endBranches, rfl, rfl, rfl, hend, trivial⟩
  | entry :: rest =>
    have hdecreases := (List.dropWhile_suffix isNewline (l := rest)).length_le
    obtain ⟨d, hd⟩ := exists_reads rest h.2
    cases entry with
    | newline pos =>
      exact ⟨.branchNewline pos d, congrArg _ hd.tokens_eq, hd.meaning_eq, hd.warnings_eq,
        hd.greedy, hd.lawful⟩
    | comment value buffered pos =>
      exact ⟨.branchComment value buffered pos d, congrArg _ hd.tokens_eq, hd.meaning_eq,
        hd.warnings_eq, hd.greedy, hd.lawful⟩
    | bare expr pos =>
      refine ⟨.fallthrough expr pos d, congrArg _ hd.tokens_eq, congrArg _ hd.meaning_eq,
        hd.warnings_eq, ⟨?_, hd.greedy⟩, hd.lawful⟩
      rw [hd.tokens_eq]
      rcases h.eq_nil_or_newline rfl with rfl | ⟨newline, more, rfl⟩
      · exact List.mem_cons_of_mem _ List.mem_cons_self
      · exact List.mem_cons_self
    | indented x pos b =>
      obtain ⟨block, htokens, hmeaning, hwarnings, hgreedy, hlawful⟩ := b.exists_derivation
      refine ⟨_, Reads.branch x pos (.expandBlock block) ?_ ?_ ?_ (hgreedy _) (hlawful _)
        hd.greedy hd.lawful⟩
      · rw [Derivation.tokens, htokens, hd.tokens_eq]
        rfl
      · rw [Derivation.meaning, hmeaning, hd.meaning_eq]
        rfl
      · rw [Derivation.trail, hwarnings, hd.warnings_eq]
        rfl
    | colon x pos place e =>
      obtain ⟨d', hd'⟩ := exists_reads (rest.dropWhile isNewline) h.2.dropWhile
      exact exists_reads_colon e h hd hd'
termination_by entries.length

end CaseEntry

/-- **A case is read as the list of its branches**, with their warnings. -/
theorem parse_case (expr : String) (pos indent outdent : Position) (entries : List (CaseEntry o))
    (h : CaseEntry.Spaced entries) :
    (∃ rest, (parse o (⟨.case expr, pos⟩ :: ⟨.indent, indent⟩ ::
        (entries.flatMap CaseEntry.tokens ++ [⟨.outdent, outdent⟩]))).outcome =
      .done ⟨[.case expr ⟨entries.flatMap CaseEntry.nodes, o.place indent⟩ (o.place pos)],
        ⟨.whole, o.filename⟩⟩ rest) ∧
    (parse o (⟨.case expr, pos⟩ :: ⟨.indent, indent⟩ ::
        (entries.flatMap CaseEntry.tokens ++ [⟨.outdent, outdent⟩]))).warnings =
      entries.flatMap CaseEntry.warnings := by
  obtain ⟨d, hd⟩ := CaseEntry.exists_reads entries h
  have hparse := parse_single (o := o) (d := .caseOf expr pos indent d outdent) hd.greedy hd.lawful
  rwa [Derivation.tokens, hd.tokens_eq, Derivation.meaning, hd.meaning_eq, Derivation.trail,
    hd.warnings_eq] at hparse

/-- The tokens of a case in which a branch stands between other entries. -/
def caseAround (expr : String) (pos indent outdent : Position) (before after : List (CaseEntry o))
    (branch : List Token) : List Token :=
  [⟨.case expr, pos⟩, ⟨.indent, indent⟩] ++ before.flatMap CaseEntry.tokens ++ branch ++
    after.flatMap CaseEntry.tokens ++ [⟨.outdent, outdent⟩]

/-- A case is read with the node of a branch between those of the other entries. -/
theorem parse_caseAround (expr : String) (pos indent outdent : Position)
    (before after : List (CaseEntry o)) (entry : CaseEntry o)
    (h : CaseEntry.Spaced (before ++ entry :: after)) :
    (∃ rest, (parse o (caseAround expr pos indent outdent before after entry.tokens)).outcome =
      .done ⟨[.case expr ⟨before.flatMap CaseEntry.nodes ++
        (entry.nodes ++ after.flatMap CaseEntry.nodes), o.place indent⟩ (o.place pos)],
        ⟨.whole, o.filename⟩⟩ rest) ∧
    (parse o (caseAround expr pos indent outdent before after entry.tokens)).warnings =
      before.flatMap CaseEntry.warnings ++
        (entry.warnings ++ after.flatMap CaseEntry.warnings) := by
  have hparse := parse_case expr pos indent outdent _ h
  simpa [caseAround] using hparse

end Pug
