/-
# Where the block of a mixin has its place

A derivation is lawful outside of every mixin if it is lawful in one, and if each place of a
mixin's block among its tokens is on a level of indents that is in a mixin. So what scope a
production has can be told from the tokens in front of it.

The tokens of a derivation close the levels that they open, and no others. A block that is not
the body of a mixin is never right behind the token of one, since a mixin takes an indent that
comes next.
-/

import Pug.Proofs.Derivation.Greedy
import Pug.Proofs.Survey.Indents

namespace Pug

open Grammar

namespace Indents

@[simp] theorem next_mixin (s : Indents) (name : String) (args : Option String) (pos : Position) :
    s.next ⟨.mixin name args, pos⟩ = ⟨true, s.levels⟩ := rfl

@[simp] theorem next_indent (s : Indents) (pos : Position) :
    s.next ⟨.indent, pos⟩ = ⟨false, s.afterMixin :: s.levels⟩ := rfl

@[simp] theorem next_outdent (s : Indents) (pos : Position) :
    s.next ⟨.outdent, pos⟩ = ⟨false, s.levels.tail⟩ := rfl

@[simp] theorem next_mixinBlock (s : Indents) (pos : Position) :
    s.next ⟨.mixinBlock, pos⟩ = ⟨false, s.levels⟩ := rfl

@[simp] theorem next_yield (s : Indents) (pos : Position) :
    s.next ⟨.yield, pos⟩ = ⟨false, s.levels⟩ := rfl

/-- Every place of a mixin's block among tokens is in a mixin. -/
def Allows (s : Indents) : List Token → Prop
  | [] => True
  | t :: ts => (t.terminal = .mixinBlock → s.inMixin = true) ∧ (s.next t).Allows ts

@[simp] theorem allows_nil (s : Indents) : s.Allows [] := trivial

@[simp] theorem allows_cons (s : Indents) (t : Token) (ts : List Token) :
    s.Allows (t :: ts) ↔
      (t.terminal = .mixinBlock → s.inMixin = true) ∧ (s.next t).Allows ts := Iff.rfl

@[simp] theorem allows_append (s : Indents) (ts us : List Token) :
    s.Allows (ts ++ us) ↔ s.Allows ts ∧ (s.after ts).Allows us := by
  induction ts generalizing s with
  | nil => simp
  | cons t ts ih => simp [ih, and_assoc]

/-- **Each place of a mixin's block is in a mixin**, by the tokens in front of it. -/
theorem inMixin_of_allows {s : Indents} {ts us : List Token} {t : Token}
    (h : s.Allows (ts ++ t :: us)) (ht : t.terminal = .mixinBlock) :
    (s.after ts).inMixin = true :=
  ((s.allows_append ts (t :: us)).1 h).2.1 ht

/-- No block begins behind the token of a mixin. -/
def Rests (s : Indents) (next : Terminal) : Prop := s.afterMixin = true → next ≠ .indent

@[simp] theorem rests_false {levels : List Bool} {next : Terminal} :
    Rests ⟨false, levels⟩ next := nofun

theorem Rests.append {i : Indents} {a : Lookahead} {ts us : List Token}
    (hts : i.Rests ((a.before us).before ts).next → (i.after ts).Rests (a.before us).next)
    (hus : (i.after ts).Rests (a.before us).next → ((i.after ts).after us).Rests a.next)
    (hi : i.Rests (a.before (ts ++ us)).next) : (i.after (ts ++ us)).Rests a.next := by
  rw [Lookahead.before_append] at hi
  rw [after_append]
  exact hus (hts hi)

/-- In front of a token that does not begin a block it makes no difference what is right before. -/
theorem allows_of_rests {i : Indents} {a : Lookahead} {ts : List Token}
    (h : i.Rests (a.before ts).next) : i.Allows ts ↔ Allows ⟨false, i.levels⟩ ts := by
  cases ts with
  | nil => rfl
  | cons t ts =>
    have hnext : i.next t = next ⟨false, i.levels⟩ t := by
      rcases i with ⟨after, levels⟩
      cases after with
      | false => rfl
      | true =>
        have hindent : t.terminal ≠ .indent := h rfl
        unfold next
        split <;> rename_i hterminal
        · exact absurd hterminal hindent
        · rfl
        · rfl
    rw [allows_cons, allows_cons, hnext]
    rfl

end Indents

/-- The terminals of the tokens that change the levels, that a level can be opened behind, or
that are places. -/
abbrev shifters : List Terminal := [.indent, .outdent, .mixin, .mixinBlock, .yield]

/-- Tokens of which none opens or closes a level, is that of a mixin or is a place. -/
def Still (ts : List Token) : Prop := ∀ t ∈ ts, t.terminal ∉ shifters

@[simp] theorem still_nil : Still [] := nofun

@[simp] theorem still_cons (t : Token) (ts : List Token) :
    Still (t :: ts) ↔ t.terminal ∉ shifters ∧ Still ts := List.forall_mem_cons

@[simp] theorem still_append (ts us : List Token) : Still (ts ++ us) ↔ Still ts ∧ Still us :=
  List.forall_mem_append

namespace Still

theorem map {α : Type} (f : α → Token) (h : ∀ a, (f a).terminal ∉ shifters) (as : List α) :
    Still (as.map f) := by
  intro t ht
  obtain ⟨a, -, rfl⟩ := List.mem_map.1 ht
  exact h a

theorem flatMap {α : Type} (f : α → List Token) (h : ∀ a, Still (f a)) (as : List α) :
    Still (as.flatMap f) := by
  intro t ht
  obtain ⟨a, -, ht⟩ := List.mem_flatMap.1 ht
  exact h a t ht

variable {ts : List Token}

theorem next_eq {t : Token} (h : t.terminal ∉ shifters) (i : Indents) :
    i.next t = ⟨false, i.levels⟩ := by
  unfold Indents.next
  generalize t.terminal = terminal at h ⊢
  cases terminal <;> simp at h ⊢

@[simp] theorem next_lexeme {l : Lexeme} (h : l.terminal ∉ shifters) (i : Indents)
    (pos : Position) : i.next ⟨l, pos⟩ = ⟨false, i.levels⟩ :=
  next_eq (t := ⟨l, pos⟩) h i

/-- **Still tokens change no levels.** -/
theorem levels_after (h : Still ts) (i : Indents) : (i.after ts).levels = i.levels := by
  induction ts generalizing i with
  | nil => rfl
  | cons t ts ih =>
    rw [still_cons] at h
    rw [Indents.after_cons, ih h.2, next_eq h.1]

@[simp] theorem after_eq (h : Still ts) (levels : List Bool) :
    Indents.after ⟨false, levels⟩ ts = ⟨false, levels⟩ := by
  induction ts with
  | nil => rfl
  | cons t ts ih =>
    rw [still_cons] at h
    rw [Indents.after_cons, next_eq h.1, ih h.2]

theorem rests {i : Indents} {a : Lookahead} (h : Still ts) (hi : i.Rests (a.before ts).next) :
    (i.after ts).Rests a.next := by
  cases ts with
  | nil => exact hi
  | cons t ts =>
    rw [still_cons] at h
    rw [Indents.after_cons, next_eq h.1, h.2.after_eq]
    exact nofun

@[simp] theorem allows (h : Still ts) (i : Indents) : i.Allows ts := by
  induction ts generalizing i with
  | nil => trivial
  | cons t ts ih =>
    rw [still_cons] at h
    exact ⟨fun ht => absurd ht (by simp_all), ih h.2 _⟩

theorem allows_append (h : Still ts) (levels : List Bool) (us : List Token) :
    Indents.Allows ⟨false, levels⟩ (ts ++ us) ↔ Indents.Allows ⟨false, levels⟩ us := by
  rw [Indents.allows_append, h.after_eq]
  exact and_iff_right (h.allows _)

end Still

theorem Shorthand.still (s : Shorthand) : s.token.terminal ∉ shifters := by
  cases s <;> simp [token, Token.terminal, Lexeme.terminal]

theorem Plain.still (p : Plain) : p.token.terminal ∉ shifters := by
  cases p <;> simp [token, Token.terminal, Lexeme.terminal]

theorem Token.terminal_mk (l : Lexeme) (pos : Position) :
    (⟨l, pos⟩ : Token).terminal = l.terminal := rfl

@[simp] theorem Shorthand.terminal_ne (s : Shorthand) : s.token.terminal ≠ .mixinBlock :=
  fun h => s.still (by simp [h])

@[simp] theorem Plain.terminal_ne (p : Plain) : p.token.terminal ≠ .mixinBlock :=
  fun h => p.still (by simp [h])

@[simp] theorem Shorthand.next_token (s : Shorthand) (i : Indents) :
    i.next s.token = ⟨false, i.levels⟩ := Still.next_eq s.still i

@[simp] theorem Plain.next_token (p : Plain) (i : Indents) :
    i.next p.token = ⟨false, i.levels⟩ := Still.next_eq p.still i

@[simp] theorem Group.still (g : Group) : Still g.tokens := by
  simp [tokens, Token.terminal, Lexeme.terminal, Still.map]

@[simp] theorem Group.still? (g : Option Group) : Still (tokens? g) := by
  cases g <;> simp [tokens?]

@[simp] theorem HeadItem.still (head : List HeadItem) : Still (head.flatMap tokens) := by
  refine .flatMap tokens (fun item => ?_) head
  cases item with
  | shorthand s => simpa [tokens] using s.still
  | andAttributes expr pos => simp [tokens, Token.terminal, Lexeme.terminal]
  | group g => exact g.still

@[simp] theorem FilterToken.still (filters : List FilterToken) :
    Still (filters.flatMap tokens) :=
  .flatMap tokens (fun f => by simp [tokens, Token.terminal, Lexeme.terminal]) filters

@[simp] theorem CodeRegion.still? (region : Option CodeRegion) : Still (tokens? region) := by
  have hpart : ∀ part : CodeToken, part.token.terminal ∉ shifters := by
    intro part
    cases part <;> simp [CodeToken.token, Token.terminal, Lexeme.terminal]
  cases region <;>
    simp [tokens?, tokens, Token.terminal, Lexeme.terminal, Still.map _ hpart]

@[simp] theorem still_newlineTokens (newlines : List Position) : Still (newlineTokens newlines) :=
  .map _ (by simp [Token.terminal, Lexeme.terminal]) newlines

namespace Derivation

/-- **The tokens of a derivation close the levels that they open.** -/
@[simp] theorem levels_after {s : Symbol} (d : Derivation s) :
    ∀ i : Indents, (i.after d.tokens).levels = i.levels := by
  -- Each part leaves the levels as they are; a block and a case close what they open.
  induction d with
  | _ =>
    intro i
    simp [tokens, Lexeme.terminal, Still.next_lexeme, Still.levels_after, *]

/-- A block ends with an outdent. -/
theorem rests_block (b : Derivation .block) (i : Indents) (next : Terminal) :
    (i.after b.tokens).Rests next := by
  cases b with
  | block indent items outdent =>
    rw [tokens, Indents.after_cons, Indents.after_append]
    exact nofun

/-- **No block begins behind a derivation that ends with the token of a mixin**, since the mixin
takes it. -/
theorem rests_after {s : Symbol} (d : Derivation s) :
    ∀ (i : Indents) (a : Lookahead), d.Greedy a → i.Rests (a.before d.tokens).next →
      (i.after d.tokens).Rests a.next := by
  induction d with
  | item e rest ihe ih => exact fun i a hg => .append (ihe i _ hg.1) (ih _ a hg.2)
  | part f rest ihf ih => exact fun i a hg => .append (ihf i _ hg.1) (ih _ a hg.2)
  | htmlBlock b rest ihb ih => exact fun i a hg => .append (ihb i _ hg.1) (ih _ a hg.2)
  | run first rest ihf ih => exact fun i a hg => .append (ihf i _ hg.1) (ih _ a hg.2)
  | nesting content newlines nested ihc ihn =>
    exact fun i a hg => .append (ihc i _ hg.2.1)
      (.append (Still.rests (still_newlineTokens newlines)) (ihn _ a hg.2.2.2))
  | block indent items outdent ih => exact fun i a _ _ => rests_block _ i a.next
  | someBlock b ih => exact fun i a _ _ => rests_block _ i a.next
  | textOnly pos content newlines region ihc ihr =>
    exact fun i a hg _ => Indents.Rests.append (ihc _ _ hg.1)
      (.append (Still.rests (still_newlineTokens newlines)) (ihr _ a hg.2.2)) nofun
  | filter f ih => assumption
  | mixin name args pos nested ih =>
    intro i a hg _
    cases nested with
    | noBlock => exact fun _ => hg
    | someBlock b => exact b.rests_block _ a.next
  | nil | noBlock | noRegion | endParts | endHtml | noContent | endBranches | endAlternates =>
    exact fun _ _ _ hi => hi
  | _ =>
    intro i a hg hi
    simp only [Greedy] at hg
    simp [tokens, Lexeme.terminal, Still.next_lexeme, Still.after_eq, rests_block, *]

/-- **In a mixin every place of a mixin's block is allowed.** -/
theorem allows_of_inMixin {s : Symbol} (d : Derivation s) :
    ∀ i : Indents, i.levels.any id = true → i.Allows d.tokens := by
  -- The levels in front of each part are those in front of the whole, or more.
  induction d with
  | _ =>
    intro i hi
    simp [tokens, Lexeme.terminal, Token.terminal, Indents.inMixin, Still.next_lexeme,
      Still.levels_after, Still.allows, -List.any_eq_true, *]

/-- Behind a derivation, places are allowed by the levels in front of it. -/
theorem allows_tokens_append {s : Symbol} {d : Derivation s} {a : Lookahead} {ts : List Token}
    (hg : d.Greedy (a.before ts)) (levels : List Bool) :
    Indents.Allows ⟨false, levels⟩ (d.tokens ++ ts) ↔
      Indents.Allows ⟨false, levels⟩ d.tokens ∧ Indents.Allows ⟨false, levels⟩ ts := by
  have hrests := d.rests_after ⟨false, levels⟩ _ hg Indents.rests_false
  rw [Indents.allows_append, Indents.allows_of_rests hrests, levels_after]

/-- **Where a mixin's block has its place is told by the levels.** -/
theorem lawful_iff {s : Symbol} (d : Derivation s) :
    ∀ (levels : List Bool) (a : Lookahead), d.Greedy a →
      (d.Lawful ⟨levels.any id⟩ ↔
        d.Lawful .mixinBody ∧ Indents.Allows ⟨false, levels⟩ d.tokens) := by
  induction d with
  | nil | noBlock | noRegion | endParts | endHtml | noContent | endBranches | endAlternates
  | plain | lineCode | slash | filterText | yield | doctype | parent | blockCode =>
    intro levels a hg
    simp [tokens, Lawful, Token.terminal_mk, Lexeme.terminal]
  | mixinBlock pos =>
    intro levels a hg
    simp [tokens, Lawful, Indents.inMixin, Scope.mixinBody, Token.terminal_mk, Lexeme.terminal]
  | newline _ _ ih | someBlock _ ih | someRegion _ _ _ ih | lineBreak _ _ _ ih
  | interpolated _ _ _ ih | htmlNewline _ _ ih | htmlLine _ _ _ ih | lineRun _ _ ih | colon _ _ ih
  | expandColon _ _ ih | expandBlock _ ih | branchNewline _ _ ih | branchComment _ _ _ _ ih
  | otherwise _ _ _ ih | filterNested _ _ _ _ ih | namedBlock _ _ _ _ ih
  | inclusion _ _ _ _ _ ih | filter _ ih | comment _ _ _ _ ih | dot _ _ ih | html _ _ _ ih
  | whileLoop _ _ _ ih =>
    intro levels a hg
    simpa [tokens, Lawful, Token.terminal_mk, Lexeme.terminal] using ih levels _ hg
  | fallthrough _ _ _ ih =>
    intro levels a hg
    simpa [tokens, Lawful, Token.terminal_mk, Lexeme.terminal] using ih levels _ hg.2
  | tag _ _ _ _ ih | interpolatedTag _ _ _ _ ih | shorthand _ _ _ ih | call _ _ _ _ _ ih =>
    intro levels a hg
    simp [tokens, Lawful, Token.terminal_mk, Lexeme.terminal, ih levels _ hg.2, and_assoc]
  | code _ _ _ ih =>
    intro levels a hg
    simp [tokens, Lawful, Token.terminal_mk, Lexeme.terminal, ih levels _ hg, and_assoc]
  | filterRegion _ _ _ _ ih =>
    intro levels a hg
    simpa [tokens, Lawful, Token.terminal_mk, Lexeme.terminal] using ih levels _ hg.2.2
  | each _ _ _ ih =>
    intro levels a hg
    simpa [tokens, Lawful, Token.terminal_mk, Lexeme.terminal] using ih levels _ hg.1
  | block indent items outdent ih =>
    intro levels a hg
    simpa [tokens, Lawful, Token.terminal_mk, Lexeme.terminal] using ih (false :: levels) _ hg
  | caseOf expr pos indent branches outdent ih =>
    intro levels a hg
    simpa [tokens, Lawful, Token.terminal_mk, Lexeme.terminal] using ih (false :: levels) _ hg
  | item _ _ ihe ih | part _ _ ihe ih | htmlBlock _ _ ihe ih | run _ _ ihe ih =>
    intro levels a hg
    rw [tokens, allows_tokens_append hg.1]
    exact (and_congr (ihe levels _ hg.1) (ih levels a hg.2)).trans and_and_and_comm
  | when _ _ _ _ ihe ih | default _ _ _ ihe ih | conditional _ _ _ _ ihe ih
  | elseIf _ _ _ _ _ ihe ih | eachElse _ _ _ _ _ ihe ih =>
    intro levels a hg
    have h := (and_congr (ihe levels _ hg.1) (ih levels a hg.2)).trans and_and_and_comm
    simpa [tokens, Lawful, Token.terminal_mk, Lexeme.terminal, Still.allows_append,
      allows_tokens_append hg.1, -Indents.allows_append] using h
  | nesting content newlines nested ihc ihn =>
    intro levels a hg
    have h := (and_congr (ihc levels _ hg.2.1) (ihn levels a hg.2.2.2)).trans and_and_and_comm
    simpa [tokens, Lawful, Still.allows_append, allows_tokens_append hg.2.1,
      -Indents.allows_append] using h
  | textOnly pos content newlines region ihc ihr =>
    intro levels a hg
    have h := (and_congr (ihc levels _ hg.1) (ihr levels a hg.2.2)).trans and_and_and_comm
    simpa [tokens, Lawful, Token.terminal_mk, Lexeme.terminal, Still.allows_append,
      allows_tokens_append hg.1, -Indents.allows_append] using h
  | mixin name args pos nested ih =>
    -- In the body nothing depends on the levels around it.
    intro levels a hg
    cases nested with
    | noBlock => simp [tokens, Lawful, Token.terminal_mk, Lexeme.terminal]
    | someBlock b =>
      cases b with
      | block indent items outdent =>
        have hitems := items.allows_of_inMixin ⟨false, true :: levels⟩ rfl
        simp [tokens, Lawful, Token.terminal_mk, Lexeme.terminal, hitems]

end Derivation
end Pug
