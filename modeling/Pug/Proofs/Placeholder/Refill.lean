/-
# One place for another

The place of a mixin's block and a yield are told apart by nothing but their token: a
production begins at either, and nothing goes on behind it. So in a derivation each of them can
be put for the other. The derivation that is got so has the same shape: it is greedy where the
first one is, and in a mixin it is lawful if the first one is.

Which of its places are to be those of a mixin's block is said by their indexes among the tokens
that the derivation is part of.
-/

import Pug.Proofs.Derivation.Alike
import Pug.Proofs.Placeholder.Scope

namespace Pug

open Grammar

/-- The place of a mixin's block, or a yield, at the position of a token that is one of them;
any other token as it is. -/
def Token.refill (inMixin : Bool) (t : Token) : Token :=
  match t.lexeme with
  | .mixinBlock => ⟨if inMixin then .mixinBlock else .yield, t.pos⟩
  | .yield => ⟨if inMixin then .mixinBlock else .yield, t.pos⟩
  | _ => t

/-- Tokens with their places refilled: the token of index `i` is that of a mixin's block if
`f i`. The first one has the index `n`. -/
def refill (f : Nat → Bool) : Nat → List Token → List Token
  | _, [] => []
  | n, t :: ts => t.refill (f n) :: refill f (n + 1) ts

section Tokens

variable (f : Nat → Bool)

@[simp] theorem refill_nil (n : Nat) : refill f n [] = [] := rfl

@[simp] theorem refill_cons (n : Nat) (t : Token) (ts : List Token) :
    refill f n (t :: ts) = t.refill (f n) :: refill f (n + 1) ts := rfl

@[simp] theorem refill_append (n : Nat) (ts us : List Token) :
    refill f n (ts ++ us) = refill f n ts ++ refill f (n + ts.length) us := by
  induction ts generalizing n with
  | nil => rfl
  | cons t ts ih => simp [ih, Nat.add_assoc, Nat.add_comm 1]

@[simp] theorem length_refill (n : Nat) (ts : List Token) :
    (refill f n ts).length = ts.length := by
  induction ts generalizing n with
  | nil => rfl
  | cons t ts ih => simp [ih]

@[simp] theorem refill_eq_nil {n : Nat} {ts : List Token} : refill f n ts = [] ↔ ts = [] := by
  cases ts <;> simp

theorem Token.refill_of_notMem {t : Token} (h : t.terminal ∉ [.mixinBlock, .yield]) (b : Bool) :
    t.refill b = t := by
  rcases t with ⟨l, pos⟩
  cases l <;> first | rfl | simp [Token.terminal, Lexeme.terminal] at h

@[simp] theorem Token.refill_lexeme {l : Lexeme} (h : l.terminal ∉ [.mixinBlock, .yield])
    (pos : Position) (b : Bool) : (⟨l, pos⟩ : Token).refill b = ⟨l, pos⟩ :=
  refill_of_notMem (t := ⟨l, pos⟩) h b

@[simp] theorem Shorthand.refill_token (s : Shorthand) (b : Bool) : s.token.refill b = s.token := by
  cases s <;> rfl

@[simp] theorem Plain.refill_token (p : Plain) (b : Bool) : p.token.refill b = p.token := by
  cases p <;> rfl

@[simp] theorem length_newlineTokens (newlines : List Position) :
    (newlineTokens newlines).length = newlines.length := List.length_map _

/-- **Tokens without any place are as they were.** -/
@[simp] theorem Still.refill_eq {ts : List Token} (h : Still ts) (n : Nat) :
    refill f n ts = ts := by
  induction ts generalizing n with
  | nil => rfl
  | cons t ts ih =>
    rw [still_cons] at h
    have ht : t.terminal ∉ [.mixinBlock, .yield] := by simp_all
    rw [refill_cons, ih h.2, Token.refill_of_notMem ht]

end Tokens

theorem Token.refill_refill (t : Token) (b c : Bool) : (t.refill b).refill c = t.refill c := by
  rcases t with ⟨l, pos⟩
  cases l with
  | mixinBlock | yield => cases b <;> rfl
  | _ => rfl

theorem Token.refill_self (t : Token) : t.refill (t.terminal = .mixinBlock) = t := by
  rcases t with ⟨l, pos⟩
  cases l <;> rfl

/-- **Tokens that are the same up to their places are got by refilling.** -/
theorem refill_eq_of_map {f : Nat → Bool} {n : Nat} {ts us : List Token}
    (hf : ∀ i, f (n + i) = us[i]?.any (·.terminal = .mixinBlock))
    (h : ts.map (Token.refill false) = us.map (Token.refill false)) : refill f n ts = us := by
  induction ts generalizing n us with
  | nil => exact (List.map_eq_nil_iff.1 h.symm).symm
  | cons t ts ih =>
    cases us with
    | nil => cases h
    | cons u us =>
      rw [List.map_cons, List.map_cons, List.cons.injEq] at h
      have hfirst : t.refill (f n) = u := by
        have hn : f n = (u.terminal = .mixinBlock : Bool) := hf 0
        rw [← t.refill_refill false, h.1, u.refill_refill, hn, u.refill_self]
      have hmore : ∀ i, f (n + 1 + i) = us[i]?.any (·.terminal = .mixinBlock) := by
        intro i
        rw [Nat.add_right_comm, Nat.add_assoc, hf (i + 1)]
        rfl
      rw [refill_cons, hfirst, ih hmore h.2]

/-- The terminals of places. -/
def placeTerminals : List Terminal := [.mixinBlock, .yield]

theorem Token.alike_refill (t : Token) (b : Bool) :
    t.terminal.Alike placeTerminals (t.refill b).terminal := by
  rcases t with ⟨l, pos⟩
  cases l with
  | mixinBlock | yield =>
    cases b <;> exact .inr (by simp [refill, Token.terminal, Lexeme.terminal, placeTerminals])
  | _ => exact .inl rfl

/-- **In front of refilled tokens the same is seen.** -/
theorem Lookahead.Alike.before {a b : Lookahead} (h : a.Alike placeTerminals b) (f : Nat → Bool)
    (n : Nat) (ts : List Token) : (a.before ts).Alike placeTerminals (b.before (refill f n ts)) := by
  induction ts generalizing n with
  | nil => exact h
  | cons t ts ih => exact (ih (n + 1)).cons (by decide) (t.alike_refill (f n))

namespace Derivation

/-- A derivation with its places refilled, as its tokens are. The index of its first token is
`n`. -/
def refill (f : Nat → Bool) : {s : Symbol} → Nat → Derivation s → Derivation s
  | _, _, .nil => .nil
  | _, n, .newline pos rest => .newline pos (rest.refill f (n + 1))
  | _, n, .item e rest => .item (e.refill f n) (rest.refill f (n + e.tokens.length))
  | _, n, .block indent items outdent => .block indent (items.refill f (n + 1)) outdent
  | _, _, .noBlock => .noBlock
  | _, n, .someBlock b => .someBlock (b.refill f n)
  | _, _, .noRegion => .noRegion
  | _, n, .someRegion start parts stop => .someRegion start (parts.refill f (n + 1)) stop
  | _, _, .endParts => .endParts
  | _, n, .lineBreak spread pos rest => .lineBreak spread pos (rest.refill f (n + 1))
  | _, n, .part fragment rest =>
      .part (fragment.refill f n) (rest.refill f (n + fragment.tokens.length))
  | _, _, .plain p => .plain p
  | _, n, .interpolated start e stop => .interpolated start (e.refill f (n + 1)) stop
  | _, _, .endHtml => .endHtml
  | _, n, .htmlNewline pos rest => .htmlNewline pos (rest.refill f (n + 1))
  | _, n, .htmlLine value pos rest => .htmlLine value pos (rest.refill f (n + 1))
  | _, n, .htmlBlock b rest => .htmlBlock (b.refill f n) (rest.refill f (n + b.tokens.length))
  | _, _, .noContent => .noContent
  | _, n, .lineRun first rest => .lineRun first (rest.refill f (n + 1))
  | _, _, .lineCode c pos => .lineCode c pos
  | _, n, .colon pos e => .colon pos (e.refill f (n + 1))
  | _, _, .slash pos => .slash pos
  | _, n, .nesting content newlines nested =>
      .nesting (content.refill f n) newlines
        (nested.refill f (n + content.tokens.length + newlines.length))
  | _, n, .textOnly pos content newlines region =>
      .textOnly pos (content.refill f (n + 1)) newlines
        (region.refill f (n + 1 + content.tokens.length + newlines.length))
  | _, n, .expandColon pos e => .expandColon pos (e.refill f (n + 1))
  | _, n, .expandBlock b => .expandBlock (b.refill f n)
  | _, _, .endBranches => .endBranches
  | _, n, .branchNewline pos rest => .branchNewline pos (rest.refill f (n + 1))
  | _, n, .branchComment value buffered pos rest =>
      .branchComment value buffered pos (rest.refill f (n + 1))
  | _, n, .fallthrough expr pos rest => .fallthrough expr pos (rest.refill f (n + 1))
  | _, n, .when expr pos body rest =>
      .when expr pos (body.refill f (n + 1)) (rest.refill f (n + 1 + body.tokens.length))
  | _, n, .default pos body rest =>
      .default pos (body.refill f (n + 1)) (rest.refill f (n + 1 + body.tokens.length))
  | _, _, .endAlternates => .endAlternates
  | _, n, .elseIf newlines test pos nested rest =>
      .elseIf newlines test pos (nested.refill f (n + newlines.length + 1))
        (rest.refill f (n + newlines.length + 1 + nested.tokens.length))
  | _, n, .otherwise newlines pos nested =>
      .otherwise newlines pos (nested.refill f (n + newlines.length + 1))
  | _, _, .filterText name pos group value place => .filterText name pos group value place
  | _, n, .filterNested name pos group inner =>
      .filterNested name pos group (inner.refill f (n + 1 + (Group.tokens? group).length))
  | _, n, .filterRegion name pos group region =>
      .filterRegion name pos group (region.refill f (n + 1 + (Group.tokens? group).length))
  | _, n, .tag name pos head body =>
      .tag name pos head (body.refill f (n + 1 + (head.flatMap HeadItem.tokens).length))
  | _, n, .interpolatedTag expr pos head body =>
      .interpolatedTag expr pos head
        (body.refill f (n + 1 + (head.flatMap HeadItem.tokens).length))
  | _, n, .shorthand first head body =>
      .shorthand first head (body.refill f (n + 1 + (head.flatMap HeadItem.tokens).length))
  | _, n, .call name args pos head body =>
      .call name args pos head (body.refill f (n + 1 + (head.flatMap HeadItem.tokens).length))
  | _, n, .mixin name args pos nested => .mixin name args pos (nested.refill f (n + 1))
  | _, n, .mixinBlock pos => if f n then .mixinBlock pos else .yield pos
  | _, n, .yield pos => if f n then .mixinBlock pos else .yield pos
  | _, n, .namedBlock name mode pos nested =>
      .namedBlock name mode pos (nested.refill f (n + 1))
  | _, _, .doctype value pos => .doctype value pos
  | _, n, .caseOf expr pos indent branches outdent =>
      .caseOf expr pos indent (branches.refill f (n + 2)) outdent
  | _, _, .parent pos path place => .parent pos path place
  | _, n, .inclusion pos filters path place nested =>
      .inclusion pos filters path place
        (nested.refill f (n + 1 + (filters.flatMap FilterToken.tokens).length + 1))
  | _, n, .filter inner => .filter (inner.refill f n)
  | _, n, .comment value buffered pos region =>
      .comment value buffered pos (region.refill f (n + 1))
  | _, n, .dot pos region => .dot pos (region.refill f (n + 1))
  | _, n, .run first rest => .run (first.refill f n) (rest.refill f (n + first.tokens.length))
  | _, n, .html value pos rest => .html value pos (rest.refill f (n + 1))
  | _, n, .each iteration pos body => .each iteration pos (body.refill f (n + 1))
  | _, n, .eachElse iteration pos body place alternate =>
      .eachElse iteration pos (body.refill f (n + 1)) place
        (alternate.refill f (n + 1 + body.tokens.length + 1))
  | _, n, .whileLoop test pos nested => .whileLoop test pos (nested.refill f (n + 1))
  | _, n, .conditional test pos nested rest =>
      .conditional test pos (nested.refill f (n + 1))
        (rest.refill f (n + 1 + nested.tokens.length))
  | _, n, .code c pos nested => .code c pos (nested.refill f (n + 1))
  | _, _, .blockCode pos region => .blockCode pos region

variable (f : Nat → Bool)

/-- **The tokens of a derivation are refilled with it.** -/
@[simp] theorem tokens_refill {s : Symbol} (d : Derivation s) :
    ∀ n, (d.refill f n).tokens = Pug.refill f n d.tokens := by
  induction d with
  | mixinBlock pos | yield pos =>
    intro n
    cases h : f n <;> simp [refill, tokens, Token.refill, h]
  | _ =>
    intro n
    simp [refill, tokens, Lexeme.terminal, *]

/-- In front of a refilled derivation the same is seen. -/
theorem alike_before {a b : Lookahead} {s : Symbol} (d : Derivation s) (n : Nat)
    (h : a.Alike placeTerminals b) :
    (a.before d.tokens).Alike placeTerminals (b.before (d.refill f n).tokens) := by
  rw [tokens_refill]
  exact h.before f n d.tokens

theorem alike_before_newlines {a b : Lookahead} {s : Symbol} (newlines : List Position)
    (d : Derivation s) (n : Nat) (h : a.Alike placeTerminals b) :
    (a.before (newlineTokens newlines ++ d.tokens)).Alike placeTerminals
      (b.before (newlineTokens newlines ++ (d.refill f n).tokens)) := by
  rw [Lookahead.before_append, Lookahead.before_append]
  exact (alike_before f d n h).same _

/-- **A derivation with its places refilled is as greedy as it was.** -/
theorem greedy_refill {s : Symbol} (d : Derivation s) :
    ∀ {a b : Lookahead} (n : Nat), a.Alike placeTerminals b → d.Greedy a →
      (d.refill f n).Greedy b := by
  induction d with
  | nil => exact fun n h hg => h.notMem (by decide) hg
  | item e rest ihe ih => exact fun n h hg => ⟨ihe n (alike_before f rest _ h) hg.1, ih _ h hg.2⟩
  | block indent items outdent ih =>
    exact fun n h hg => ih _ (h.same [⟨.outdent, outdent⟩]) hg
  | noBlock => exact fun n h hg => h.next_ne (by decide) hg
  | noRegion => exact fun n h hg => h.next_ne (by decide) hg
  | someRegion start parts stop ih =>
    exact fun n h hg => ih _ (h.same [⟨.endPipelessText, stop⟩]) hg
  | @endParts layout => exact fun n h hg => h.notMem (by cases layout <;> decide) hg
  | part fragment rest ihf ih =>
    exact fun n h hg => ⟨ihf n (alike_before f rest _ h) hg.1, ih _ h hg.2⟩
  | interpolated start e stop ih =>
    exact fun n h hg => ih _ (h.same [⟨.endInterpolation, stop⟩]) hg
  | endHtml => exact fun n h hg => h.notMem (by decide) hg
  | htmlBlock b rest ihb ih =>
    exact fun n h hg => ⟨ihb n (alike_before f rest _ h) hg.1, ih _ h hg.2⟩
  | noContent => exact fun n h hg => h.mem (by decide) hg
  | nesting content newlines nested ihc ihn =>
    exact fun n h hg =>
      ⟨(alike_before f (.nesting content newlines nested) n h).next_ne (by decide) hg.1,
        ihc n (alike_before_newlines f newlines nested _ h) hg.2.1,
        (alike_before f nested _ h).next_ne (by decide) hg.2.2.1, ihn _ h hg.2.2.2⟩
  | textOnly pos content newlines region ihc ihr =>
    exact fun n h hg => ⟨ihc _ (alike_before_newlines f newlines region _ h) hg.1,
      (alike_before f region _ h).next_ne (by decide) hg.2.1, ihr _ h hg.2.2⟩
  | endBranches => exact fun n h hg => h.notMem (by decide) hg
  | fallthrough expr pos rest ih =>
    exact fun n h hg => ⟨(alike_before f rest _ h).mem (by decide) hg.1, ih _ h hg.2⟩
  | when expr pos body rest ihb ih =>
    exact fun n h hg => ⟨ihb _ (alike_before f rest _ h) hg.1, ih _ h hg.2⟩
  | default pos body rest ihb ih =>
    exact fun n h hg => ⟨ihb _ (alike_before f rest _ h) hg.1, ih _ h hg.2⟩
  | endAlternates => exact fun n h hg => h.past_notMem (by decide) hg
  | elseIf newlines test pos nested rest ihn ih =>
    exact fun n h hg => ⟨ihn _ (alike_before f rest _ h) hg.1, ih _ h hg.2⟩
  | filterRegion name pos group region ih =>
    exact fun n h hg =>
      ⟨fun hnone => (alike_before f region _ h).next_ne (by decide) (hg.1 hnone),
        (alike_before f region _ h).notMem (by decide) hg.2.1, ih _ h hg.2.2⟩
  | tag name pos head body ih =>
    exact fun n h hg => ⟨(alike_before f body _ h).notMem (by decide) hg.1, ih _ h hg.2⟩
  | interpolatedTag expr pos head body ih =>
    exact fun n h hg => ⟨(alike_before f body _ h).notMem (by decide) hg.1, ih _ h hg.2⟩
  | shorthand first head body ih =>
    exact fun n h hg => ⟨(alike_before f body _ h).notMem (by decide) hg.1, ih _ h hg.2⟩
  | call name args pos head body ih =>
    exact fun n h hg => ⟨(alike_before f body _ h).notMem (by decide) hg.1, ih _ h hg.2⟩
  | caseOf expr pos indent branches outdent ih =>
    exact fun n h hg => ih _ (h.same [⟨.outdent, outdent⟩]) hg
  | run first rest ihf ih =>
    exact fun n h hg => ⟨ihf n (alike_before f rest _ h) hg.1, ih _ h hg.2⟩
  | each iteration pos body ih =>
    exact fun n h hg => ⟨ih _ h hg.1, h.next_ne (by decide) hg.2⟩
  | eachElse iteration pos body place alternate ihb iha =>
    exact fun n h hg =>
      ⟨ihb _ ((alike_before f alternate _ h).same [⟨.else, place⟩]) hg.1, iha _ h hg.2⟩
  | conditional test pos nested rest ihn ih =>
    exact fun n h hg => ⟨ihn _ (alike_before f rest _ h) hg.1, ih _ h hg.2⟩
  | blockCode pos region => exact fun n h hg hnone => h.next_ne (by decide) (hg hnone)
  | mixinBlock pos | yield pos =>
    intro a b n h hg
    cases hf : f n <;> simp [refill, Greedy, hf]
  | plain | lineCode | slash | filterText | doctype | parent => exact fun _ _ _ => trivial
  | newline _ _ ih | someBlock _ ih | lineBreak _ _ _ ih | htmlNewline _ _ ih | htmlLine _ _ _ ih
  | lineRun _ _ ih | colon _ _ ih | expandColon _ _ ih | expandBlock _ ih | branchNewline _ _ ih
  | branchComment _ _ _ _ ih | otherwise _ _ _ ih | filterNested _ _ _ _ ih | mixin _ _ _ _ ih
  | namedBlock _ _ _ _ ih | inclusion _ _ _ _ _ ih | filter _ ih | comment _ _ _ _ ih
  | dot _ _ ih | html _ _ _ ih | whileLoop _ _ _ ih | code _ _ _ ih =>
    exact fun n h hg => ih _ h hg

/-- **In a mixin any place may be that of its block.** -/
theorem lawful_refill {s : Symbol} (d : Derivation s) :
    ∀ n, (d.refill f n).Lawful .mixinBody ↔ d.Lawful .mixinBody := by
  induction d with
  | mixinBlock pos | yield pos =>
    intro n
    cases h : f n <;> simp [refill, Lawful, h, Scope.mixinBody]
  | _ =>
    intro n
    simp [refill, Lawful, *]

end Derivation
end Pug
