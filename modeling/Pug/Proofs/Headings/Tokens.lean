/-
# The headings of tokens

A scan of the tokens of a derivation finds the whole of its headings. The tokens of a
head and of the filters of an include have none, in their places, and a scan behind them
goes on in the place before them. Where a body begins it makes no difference to the scan
that a head was in front, since no token can come there that is told apart by that.
-/

import Pug.Proofs.Headings.Derivation

namespace Pug
namespace Scan

@[simp] theorem headings_nil (o : Options) (place : Place) : headings o place [] = [] := rfl

@[simp] theorem headings_cons (o : Options) (place : Place) (l : Lexeme) (pos : Position)
    (ts : List Token) :
    headings o place (⟨l, pos⟩ :: ts) =
      ((label? o place l ts).map (⟨·, o.place pos⟩)).toList ++ headings o (place.next l) ts :=
  rfl

/-- **Attributes have no headings** and leave a scan where it is. -/
@[simp] theorem headings_group (o : Options) (place : Place) (g : Group) (ts : List Token) :
    headings o place (g.tokens ++ ts) = headings o place ts := by
  have hattrs : ∀ attrs : List AttributeToken,
      headings o place ((attrs.map fun a => ⟨.attribute a.name a.value a.escaped, a.pos⟩) ++
        ⟨.endAttributes, g.stop⟩ :: ts) = headings o place ts := by
    intro attrs
    induction attrs with
    | nil => rfl
    | cons a attrs ih => exact ih
  simpa [Group.tokens, label?, Place.next] using hattrs g.attrs

@[simp] theorem headings_group? (o : Options) (place : Place) (g : Option Group)
    (ts : List Token) : headings o place (Group.tokens? g ++ ts) = headings o place ts := by
  cases g with
  | none => rfl
  | some g => exact headings_group o place g ts

/-- **A head has no headings.** -/
@[simp] theorem headings_head (o : Options) (head : List HeadItem) (ts : List Token) :
    headings o .head (head.flatMap HeadItem.tokens ++ ts) = headings o .head ts := by
  induction head with
  | nil => rfl
  | cons item head ih =>
    rw [List.flatMap_cons, List.append_assoc]
    cases item with
    | shorthand s => cases s <;> exact ih
    | andAttributes expr pos => exact ih
    | group g => exact (headings_group o .head g _).trans ih

/-- **The filters of an include have no headings.** -/
@[simp] theorem headings_filters (o : Options) (filters : List FilterToken) (ts : List Token) :
    headings o .inclusion (filters.flatMap FilterToken.tokens ++ ts) =
      headings o .inclusion ts := by
  induction filters with
  | nil => rfl
  | cons f filters ih =>
    rw [List.flatMap_cons, List.append_assoc]
    exact (headings_group? o .inclusion f.group _).trans ih

/-- **Line breaks have no headings.** -/
@[simp] theorem headings_newlines (o : Options) (newlines : List Position) (ts : List Token) :
    headings o .open (newlineTokens newlines ++ ts) = headings o .open ts := by
  induction newlines with
  | nil => rfl
  | cons pos newlines ih => exact ih

/-- The first path behind attributes is the first one behind the group. -/
theorem path?_group? (o : Options) (g : Option Group) (ts : List Token) :
    path? o (Group.tokens? g ++ ts) = path? o ts := by
  cases g with
  | none => rfl
  | some g =>
    have hattrs : ∀ attrs : List AttributeToken,
        path? o ((attrs.map fun a => ⟨.attribute a.name a.value a.escaped, a.pos⟩) ++
          ⟨.endAttributes, g.stop⟩ :: ts) = path? o ts := by
      intro attrs
      induction attrs with
      | nil => rfl
      | cons a attrs ih => exact ih
    simpa [Group.tokens?, Group.tokens, path?] using hattrs g.attrs

/-- **The path of an include is the first one behind its filters.** -/
theorem path?_filters (o : Options) (filters : List FilterToken) (ts : List Token) :
    path? o (filters.flatMap FilterToken.tokens ++ ts) = path? o ts := by
  induction filters with
  | nil => rfl
  | cons f filters ih =>
    rw [List.flatMap_cons, List.append_assoc]
    exact (path?_group? o f.group _).trans ih

/-- The parts of a region of code have no headings. -/
theorem headings_codeTokens (o : Options) (parts : List CodeToken) (ts : List Token) :
    headings o .open (parts.map CodeToken.token ++ ts) = headings o .open ts := by
  induction parts with
  | nil => rfl
  | cons part parts ih => cases part <;> exact ih

@[simp] theorem headings_codeRegion (o : Options) (region : Option CodeRegion)
    (ts : List Token) :
    headings o .open (CodeRegion.tokens? region ++ ts) = headings o .open ts := by
  cases region with
  | none => rfl
  | some r =>
    simp only [CodeRegion.tokens?, CodeRegion.tokens, List.cons_append, List.append_assoc]
    exact headings_codeTokens o r.parts _

/-- **The text of a region of code is that of the region that comes next.** -/
theorem regionText_tokens? {region : Option CodeRegion} {ts : List Token}
    (h : region.isNone → (Lookahead.of ts).next ≠ .startPipelessText) :
    regionText (CodeRegion.tokens? region ++ ts) = CodeRegion.source? region := by
  cases region with
  | none =>
    cases ts with
    | nil => rfl
    | cons t ts =>
      rcases t with ⟨l, pos⟩
      cases l with
      | startPipelessText => exact absurd rfl (h rfl)
      | _ => rfl
  | some r =>
    have hparts : ∀ part ∈ r.parts.map CodeToken.token,
        (decide (part.lexeme ≠ .endPipelessText)) = true := by
      intro t ht
      obtain ⟨part, -, rfl⟩ := List.mem_map.1 ht
      cases part <;> rfl
    have hlines : lineText ∘ CodeToken.token = CodeToken.source := by
      funext part
      cases part <;> rfl
    simp only [CodeRegion.tokens?, CodeRegion.tokens, List.cons_append, List.append_assoc,
      regionText, List.takeWhile_append_of_pos hparts]
    simp [CodeRegion.source?, hlines]

/-- The terminals that a scan tells apart, or is not moved by, in a head. -/
def headTerminals : List Terminal := headStarts ++ [.attribute, .endAttributes]

/-- A scan is the same behind a head and elsewhere, unless what comes next can belong to
a head. -/
theorem headings_behind_head (o : Options) {ts : List Token}
    (h : (Lookahead.of ts).next ∉ headTerminals) : headings o .head ts = headings o .open ts := by
  cases ts with
  | nil => rfl
  | cons t ts =>
    rcases t with ⟨l, pos⟩
    have hl : l.terminal ∉ headTerminals := h
    cases l <;> first | rfl | simp [Lexeme.terminal, headTerminals, headStarts] at hl

end Scan

namespace Derivation

open Scan

/-- The terminals with which a body begins, or what comes behind one that is empty. -/
def bodyStarts : List Terminal :=
  contentFollows ++ [.dot, .text, .interpolatedCode, .code, .colon, .slash]

/-- **What is seen in front of a body** is not what a head goes on with. -/
theorem next_body {closable : Bool} {body : Derivation (.body closable)} {a : Lookahead}
    (hg : body.Greedy a) : (a.before body.tokens).next ∈ bodyStarts := by
  cases body with
  | textOnly pos content newlines region =>
    show Terminal.dot ∈ _
    decide
  | nesting content newlines nested =>
    cases content with
    | noContent =>
      have hfollows : (a.before (newlineTokens newlines ++ nested.tokens)).next ∈
          contentFollows := hg.2.1
      exact List.mem_append_left _ hfollows
    | lineRun first rest =>
      show first.token.terminal ∈ _
      cases first <;>
        simp [Plain.token, Token.terminal, Lexeme.terminal, bodyStarts, contentFollows]
    | lineCode c pos =>
      show Terminal.code ∈ _
      decide
    | colon pos e =>
      show Terminal.colon ∈ _
      decide
    | slash pos =>
      show Terminal.slash ∈ _
      decide

theorem notMem_headTerminals_of_greedy {closable : Bool} {body : Derivation (.body closable)}
    {a : Lookahead} (hg : body.Greedy a) : (a.before body.tokens).next ∉ headTerminals :=
  (by decide : ∀ t ∈ bodyStarts, t ∉ headTerminals) _ (next_body hg)

theorem notMem_headStarts_of_greedy {closable : Bool} {body : Derivation (.body closable)}
    {a : Lookahead} (hg : body.Greedy a) : (a.before body.tokens).next ∉ headStarts :=
  (by decide : ∀ t ∈ bodyStarts, t ∉ headStarts) _ (next_body hg)

/-- A scan behind a head finds what a scan of the body finds elsewhere. -/
theorem headings_head_body (o : Options) (head : List HeadItem) {closable : Bool}
    {body : Derivation (.body closable)} {rest : List Token} (hg : body.Greedy (.of rest)) :
    Scan.headings o .head (head.flatMap HeadItem.tokens ++ (body.tokens ++ rest)) =
      Scan.headings o .open (body.tokens ++ rest) := by
  have hbody := notMem_headTerminals_of_greedy hg
  rw [← Lookahead.of_append] at hbody
  rw [headings_head, headings_behind_head o hbody]

/-- **A scan of the tokens of a derivation finds the whole of its headings.** -/
theorem headings_tokens (o : Options) {s : Symbol} (d : Derivation s) :
    ∀ rest : List Token, d.Greedy (.of rest) →
      Scan.headings o .open (d.tokens ++ rest) =
        d.headings o true ++ Scan.headings o .open rest := by
  induction d with
  | tag name pos head body ih =>
    rintro rest ⟨-, hg⟩
    simp [tokens, headings, label?, Place.next, headings_head_body o head hg, ih rest hg]
  | interpolatedTag expr pos head body ih =>
    rintro rest ⟨-, hg⟩
    simp [tokens, headings, label?, Place.next, headings_head_body o head hg, ih rest hg]
  | shorthand first head body ih =>
    rintro rest ⟨-, hg⟩
    cases first <;>
      simp [tokens, headings, Shorthand.token, Shorthand.pos, label?, Place.next,
        headings_head_body o head hg, ih rest hg]
  | call name args pos head body ih =>
    rintro rest ⟨-, hg⟩
    simp [tokens, headings, label?, Place.next, headings_head_body o head hg, ih rest hg]
  | plain p =>
    intro rest hg
    cases p <;> simp [tokens, headings, Plain.token, Plain.headings, label?, Place.next]
  | lineRun first parts ih =>
    intro rest hg
    cases first <;>
      simp [tokens, headings, Plain.token, Plain.headings, label?, Place.next, ih rest hg]
  | parent pos path place =>
    intro rest hg
    simp [tokens, headings, label?, Place.next, path?]
  | inclusion pos filters path place nested ih =>
    intro rest hg
    simp [tokens, headings, label?, Place.next, path?_filters, path?, ih rest hg]
  | blockCode pos region =>
    intro rest hg
    simp [tokens, headings, label?, Place.next, regionText_tokens? hg]
  | _ =>
    intro rest hg
    simp only [Greedy, ← Lookahead.of_append, List.append_assoc, List.cons_append,
      List.nil_append] at hg
    simp [tokens, headings, label?, Place.next, *]

end Derivation
end Pug
