/-
# Tokens with an element spelled the other way

A scan of tokens spells the same element the other way as a derivation of them does. It has to know
where it stands: in a head a shorthand begins no element, so no name is put in front of it.
-/

import Pug.Proofs.Shorthand.Respelling

namespace Pug
namespace Scan

variable (s : Shorthand) (r : List Token)

/-- What a token is spelled as in a place in front of other tokens: if it begins the element, its
name is put in front of the shorthand or left out. -/
def spelling (place : Place) (t : Token) (ts : List Token) : List Token :=
  if s.begins r (t :: ts) then
    if t.terminal = .tag then [] else if place = .open then [s.div, t] else [t]
  else [t]

/-- Tokens with the element spelled the other way. -/
def respell : Place → List Token → List Token
  | _, [] => []
  | place, t :: ts => spelling s r place t ts ++ respell (place.next t.lexeme) ts

variable {s r}

/-- No element begins with such a token. -/
theorem respell_of_begins {place : Place} {t : Token} {ts : List Token}
    (h : s.begins r (t :: ts) = false) :
    respell s r place (t :: ts) = t :: respell s r (place.next t.lexeme) ts := by
  rw [respell, spelling, h]
  rfl

@[simp] theorem respell_nil (place : Place) : respell s r place [] = [] := rfl

@[simp] theorem respell_cons {place : Place} {l : Lexeme} {pos : Position} {ts : List Token}
    (h : l.terminal ∉ elementTerminals) :
    respell s r place (⟨l, pos⟩ :: ts) = ⟨l, pos⟩ :: respell s r (place.next l) ts :=
  respell_of_begins (Shorthand.begins_of_notMem h)

/-- **In a head a shorthand is left as it is.** -/
@[simp] theorem respell_head_shorthand (first : Shorthand) (ts : List Token) :
    respell s r .head (first.token :: ts) = first.token :: respell s r .head ts := by
  cases first <;> simp [Shorthand.token, respell, spelling, Token.terminal, Lexeme.terminal,
    Place.next]

@[simp] theorem respell_plain (p : Plain) (ts : List Token) :
    respell s r .open (p.token :: ts) = p.token :: respell s r .open ts := by
  cases p <;> simp [Plain.token, Lexeme.terminal, elementTerminals, Place.next]

@[simp] theorem respell_group (place : Place) (g : Group) (ts : List Token) :
    respell s r place (g.tokens ++ ts) = g.tokens ++ respell s r place ts := by
  have hattrs : ∀ attrs : List AttributeToken,
      respell s r place ((attrs.map fun a => ⟨.attribute a.name a.value a.escaped, a.pos⟩) ++
        ⟨.endAttributes, g.stop⟩ :: ts) =
      (attrs.map fun a => ⟨.attribute a.name a.value a.escaped, a.pos⟩) ++
        ⟨.endAttributes, g.stop⟩ :: respell s r place ts := by
    intro attrs
    induction attrs with
    | nil => simp [Lexeme.terminal, elementTerminals, Place.next]
    | cons a attrs ih => simpa [Lexeme.terminal, elementTerminals, Place.next] using ih
  simpa [Group.tokens, Lexeme.terminal, elementTerminals, Place.next] using hattrs g.attrs

@[simp] theorem respell_group? (place : Place) (g : Option Group) (ts : List Token) :
    respell s r place (Group.tokens? g ++ ts) = Group.tokens? g ++ respell s r place ts := by
  cases g with
  | none => rfl
  | some g => exact respell_group place g ts

@[simp] theorem respell_head (head : List HeadItem) (ts : List Token) :
    respell s r .head (head.flatMap HeadItem.tokens ++ ts) =
      head.flatMap HeadItem.tokens ++ respell s r .head ts := by
  induction head with
  | nil => rfl
  | cons item head ih =>
    rw [List.flatMap_cons, List.append_assoc, List.append_assoc, ← ih]
    cases item with
    | shorthand first => exact respell_head_shorthand first _
    | andAttributes expr pos =>
      simp [HeadItem.tokens, Lexeme.terminal, elementTerminals, Place.next]
    | group g => exact respell_group .head g _

@[simp] theorem respell_filters (filters : List FilterToken) (ts : List Token) :
    respell s r .inclusion (filters.flatMap FilterToken.tokens ++ ts) =
      filters.flatMap FilterToken.tokens ++ respell s r .inclusion ts := by
  induction filters with
  | nil => rfl
  | cons f filters ih =>
    rw [List.flatMap_cons, List.append_assoc, List.append_assoc, ← ih]
    simp [FilterToken.tokens, Lexeme.terminal, elementTerminals, Place.next]

@[simp] theorem respell_newlines (newlines : List Position) (ts : List Token) :
    respell s r .open (newlineTokens newlines ++ ts) =
      newlineTokens newlines ++ respell s r .open ts := by
  induction newlines with
  | nil => rfl
  | cons pos newlines ih =>
    simpa [newlineTokens, Lexeme.terminal, elementTerminals, Place.next] using ih

theorem respell_codeTokens (parts : List CodeToken) (ts : List Token) :
    respell s r .open (parts.map CodeToken.token ++ ts) =
      parts.map CodeToken.token ++ respell s r .open ts := by
  induction parts with
  | nil => rfl
  | cons part parts ih =>
    cases part <;>
      simpa [CodeToken.token, Lexeme.terminal, elementTerminals, Place.next] using ih

@[simp] theorem respell_codeRegion (region : Option CodeRegion) (ts : List Token) :
    respell s r .open (CodeRegion.tokens? region ++ ts) =
      CodeRegion.tokens? region ++ respell s r .open ts := by
  cases region with
  | none => rfl
  | some region =>
    simp [CodeRegion.tokens?, CodeRegion.tokens, respell_codeTokens, Lexeme.terminal,
      elementTerminals, Place.next]

/-- Behind a head nothing is spelled in another way than elsewhere, unless what comes next can
belong to the head. -/
theorem respell_behind_head {ts : List Token} (h : (Lookahead.of ts).next ∉ headTerminals) :
    respell s r .head ts = respell s r .open ts := by
  cases ts with
  | nil => rfl
  | cons t ts =>
    rcases t with ⟨l, pos⟩
    have hl : l.terminal ∉ headTerminals := h
    cases l with
    | idName | className | andAttributes | startAttributes | «attribute»
    | endAttributes =>
      simp [Lexeme.terminal, headTerminals, headStarts] at hl
    | _ => simp [respell, spelling, Token.terminal, Lexeme.terminal, elementTerminals, Place.next]

end Scan

namespace Derivation

open Scan

variable {s : Shorthand} {r us : List Token} {closable : Bool} {body : Derivation (.body closable)}

theorem respell_head_body (head : List HeadItem) (hg : body.Greedy (.of us)) :
    Scan.respell s r .head (head.flatMap HeadItem.tokens ++ (body.tokens ++ us)) =
      head.flatMap HeadItem.tokens ++ Scan.respell s r .open (body.tokens ++ us) := by
  have hbody := notMem_headTerminals_of_greedy hg
  rw [← Lookahead.of_append] at hbody
  rw [respell_head, respell_behind_head hbody]

/-- **The shorthand behind a name is the first one of the head,** since no body begins with one. -/
theorem exists_head_of_shorthand {head : List HeadItem} (hg : body.Greedy (.of us))
    (h : head.flatMap HeadItem.tokens ++ (body.tokens ++ us) = s.token :: r) :
    ∃ more, head = .shorthand s :: more := by
  cases head with
  | nil =>
    have hbody := notMem_headStarts_of_greedy hg
    rw [← Lookahead.of_append, show body.tokens ++ us = s.token :: r from h] at hbody
    exact absurd s.terminal_mem_headStarts hbody
  | cons item head =>
    cases item with
    | shorthand first => exact ⟨head, by rw [Shorthand.token_inj (List.cons.inj h).1]⟩
    | andAttributes expr pos => cases s <;> cases h
    | group g => cases s <;> cases h

/-- **A scan of the tokens of a derivation spells it the other way.** -/
theorem respell_tokens {sym : Symbol} (d : Derivation sym) :
    ∀ us : List Token, d.Greedy (.of us) →
      Scan.respell s r .open (d.tokens ++ us) =
        (d.respell s r us).tokens ++ Scan.respell s r .open us := by
  induction d with
  | tag name pos head body ih =>
    rintro us ⟨-, hg⟩
    simp only [tokens, List.cons_append, List.append_assoc, respell, Scan.respell, spelling,
      Place.next, respell_head_body head hg, ih us hg]
    split
    · rename_i hbegins
      obtain ⟨rfl, rfl, hts⟩ := Shorthand.eq_of_begins_tag hbegins
      obtain ⟨more, rfl⟩ := exists_head_of_shorthand hg hts
      -- The scan has left the name out, and goes on in the head in front of the shorthand.
      simp [Token.terminal, Lexeme.terminal, unnamed, tokens, HeadItem.tokens]
    · simp [tokens]
  | shorthand first head body ih =>
    rintro us ⟨-, hg⟩
    have hplace : Place.open.next first.token.lexeme = .head := by cases first <;> rfl
    simp only [tokens, List.cons_append, List.append_assoc, respell, Scan.respell, spelling,
      hplace, respell_head_body head hg, ih us hg]
    split
    · rename_i hbegins
      obtain rfl := Shorthand.eq_of_begins_shorthand hbegins
      simp [first.token_ne_tag, tokens, HeadItem.tokens, Shorthand.div]
    · simp [tokens]
  | interpolatedTag expr pos head body ih =>
    rintro us ⟨-, hg⟩
    simp [tokens, Lexeme.terminal, elementTerminals, Place.next,
      respell_head_body head hg, ih us hg]
  | call name args pos head body ih =>
    rintro us ⟨-, hg⟩
    simp [tokens, Lexeme.terminal, elementTerminals, Place.next,
      respell_head_body head hg, ih us hg]
  | _ =>
    intro us hg
    simp only [Greedy, ← Lookahead.of_append, List.append_assoc, List.cons_append,
      List.nil_append] at hg
    simp [tokens, Lexeme.terminal, elementTerminals, Place.next, *]

end Derivation
end Pug
