/-
# Shorthands for elements

An id or a class where a production begins is short for an element with the name `div` in whose
head it stands. The name may be written in front of it: then the template is read to the same tree
with the same warnings, or it is refused as it was. A production begins at the start of a template
and behind a line break, an indent, an outdent, a colon or the start of an interpolation.
-/

import Pug.Proofs.Composition
import Pug.Proofs.Coupling.Template
import Pug.Proofs.Shorthand.Tokens

namespace Pug

/-- The terminals behind which a production may begin. -/
def exprLeads : List Terminal := [.newline, .indent, .outdent, .colon, .startInterpolation]

/-- A token of an id or of a class is that of a shorthand. -/
theorem Token.exists_shorthand {t : Token} (h : t.terminal = .idName ∨ t.terminal = .className) :
    ∃ s : Shorthand, s.token = t := by
  rcases t with ⟨l, pos⟩
  cases l with
  | idName value => exact ⟨.idName value pos, rfl⟩
  | className value => exact ⟨.className value pos, rfl⟩
  | _ => exact absurd h (by simp [terminal, Lexeme.terminal])

namespace Scan

variable {s : Shorthand} {r p ts : List Token} {place : Place}

theorem length_of_begins (h : s.begins r ts = true) :
    r.length < ts.length ∧ ts.length ≤ r.length + 2 := by
  rcases Bool.or_eq_true_iff.1 h with h | h <;>
  · rw [of_decide_eq_true h]
    simp only [List.length_cons]
    omega

/-- **Behind the element nothing is spelled in another way.** -/
theorem respell_of_length_le (h : ts.length ≤ r.length) : respell s r place ts = ts := by
  induction ts generalizing place with
  | nil => rfl
  | cons t ts ih =>
    have hbegins : s.begins r (t :: ts) = false :=
      Bool.eq_false_iff.2 fun hbegins => Nat.not_lt_of_le h (length_of_begins hbegins).1
    rw [respell_of_begins hbegins, ih (Nat.le_of_succ_le h)]

/-- **Nor is it in front of it.** -/
theorem exists_respell_append (h : r.length + 2 ≤ ts.length) (p : List Token) (place : Place) :
    ∃ place', respell s r place (p ++ ts) = p ++ respell s r place' ts := by
  induction p generalizing place with
  | nil => exact ⟨place, rfl⟩
  | cons t p ih =>
    have hbegins : s.begins r (t :: (p ++ ts)) = false := by
      refine Bool.eq_false_iff.2 fun hbegins => ?_
      have hlen := (length_of_begins hbegins).2
      rw [List.length_cons, List.length_append] at hlen
      omega
    obtain ⟨place', hplace⟩ := ih (place.next t.lexeme)
    exact ⟨place', by rw [List.cons_append, respell_of_begins hbegins, hplace]; rfl⟩

/-- Where a production may begin, a scan stands in no head. -/
theorem respell_append (hp : ∀ t ∈ p.getLast?, t.terminal ∈ exprLeads)
    (h : r.length + 1 ≤ ts.length) : respell s r .open (p ++ ts) = p ++ respell s r .open ts := by
  rcases List.eq_nil_or_concat p with rfl | ⟨q, ⟨l, pos⟩, rfl⟩
  · rfl
  · -- The last token in front begins no element, and behind it a scan is in no head.
    have hl : l.terminal ∈ exprLeads := hp ⟨l, pos⟩ (by simp)
    have hnot : l.terminal ∉ elementTerminals :=
      (by decide : ∀ terminal ∈ exprLeads, terminal ∉ elementTerminals) _ hl
    have hopen : ∀ place : Place, place.next l = .open := by
      intro place
      cases l <;> first | rfl | simp [Lexeme.terminal, exprLeads] at hl
    have hlen : r.length + 2 ≤ ((⟨l, pos⟩ : Token) :: ts).length := Nat.succ_le_succ h
    obtain ⟨place, hplace⟩ := exists_respell_append (s := s) hlen q .open
    simp only [List.concat_eq_append, List.append_assoc, List.singleton_append, hplace,
      respell_cons hnot, hopen]

/-- **The name is put in front of the shorthand.** -/
theorem respell_unnamed (hp : ∀ t ∈ p.getLast?, t.terminal ∈ exprLeads) :
    respell s r .open (p ++ s.token :: r) = p ++ s.div :: s.token :: r := by
  rw [respell_append hp (Nat.le_refl _), respell, respell_of_length_le (Nat.le_refl _)]
  simp [spelling, Shorthand.begins, s.token_ne_tag]

/-- **Or it is left out.** -/
theorem respell_named (hp : ∀ t ∈ p.getLast?, t.terminal ∈ exprLeads) :
    respell s r .open (p ++ s.div :: s.token :: r) = p ++ s.token :: r := by
  have hhead : Place.open.next s.div.lexeme = .head := rfl
  rw [respell_append hp (Nat.le_succ _), respell, hhead, respell_head_shorthand,
    respell_of_length_le (Nat.le_refl _)]
  simp [spelling, Shorthand.begins, Shorthand.div, Token.terminal, Lexeme.terminal]

end Scan

/-- What comes behind the end of the stream is none of the tokens in front of it. -/
theorem beforeEos_append_of_not_eosFree {us : List Token} (hus : ¬ EosFree us)
    (rest : List Token) : beforeEos (us ++ rest) = beforeEos us := by
  induction us with
  | nil => exact absurd eosFree_nil hus
  | cons t us ih =>
    by_cases ht : t.lexeme = .eos
    · simp [beforeEos, ht]
    · have hmore : ¬ EosFree us := fun h => hus ((eosFree_cons t us).2 ⟨ht, h⟩)
      simpa [beforeEos, ht] using ih hmore

/-- What is read of the second input is what is read of the first one, or this with an element
spelled the other way. -/
def Respelled (s : Shorthand) (r ts ts' : List Token) : Prop :=
  beforeEos ts' = beforeEos ts ∨ beforeEos ts' = Scan.respell s r .open (beforeEos ts)

section Respelled

variable {o : Options} {s : Shorthand} {p r ts ts' : List Token} {tree : Block}

/-- **A derivation of the first input is one of the second one, or it can be spelled so.** -/
theorem Respelled.exists_reads (h : Respelled s r ts ts') {d : Derivation .items}
    (hd : d.Reads ts) : ∃ d' : Derivation .items, d'.Reads ts' ∧ d'.meaning o = d.meaning o ∧
      (d'.trail o).filterMap Event.warning? = (d.trail o).filterMap Event.warning? := by
  rcases h with h | h
  · exact ⟨d, ⟨hd.tokens_eq.trans h.symm, hd.greedy, hd.lawful⟩, rfl, rfl⟩
  · have htokens := d.respell_tokens (s := s) (r := r) [] hd.greedy
    rw [List.append_nil, Scan.respell_nil, List.append_nil, hd.tokens_eq, ← h] at htokens
    exact ⟨d.respell s r [], ⟨htokens.symm, d.greedy_respell [] .rfl hd.greedy,
      (d.lawful_respell [] .outermost).2 hd.lawful⟩, d.meaning_respell o [],
      d.warnings_respell o []⟩

/-- **So the second input is read as the first one is.** -/
theorem Respelled.same_reading (h : Respelled s r ts ts')
    (hverdict : (parse o ts).verdict? = some (.ok tree)) :
    (parse o ts').verdict? = some (.ok tree) ∧ (parse o ts').warnings = (parse o ts).warnings := by
  obtain ⟨rest, hdone⟩ := Run.exists_done hverdict
  obtain ⟨d, hd⟩ := exists_derivation_of_parse hdone
  obtain ⟨d', hd', hmeaning, hwarnings⟩ := h.exists_reads (o := o) hd
  constructor
  · obtain ⟨rest', hrun⟩ := parse_of_derivation o hd'
    rw [tree_eq_of_reads hdone hd, ← hmeaning, hrun]
    rfl
  · rw [warnings_of_reads hd, warnings_of_reads hd', hwarnings]

/-- **The inputs with the name and without it** are each the other one with the element spelled the
other way. -/
theorem respelled_shorthand (hp : ∀ t ∈ p.getLast?, t.terminal ∈ exprLeads) (s : Shorthand)
    (r : List Token) :
    Respelled s (beforeEos r) (p ++ s.token :: r) (p ++ s.div :: s.token :: r) ∧
      Respelled s (beforeEos r) (p ++ s.div :: s.token :: r) (p ++ s.token :: r) := by
  -- If the end of the stream is in front, neither the name nor the shorthand is read.
  by_cases hfree : EosFree p
  · have hunnamed : beforeEos (p ++ s.token :: r) = p ++ s.token :: beforeEos r :=
      beforeEos_append_cons hfree s.token_ne_eos
    have hnamed : beforeEos (p ++ s.div :: s.token :: r) =
        p ++ s.div :: s.token :: beforeEos r := by
      rw [beforeEos_append_of_eosFree hfree]
      simp [beforeEos, Shorthand.div]
    refine ⟨.inr ?_, .inr ?_⟩
    · rw [hunnamed, hnamed, Scan.respell_unnamed hp]
    · rw [hunnamed, hnamed, Scan.respell_named hp]
  · have hsame : ∀ us us', beforeEos (p ++ us') = beforeEos (p ++ us) := fun us us' => by
      rw [beforeEos_append_of_not_eosFree hfree, beforeEos_append_of_not_eosFree hfree]
    exact ⟨.inl (hsame _ _), .inl (hsame _ _)⟩

end Respelled

/-- **A shorthand where a production begins is an element with the name `div`.** Whatever comes in
front and behind, the template is read to the same tree and with the same warnings if this name is
put in front of the shorthand, at its position, and it is refused if it was refused. -/
theorem shorthand_implies_div (o : Options) {p : List Token}
    (hp : ∀ t ∈ p.getLast?, t.terminal ∈ exprLeads) {t : Token}
    (ht : t.terminal = .idName ∨ t.terminal = .className) (r : List Token) :
    ((∃ tree, (parse o (p ++ [t] ++ r)).verdict? = some (.ok tree)) ↔
      ∃ tree, (parse o (p ++ [⟨.tag "div", t.pos⟩, t] ++ r)).verdict? = some (.ok tree)) ∧
    ∀ tree, (parse o (p ++ [t] ++ r)).verdict? = some (.ok tree) →
      (parse o (p ++ [⟨.tag "div", t.pos⟩, t] ++ r)).verdict? = some (.ok tree) ∧
      (parse o (p ++ [⟨.tag "div", t.pos⟩, t] ++ r)).warnings =
        (parse o (p ++ [t] ++ r)).warnings := by
  obtain ⟨s, rfl⟩ := Token.exists_shorthand ht
  obtain ⟨hnamed, hunnamed⟩ := respelled_shorthand hp s r
  have hshort : p ++ [s.token] ++ r = p ++ s.token :: r := List.append_assoc p [s.token] r
  have hlong : p ++ [⟨.tag "div", s.token.pos⟩, s.token] ++ r = p ++ s.div :: s.token :: r :=
    List.append_assoc p [s.div, s.token] r
  rw [hshort, hlong]
  exact ⟨⟨fun ⟨tree, h⟩ => ⟨tree, (hnamed.same_reading h).1⟩,
    fun ⟨tree, h⟩ => ⟨tree, (hunnamed.same_reading h).1⟩⟩, fun tree h => hnamed.same_reading h⟩

/-- The item `li: .note` is read as `li: div.note` is. -/
theorem shorthand_in_expansion :
    (parse .default ([⟨.tag "li", ⟨1, 1⟩⟩, ⟨.colon, ⟨1, 3⟩⟩] ++
        [⟨.tag "div", ⟨1, 5⟩⟩, ⟨.className "note", ⟨1, 5⟩⟩] ++ [])).verdict? =
      some (.ok ⟨[.tag "li" false false false .empty
        ⟨[.tag "div" false false false ⟨[⟨"class", "note", false, ⟨⟨1, 5⟩, none⟩⟩], []⟩
          ⟨[], ⟨⟨1, 5⟩, none⟩⟩ ⟨⟨1, 5⟩, none⟩], ⟨⟨1, 3⟩, none⟩⟩ ⟨⟨1, 1⟩, none⟩],
        ⟨.whole, none⟩⟩) := by
  have h := shorthand_implies_div .default (p := [⟨.tag "li", ⟨1, 1⟩⟩, ⟨.colon, ⟨1, 3⟩⟩])
    (by decide) (t := ⟨.className "note", ⟨1, 5⟩⟩) (.inr rfl) []
  exact (h.2 _ (by rfl)).1

end Pug
