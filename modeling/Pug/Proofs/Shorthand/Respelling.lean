/-
# Elements with and without a name

A production that begins with a shorthand is an element with the name `div`, at the head of which
the shorthand stands. So in a derivation such an element may be spelled with the name in front of
the shorthand, or without it: it means the same, it is lawful where it was, and it is greedy where
it was, since a production may begin with either token. Both spellings are told apart by nothing but
the name.

Which element is to be spelled the other way is said by the tokens from there on: they are those of
one shorthand and what follows it, with or without the name in front.
-/

import Pug.Proofs.Derivation.Alike
import Pug.Proofs.Headings.Tokens

namespace Pug

/-- The terminals with which an element with a name and one without it begin. -/
def elementTerminals : List Terminal := [.tag, .idName, .className]

namespace Shorthand

/-- The name that a shorthand implies, where it stands. -/
def div (s : Shorthand) : Token := ⟨.tag "div", s.pos⟩

variable (s : Shorthand) (r : List Token)

/-- Whether tokens are those of a shorthand and `r` behind it, with or without the name in front. -/
def begins (ts : List Token) : Bool := ts = s.token :: r || ts = s.div :: s.token :: r

variable {s r} {t : Token} {ts : List Token}

theorem token_inj {s s' : Shorthand} (h : s.token = s'.token) : s = s' := by
  cases s <;> cases s' <;> cases h <;> rfl

theorem terminal_mem (s : Shorthand) : s.token.terminal ∈ elementTerminals := by
  cases s <;> simp [token, Token.terminal, Lexeme.terminal, elementTerminals]

theorem token_ne_tag (s : Shorthand) : s.token.terminal ≠ .tag := by
  cases s <;> exact nofun

/-- Tokens that are those of the shorthand begin with it or with the name. -/
theorem eq_of_begins (h : s.begins r (t :: ts) = true) :
    t = s.token ∧ ts = r ∨ t = s.div ∧ ts = s.token :: r := by
  simpa [begins] using h

@[simp] theorem begins_of_notMem (h : t.terminal ∉ elementTerminals) :
    s.begins r (t :: ts) = false := by
  refine Bool.eq_false_iff.2 fun hbegins => ?_
  rcases eq_of_begins hbegins with ⟨rfl, -⟩ | ⟨rfl, -⟩
  · exact h s.terminal_mem
  · exact h (by simp [div, Token.terminal, Lexeme.terminal, elementTerminals])

/-- An element with a name that is to be spelled without it is a `div`, and the shorthand stands
next to the name. -/
theorem eq_of_begins_tag {name : String} {pos : Position}
    (h : s.begins r (⟨.tag name, pos⟩ :: ts) = true) :
    name = "div" ∧ pos = s.pos ∧ ts = s.token :: r := by
  rcases eq_of_begins h with ⟨ht, -⟩ | ⟨ht, hts⟩
  · cases s <;> cases ht
  · cases ht
    exact ⟨rfl, rfl, hts⟩

/-- An element without a name that is to be spelled with one is the shorthand's. -/
theorem eq_of_begins_shorthand {first : Shorthand} (h : s.begins r (first.token :: ts) = true) :
    first = s := by
  rcases eq_of_begins h with ⟨hfirst, -⟩ | ⟨hfirst, -⟩
  · exact token_inj hfirst
  · cases first <;> cases hfirst

end Shorthand

/-- In front of an element the same is seen, with a name and without one. -/
theorem Lookahead.alike_element {a b : Lookahead} {t u : Token} {ts us : List Token}
    (ht : t.terminal ∈ elementTerminals) (hu : u.terminal ∈ elementTerminals) :
    Alike elementTerminals (a.before (t :: ts)) (b.before (u :: us)) := by
  have hline : ∀ t : Token, t.terminal ∈ elementTerminals → t.isNewline = false := by
    intro t ht
    refine decide_eq_false fun hnewline => ?_
    rw [hnewline] at ht
    exact absurd ht (by decide)
  refine ⟨.inr ⟨ht, hu⟩, ?_⟩
  simpa [hline t ht, hline u hu] using .inr ⟨ht, hu⟩

namespace Derivation

variable (s : Shorthand) (r : List Token)

/-- An element with a name, without it if its head begins with a shorthand. -/
def unnamed (name : String) (pos : Position) :
    List HeadItem → Derivation (.body true) → Derivation .expr
  | .shorthand first :: head, body => .shorthand first head body
  | head, body => .tag name pos head body

/-- A derivation in front of the tokens `us`, with one element spelled the other way. -/
@[simp] def respell : {sym : Symbol} → List Token → Derivation sym → Derivation sym
  | _, _, .nil => .nil
  | _, us, .newline pos rest => .newline pos (rest.respell us)
  | _, us, .item e rest => .item (e.respell (rest.tokens ++ us)) (rest.respell us)
  | _, us, .block indent items outdent =>
      .block indent (items.respell (⟨.outdent, outdent⟩ :: us)) outdent
  | _, _, .noBlock => .noBlock
  | _, us, .someBlock b => .someBlock (b.respell us)
  | _, _, .noRegion => .noRegion
  | _, us, .someRegion start parts stop =>
      .someRegion start (parts.respell (⟨.endPipelessText, stop⟩ :: us)) stop
  | _, _, .endParts => .endParts
  | _, us, .lineBreak spread pos rest => .lineBreak spread pos (rest.respell us)
  | _, us, .part fragment rest => .part (fragment.respell (rest.tokens ++ us)) (rest.respell us)
  | _, _, .plain p => .plain p
  | _, us, .interpolated start e stop =>
      .interpolated start (e.respell (⟨.endInterpolation, stop⟩ :: us)) stop
  | _, _, .endHtml => .endHtml
  | _, us, .htmlNewline pos rest => .htmlNewline pos (rest.respell us)
  | _, us, .htmlLine value pos rest => .htmlLine value pos (rest.respell us)
  | _, us, .htmlBlock b rest => .htmlBlock (b.respell (rest.tokens ++ us)) (rest.respell us)
  | _, _, .noContent => .noContent
  | _, us, .lineRun first rest => .lineRun first (rest.respell us)
  | _, _, .lineCode c pos => .lineCode c pos
  | _, us, .colon pos e => .colon pos (e.respell us)
  | _, _, .slash pos => .slash pos
  | _, us, .nesting content newlines nested =>
      .nesting (content.respell (newlineTokens newlines ++ (nested.tokens ++ us))) newlines
        (nested.respell us)
  | _, us, .textOnly pos content newlines region =>
      .textOnly pos (content.respell (newlineTokens newlines ++ (region.tokens ++ us))) newlines
        (region.respell us)
  | _, us, .expandColon pos e => .expandColon pos (e.respell us)
  | _, us, .expandBlock b => .expandBlock (b.respell us)
  | _, _, .endBranches => .endBranches
  | _, us, .branchNewline pos rest => .branchNewline pos (rest.respell us)
  | _, us, .branchComment value buffered pos rest =>
      .branchComment value buffered pos (rest.respell us)
  | _, us, .fallthrough expr pos rest => .fallthrough expr pos (rest.respell us)
  | _, us, .when expr pos body rest =>
      .when expr pos (body.respell (rest.tokens ++ us)) (rest.respell us)
  | _, us, .default pos body rest =>
      .default pos (body.respell (rest.tokens ++ us)) (rest.respell us)
  | _, _, .endAlternates => .endAlternates
  | _, us, .elseIf newlines test pos nested rest =>
      .elseIf newlines test pos (nested.respell (rest.tokens ++ us)) (rest.respell us)
  | _, us, .otherwise newlines pos nested => .otherwise newlines pos (nested.respell us)
  | _, _, .filterText name pos group value place => .filterText name pos group value place
  | _, us, .filterNested name pos group inner => .filterNested name pos group (inner.respell us)
  | _, us, .filterRegion name pos group region =>
      .filterRegion name pos group (region.respell us)
  | _, us, .tag name pos head body =>
      if s.begins r (⟨.tag name, pos⟩ :: (head.flatMap HeadItem.tokens ++ (body.tokens ++ us))) then
        unnamed name pos head (body.respell us)
      else .tag name pos head (body.respell us)
  | _, us, .interpolatedTag expr pos head body =>
      .interpolatedTag expr pos head (body.respell us)
  | _, us, .shorthand first head body =>
      if s.begins r (first.token :: (head.flatMap HeadItem.tokens ++ (body.tokens ++ us))) then
        .tag "div" first.pos (.shorthand first :: head) (body.respell us)
      else .shorthand first head (body.respell us)
  | _, us, .call name args pos head body => .call name args pos head (body.respell us)
  | _, us, .mixin name args pos nested => .mixin name args pos (nested.respell us)
  | _, _, .mixinBlock pos => .mixinBlock pos
  | _, _, .yield pos => .yield pos
  | _, us, .namedBlock name mode pos nested => .namedBlock name mode pos (nested.respell us)
  | _, _, .doctype value pos => .doctype value pos
  | _, us, .caseOf expr pos indent branches outdent =>
      .caseOf expr pos indent (branches.respell (⟨.outdent, outdent⟩ :: us)) outdent
  | _, _, .parent pos path place => .parent pos path place
  | _, us, .inclusion pos filters path place nested =>
      .inclusion pos filters path place (nested.respell us)
  | _, us, .filter inner => .filter (inner.respell us)
  | _, us, .comment value buffered pos region => .comment value buffered pos (region.respell us)
  | _, us, .dot pos region => .dot pos (region.respell us)
  | _, us, .run first rest => .run (first.respell (rest.tokens ++ us)) (rest.respell us)
  | _, us, .html value pos rest => .html value pos (rest.respell us)
  | _, us, .each iteration pos body => .each iteration pos (body.respell us)
  | _, us, .eachElse iteration pos body place alternate =>
      .eachElse iteration pos (body.respell (⟨.else, place⟩ :: (alternate.tokens ++ us))) place
        (alternate.respell us)
  | _, us, .whileLoop test pos nested => .whileLoop test pos (nested.respell us)
  | _, us, .conditional test pos nested rest =>
      .conditional test pos (nested.respell (rest.tokens ++ us)) (rest.respell us)
  | _, us, .code c pos nested => .code c pos (nested.respell us)
  | _, _, .blockCode pos region => .blockCode pos region

variable {s r}

/-- What holds of an element that is spelled with its name and of one that is spelled without it
holds of an element that is spelled the other way. -/
theorem respell_tag {P : Derivation .expr → Prop} {name : String} {pos : Position}
    {head : List HeadItem} {body : Derivation (.body true)} {us : List Token}
    (hsame : P (.tag name pos head (body.respell s r us)))
    (hother : ∀ first more, head = .shorthand first :: more → name = "div" → pos = first.pos →
      P (.shorthand first more (body.respell s r us))) :
    P ((tag name pos head body).respell s r us) := by
  rw [respell]
  split
  · rename_i hbegins
    obtain ⟨rfl, rfl, hts⟩ := Shorthand.eq_of_begins_tag hbegins
    cases head with
    | nil => exact hsame
    | cons item head =>
      cases item with
      | shorthand first =>
        refine hother first head rfl rfl ?_
        rw [Shorthand.token_inj (List.cons.inj hts).1]
      | _ => exact hsame
  · exact hsame

theorem respell_shorthand {P : Derivation .expr → Prop} {first : Shorthand}
    {head : List HeadItem} {body : Derivation (.body true)} {us : List Token}
    (hsame : P (.shorthand first head (body.respell s r us)))
    (hother : P (.tag "div" first.pos (.shorthand first :: head) (body.respell s r us))) :
    P ((shorthand first head body).respell s r us) := by
  rw [respell]
  split
  · exact hother
  · exact hsame

theorem fragmentStart_respell (d : Derivation .fragment) (us : List Token) :
    (d.respell s r us).fragmentStart = d.fragmentStart := by
  cases d <;> rfl

/-- The same line breaks are kept. -/
theorem keeps_respell {layout : Layout} (d : Derivation (.parts layout)) (us : List Token) :
    layout.keeps (d.respell s r us).tokens = layout.keeps d.tokens := by
  cases d with
  | part fragment rest => cases fragment <;> rfl
  | _ => rfl

theorem nested_respell (d : Derivation .nested) (us : List Token) :
    (d.respell s r us).tokens = [] ↔ d.tokens = [] := by
  cases d with
  | noBlock => rfl
  | someBlock b =>
    cases b
    exact iff_of_false nofun nofun

/-- **In front of a derivation the same is seen,** however its elements are spelled. -/
theorem alike_respell {a b : Lookahead} (h : a.Alike elementTerminals b) {sym : Symbol}
    (d : Derivation sym) : ∀ us,
      (a.before d.tokens).Alike elementTerminals (b.before (d.respell s r us).tokens) := by
  induction d generalizing a b with
  | tag name pos head body ih =>
    intro us
    refine respell_tag (P := fun e => Lookahead.Alike _ _ (b.before e.tokens)) ?_
      fun first more _ _ _ => Lookahead.alike_element List.mem_cons_self first.terminal_mem
    exact ((ih h us).before_append _).before_cons _
  | shorthand first head body ih =>
    intro us
    refine respell_shorthand (P := fun e => Lookahead.Alike _ _ (b.before e.tokens)) ?_
      (Lookahead.alike_element first.terminal_mem List.mem_cons_self)
    exact ((ih h us).before_append _).before_cons _
  | _ =>
    intro us
    simp only [tokens, respell, Lookahead.before_append]
    apply_rules [Lookahead.Alike.same, Lookahead.Alike.before_cons]

theorem alike_respell_newlines {a b : Lookahead} (h : a.Alike elementTerminals b) {sym : Symbol}
    (newlines : List Position) (d : Derivation sym) (us : List Token) :
    (a.before (newlineTokens newlines ++ d.tokens)).Alike elementTerminals
      (b.before (newlineTokens newlines ++ (d.respell s r us).tokens)) :=
  (alike_respell h d us).before_append _

/-- **A derivation with an element spelled the other way is as greedy as it was.** -/
theorem greedy_respell {sym : Symbol} (d : Derivation sym) :
    ∀ {a b : Lookahead} (us : List Token), a.Alike elementTerminals b → d.Greedy a →
      (d.respell s r us).Greedy b := by
  induction d with
  | nil => exact fun us h hg => h.notMem (by decide) hg
  | item e rest ihe ih => exact fun us h hg => ⟨ihe _ (alike_respell h rest _) hg.1, ih _ h hg.2⟩
  | block indent items outdent ih =>
    exact fun us h hg => ih _ (h.same [⟨.outdent, outdent⟩]) hg
  | noBlock => exact fun us h hg => h.next_ne (by decide) hg
  | noRegion => exact fun us h hg => h.next_ne (by decide) hg
  | someRegion start parts stop ih =>
    exact fun us h hg => ih _ (h.same [⟨.endPipelessText, stop⟩]) hg
  | @endParts layout => exact fun us h hg => h.notMem (by cases layout <;> decide) hg
  | part fragment rest ihf ih =>
    exact fun us h hg => ⟨ihf _ (alike_respell h rest _) hg.1, ih _ h hg.2⟩
  | interpolated start e stop ih =>
    exact fun us h hg => ih _ (h.same [⟨.endInterpolation, stop⟩]) hg
  | endHtml => exact fun us h hg => h.notMem (by decide) hg
  | htmlBlock b rest ihb ih =>
    exact fun us h hg => ⟨ihb _ (alike_respell h rest _) hg.1, ih _ h hg.2⟩
  | noContent => exact fun us h hg => h.mem (by decide) hg
  | nesting content newlines nested ihc ihn =>
    exact fun us h hg =>
      ⟨(alike_respell (s := s) (r := r) h (.nesting content newlines nested) us).next_ne (by decide) hg.1,
        ihc _ (alike_respell_newlines h newlines nested us) hg.2.1,
        (alike_respell h nested us).next_ne (by decide) hg.2.2.1, ihn _ h hg.2.2.2⟩
  | textOnly pos content newlines region ihc ihr =>
    exact fun us h hg => ⟨ihc _ (alike_respell_newlines h newlines region us) hg.1,
      (alike_respell h region us).next_ne (by decide) hg.2.1, ihr _ h hg.2.2⟩
  | endBranches => exact fun us h hg => h.notMem (by decide) hg
  | fallthrough expr pos rest ih =>
    exact fun us h hg => ⟨(alike_respell h rest us).mem (by decide) hg.1, ih _ h hg.2⟩
  | when expr pos body rest ihb ih =>
    exact fun us h hg => ⟨ihb _ (alike_respell h rest us) hg.1, ih _ h hg.2⟩
  | default pos body rest ihb ih =>
    exact fun us h hg => ⟨ihb _ (alike_respell h rest us) hg.1, ih _ h hg.2⟩
  | endAlternates => exact fun us h hg => h.past_notMem (by decide) hg
  | elseIf newlines test pos nested rest ihn ih =>
    exact fun us h hg => ⟨ihn _ (alike_respell h rest us) hg.1, ih _ h hg.2⟩
  | filterRegion name pos group region ih =>
    exact fun us h hg =>
      ⟨fun hnone => (alike_respell h region us).next_ne (by decide) (hg.1 hnone),
        (alike_respell h region us).notMem (by decide) hg.2.1, ih _ h hg.2.2⟩
  | tag name pos head body ih =>
    -- No body begins as a head goes on, so it does not matter which tokens the head has.
    intro a b us h hg
    have hbody := ih us h hg.2
    exact respell_tag (P := (Greedy · b)) ⟨notMem_headStarts_of_greedy hbody, hbody⟩
      fun first more _ _ _ => ⟨notMem_headStarts_of_greedy hbody, hbody⟩
  | shorthand first head body ih =>
    intro a b us h hg
    have hbody := ih us h hg.2
    exact respell_shorthand (P := (Greedy · b)) ⟨notMem_headStarts_of_greedy hbody, hbody⟩
      ⟨notMem_headStarts_of_greedy hbody, hbody⟩
  | interpolatedTag expr pos head body ih =>
    exact fun us h hg => ⟨notMem_headStarts_of_greedy (ih us h hg.2), ih us h hg.2⟩
  | call name args pos head body ih =>
    exact fun us h hg => ⟨notMem_headStarts_of_greedy (ih us h hg.2), ih us h hg.2⟩
  | caseOf expr pos indent branches outdent ih =>
    exact fun us h hg => ih _ (h.same [⟨.outdent, outdent⟩]) hg
  | run first rest ihf ih =>
    exact fun us h hg => ⟨ihf _ (alike_respell h rest us) hg.1, ih _ h hg.2⟩
  | each iteration pos body ih =>
    exact fun us h hg => ⟨ih _ h hg.1, h.next_ne (by decide) hg.2⟩
  | eachElse iteration pos body place alternate ihb iha =>
    exact fun us h hg =>
      ⟨ihb _ ((alike_respell h alternate us).before_cons ⟨.else, place⟩) hg.1, iha _ h hg.2⟩
  | conditional test pos nested rest ihn ih =>
    exact fun us h hg => ⟨ihn _ (alike_respell h rest us) hg.1, ih _ h hg.2⟩
  | blockCode pos region => exact fun us h hg hnone => h.next_ne (by decide) (hg hnone)
  | plain | lineCode | slash | filterText | mixinBlock | yield | doctype | parent =>
    exact fun _ _ _ => trivial
  | newline _ _ ih | someBlock _ ih | lineBreak _ _ _ ih | htmlNewline _ _ ih | htmlLine _ _ _ ih
  | lineRun _ _ ih | colon _ _ ih | expandColon _ _ ih | expandBlock _ ih | branchNewline _ _ ih
  | branchComment _ _ _ _ ih | otherwise _ _ _ ih | filterNested _ _ _ _ ih | mixin _ _ _ _ ih
  | namedBlock _ _ _ _ ih | inclusion _ _ _ _ _ ih | filter _ ih | comment _ _ _ _ ih
  | dot _ _ ih | html _ _ _ ih | whileLoop _ _ _ ih | code _ _ _ ih =>
    exact fun us h hg => ih us h hg

/-- **And it is lawful where it was.** -/
theorem lawful_respell {sym : Symbol} (d : Derivation sym) :
    ∀ (us : List Token) (scope : Grammar.Scope),
      (d.respell s r us).Lawful scope ↔ d.Lawful scope := by
  induction d with
  | tag name pos head body ih =>
    intro us scope
    refine respell_tag (P := fun e => e.Lawful scope ↔ _) (and_congr .rfl (ih us scope)) ?_
    rintro first more rfl - -
    exact and_congr .rfl (ih us scope)
  | shorthand first head body ih =>
    intro us scope
    exact respell_shorthand (P := fun e => e.Lawful scope ↔ _)
      (and_congr .rfl (ih us scope)) (and_congr .rfl (ih us scope))
  | code c pos nested ih =>
    intro us scope
    exact and_congr (imp_congr_right fun _ => nested_respell nested us) (ih us scope)
  | _ =>
    intro us scope
    simp [Lawful, *]

/-- **It means the same.** -/
@[simp] theorem meaning_respell (o : Options) {sym : Symbol} (d : Derivation sym) :
    ∀ us, (d.respell s r us).meaning o = d.meaning o := by
  induction d with
  | tag name pos head body ih =>
    intro us
    refine respell_tag (P := fun e => e.meaning o = _) (by simp [meaning, ih us]) ?_
    rintro first more rfl rfl rfl
    simp [meaning, ih us]
  | shorthand first head body ih =>
    intro us
    exact respell_shorthand (P := fun e => e.meaning o = _) (by simp [meaning, ih us])
      (by simp [meaning, ih us])
  | lineBreak spread pos rest ih =>
    intro us
    simp [meaning, keeps_respell, ih us]
  | run first rest ihf ih =>
    intro us
    simp [meaning, fragmentStart_respell, ihf, ih us]
  | _ =>
    intro us
    simp [meaning, *]

/-- **And it is warned of in the same places.** -/
theorem warnings_respell (o : Options) {sym : Symbol} (d : Derivation sym) :
    ∀ us, ((d.respell s r us).trail o).filterMap Event.warning? =
      (d.trail o).filterMap Event.warning? := by
  induction d with
  | tag name pos head body ih =>
    intro us
    refine respell_tag (P := fun e => (e.trail o).filterMap Event.warning? = _)
      (by simp [trail, ih us]) ?_
    rintro first more rfl - -
    simp [trail, HeadItem.trail, List.filterMap_cons, Event.warning?, ih us]
  | shorthand first head body ih =>
    intro us
    exact respell_shorthand (P := fun e => (e.trail o).filterMap Event.warning? = _)
      (by simp [trail, List.filterMap_cons, ih us])
      (by simp [trail, HeadItem.trail, List.filterMap_cons, Event.warning?, ih us])
  | inclusion pos filters path place nested ih =>
    intro us
    simp only [respell, trail, inclusionTrail, meaning_respell, List.filterMap_append]
    split <;> simp [List.filterMap_cons, ih us]
  | _ =>
    intro us
    simp [trail, *]

end Derivation
end Pug
