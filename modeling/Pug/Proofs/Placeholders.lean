/-
# Where mixins' blocks have their places

The place of a mixin's block is told from a yield by nothing but this: it is allowed only
inside the definition of a mixin. By the tokens, this is so behind an indent that follows the
token of a mixin and that is not matched by an outdent yet.

There, a template is read in the same way with the one token as with the other one. Elsewhere
the place of a mixin's block is refused, and this is the first thing that is wrong with the
template if it would be read with a yield: the block would be read if a mixin were around it.
-/

import Pug.Proofs.Nesting
import Pug.Proofs.Placeholder.Kept
import Pug.Proofs.Termination
import Pug.Proofs.WellFormed

namespace Pug

namespace Derivation

/-- The derivation with its places refilled as those of some tokens. -/
def refillAs (d : Derivation .items) (us : List Token) : Derivation .items :=
  d.refill (fun i => us[i]?.any (·.terminal = .mixinBlock)) 0

variable {o : Options} {d : Derivation .items} {ts us : List Token}

theorem tokens_refillAs (hsame : d.tokens.map (Token.refill false) = us.map (Token.refill false)) :
    (d.refillAs us).tokens = us := by
  rw [refillAs, tokens_refill]
  exact refill_eq_of_map (fun i => by rw [Nat.zero_add]) hsame

/-- **Outside of every mixin, a derivation has its places in its own mixins.** -/
theorem allows_of_lawful (hg : d.Greedy .finish) (hl : d.Lawful .outermost) :
    Indents.none.Allows d.tokens := ((d.lawful_iff [] .finish hg).1 hl).2

namespace Reads

theorem allows (hd : d.Reads ts) : Indents.none.Allows (beforeEos ts) := by
  rw [← hd.tokens_eq]
  exact allows_of_lawful hd.greedy hd.lawful

theorem greedy_refillAs (hd : d.Reads ts) : (d.refillAs us).Greedy .finish :=
  d.greedy_refill _ 0 .rfl hd.greedy

/-- In a mixin, places may be refilled at will. -/
theorem lawful_refillAs (hd : d.Reads ts) : (d.refillAs us).Lawful .mixinBody :=
  (d.lawful_refill _ 0).2 ((d.lawful_iff [] .finish hd.greedy).1 hd.lawful).1

/-- **Tokens that are the same up to their places are read** if the places are in mixins. -/
theorem refillAs (hd : d.Reads ts)
    (hsame : (beforeEos ts).map (Token.refill false) = (beforeEos us).map (Token.refill false))
    (hallows : Indents.none.Allows (beforeEos us)) : (d.refillAs (beforeEos us)).Reads us := by
  rw [← hd.tokens_eq] at hsame
  refine ⟨tokens_refillAs hsame, hd.greedy_refillAs, ?_⟩
  refine ((d.refillAs (beforeEos us)).lawful_iff [] .finish hd.greedy_refillAs).2
    ⟨hd.lawful_refillAs, ?_⟩
  rwa [tokens_refillAs hsame]

end Reads
end Derivation

section Frame

open Grammar

variable {o : Options} {ts : List Token} {e : ParseError} (h : (parse o ts).outcome = .failed e)
include h

/-- What is refused as a template is refused in a frame, too, unless the frame explains the
error. -/
theorem fails_or_explains (frame : Frame) :
    frame.Explains ts e ∨ ∃ events,
      (items (.ofDepth (budget (ts ++ frame.more))) (frame.scope .outermost) .eos).Fails o
        (ts ++ frame.more) e events := by
  have hdepth : budget ts ≤ budget (ts ++ frame.more) := by
    unfold budget
    rw [List.length_append]
    omega
  have hrun : (document (.ofDepth (budget ts))).run o (Cursor.ofList ts) =
      ⟨.failed e, (parse o ts).events⟩ := Run.eq_of_outcome h
  obtain ⟨later, hlater, -⟩ := failed_of_document hrun
  refine (Classical.em _).imp_right fun hframe => ⟨later, fun finish' => ?_⟩
  have hsteady : Reader.Steady frame o (items (.ofDepth (budget ts)) .outermost .eos)
      (items (.ofDepth (budget (ts ++ frame.more))) (frame.scope .outermost) .eos) ts :=
    steady_items (steady_ofDepth o hdepth) .outermost .eos
  have hrepeats := hsteady.firm (Cursor.ofList ts).finish finish'
  change (items (.ofDepth (budget ts)) .outermost .eos).run o
    (.before (Cursor.ofList ts).finish ts) = _ at hlater
  rw [hlater] at hrepeats
  generalize (items (.ofDepth (budget (ts ++ frame.more))) (frame.scope .outermost) .eos).run o
    (.before finish' (ts ++ frame.more)) = run at hrepeats ⊢
  cases hrepeats with
  | dry hdry =>
    cases hdry with
    | failed hexplains => exact absurd hexplains hframe
  | failed => rfl

/-- Tokens that begin a derivation in the body of a mixin are refused only for their end, or for
the place of a mixin's block. -/
theorem explains_of_mixinBody {more : List Token} {d : Derivation .items}
    (htokens : d.tokens = ts ++ more) (hg : d.Greedy .finish) (hl : d.Lawful .mixinBody) :
    Frame.Explains ⟨more, true⟩ ts e := by
  have hlen : d.tokens.length < (ts ++ more).length + 1 := by
    rw [htokens]
    exact Nat.lt_succ_self _
  have htakes : (items (.ofDepth (budget (ts ++ more))) .mixinBody .eos).Takes o d.tokens []
      (d.meaning o) (d.trail o) :=
    takes_items (covers_ofDepth o ((ts ++ more).length + 1)) .eos (by decide) rfl d hlen hg hl
  have hdone := htakes (Cursor.ofList ts).finish
  rw [htokens, List.append_nil] at hdone
  rcases fails_or_explains h ⟨more, true⟩ with hexplains | ⟨events, hfails⟩
  · exact hexplains
  · have hfailed := hfails (Cursor.ofList ts).finish
    cases hdone.symm.trans hfailed

/-- The place of a mixin's block is refused whatever comes behind it. -/
theorem refused_append (hfault : e.fault = .blockOutsideMixin) (more : List Token) :
    (parse o (ts ++ more)).outcome = .failed e := by
  rcases fails_or_explains h ⟨more, false⟩ with hexplains | ⟨events, hfails⟩
  · rcases hexplains with heos | ⟨hnewline, -⟩ | ⟨-, hmixin⟩
    · rw [hfault] at heos
      cases heos
    · rw [hfault] at hnewline
      cases hnewline
    · cases hmixin
  · have hdocument : (document (.ofDepth (budget (ts ++ more)))).Fails o (ts ++ more) e
        (.started o.filename :: events) := .options_bind (.emit_bind hfails.bind)
    exact congrArg Run.outcome (hdocument _)

/-- The place of a mixin's block that is refused is outside of mixins. -/
theorem exists_place_of_fault (hfault : e.fault = .blockOutsideMixin) :
    ∃ us t rest, ts = us ++ t :: rest ∧ t.lexeme = .mixinBlock ∧ e.loc = o.place t.pos ∧
      (Indents.none.after us).inMixin = false := by
  have hsurveyed := surveyed_parse o ts
  generalize parse o ts = run at h hsurveyed
  cases hsurveyed with
  | done hts hus hreports hq => cases h
  | @failed e' us rest events hts hus hreports hcomplains =>
    cases h
    have hfits := hcomplains.fits
    rw [hfault] at hfits
    cases rest with
    | nil => cases hfits
    | cons t rest =>
      exact ⟨us, t, rest, hts, hfits, hcomplains.loc_eq, hcomplains.outside hfault⟩

end Frame

section Place

variable {o : Options} {p r : List Token} {pos : Position} (hfree : EosFree p)
include hfree

/-- Outside of mixins the place of a mixin's block is not read. -/
theorem not_done_of_outside (hout : (Indents.none.after p).inMixin = false) {tree : Block}
    {rest : Cursor} : (parse o (p ++ ⟨.mixinBlock, pos⟩ :: r)).outcome ≠ .done tree rest := by
  intro h
  obtain ⟨d, hd⟩ := exists_derivation_of_parse h
  have hallows := hd.allows
  rw [beforeEos_append_cons hfree (by exact nofun)] at hallows
  rw [Indents.inMixin_of_allows hallows rfl] at hout
  cases hout

theorem failed_of_outside (hout : (Indents.none.after p).inMixin = false) :
    ∃ e, (parse o (p ++ ⟨.mixinBlock, pos⟩ :: r)).outcome = .failed e := by
  match h : (parse o (p ++ ⟨.mixinBlock, pos⟩ :: r)).outcome with
  | .done tree rest => exact absurd h (not_done_of_outside hfree hout)
  | .failed e => exact ⟨e, rfl⟩
  | .exhausted => exact absurd h (document_ne_exhausted o (Nat.le_refl _))

/-- If a yield would be read, nothing else is wrong in front of the place of a mixin's block,
nor with it. -/
theorem fault_of_outside (hout : (Indents.none.after p).inMixin = false) {d : Derivation .items}
    (hd : d.Reads (p ++ ⟨.yield, pos⟩ :: r)) {e : ParseError}
    (h : (parse o (p ++ [⟨.mixinBlock, pos⟩])).outcome = .failed e) :
    e.fault = .blockOutsideMixin := by
  have htokens : (d.refillAs (p ++ ⟨.mixinBlock, pos⟩ :: beforeEos r)).tokens =
      p ++ [⟨.mixinBlock, pos⟩] ++ beforeEos r := by
    rw [Derivation.tokens_refillAs, List.append_assoc, List.singleton_append]
    rw [hd.tokens_eq, beforeEos_append_cons hfree (by exact nofun)]
    simp [Token.refill]
  have hframe := explains_of_mixinBody h htokens hd.greedy_refillAs hd.lawful_refillAs
  rcases hframe with heos | ⟨-, hlast, -⟩ | ⟨hfault, -⟩
  · -- Then the tokens could be completed, and the place would be in a mixin.
    obtain ⟨more, d', htokens', hg, hl⟩ := (settled_of_failed h).2 heos (by simp [hfree])
    have hallows := Derivation.allows_of_lawful hg hl
    rw [List.append_nil] at htokens'
    rw [← htokens', List.append_assoc] at hallows
    rw [Indents.inMixin_of_allows hallows rfl] at hout
    cases hout
  · simp [endsInNewline, Token.isNewline, Token.terminal, Lexeme.terminal] at hlast
  · exact hfault

/-- **Outside of mixins the place of a mixin's block is refused** if a yield would be read. -/
theorem refused_of_outside (hout : (Indents.none.after p).inMixin = false) {d : Derivation .items}
    (hd : d.Reads (p ++ ⟨.yield, pos⟩ :: r)) (more : List Token) :
    (parse o (p ++ ⟨.mixinBlock, pos⟩ :: more)).outcome =
      .failed ⟨.blockOutsideMixin, o.place pos⟩ := by
  obtain ⟨e, h⟩ := @failed_of_outside o p [] pos hfree hout
  have hfault := fault_of_outside hfree hout hd h
  have hloc : e.loc = o.place pos := by
    obtain ⟨us, t, rest, hts, ht, hloc, houtside⟩ := exists_place_of_fault h hfault
    rcases List.eq_nil_or_concat rest with rfl | ⟨vs, last, rfl⟩
    · obtain ⟨-, hlast⟩ := List.append_inj' hts rfl
      rw [hloc, ← (List.cons.inj hlast).1]
    · -- A place in front of it would be refused with the yield, too.
      rw [List.concat_eq_append, ← List.cons_append, ← List.append_assoc] at hts
      obtain ⟨rfl, -⟩ := List.append_inj' hts rfl
      have hallows := hd.allows
      rw [beforeEos_append_cons hfree (by exact nofun), List.append_assoc] at hallows
      rw [Indents.inMixin_of_allows hallows (congrArg Lexeme.terminal ht)] at houtside
      cases houtside
  have happend := refused_append h hfault more
  rw [List.append_assoc, List.singleton_append] at happend
  rw [happend, ← hfault, ← hloc]

/-- **In a mixin the one place is read where the other one is.** -/
theorem reads_of_inMixin (hin : (Indents.none.after p).inMixin = true) {l l' : Lexeme}
    (hl : l = .mixinBlock ∨ l = .yield) (hl' : l' = .mixinBlock ∨ l' = .yield)
    {d : Derivation .items} (hd : d.Reads (p ++ ⟨l, pos⟩ :: r)) :
    (d.refillAs (p ++ ⟨l', pos⟩ :: beforeEos r)).Reads (p ++ ⟨l', pos⟩ :: r) := by
  have hbefore : beforeEos (p ++ ⟨l, pos⟩ :: r) = p ++ ⟨l, pos⟩ :: beforeEos r :=
    beforeEos_append_cons hfree (by rcases hl with rfl | rfl <;> exact nofun)
  have hbefore' : beforeEos (p ++ ⟨l', pos⟩ :: r) = p ++ ⟨l', pos⟩ :: beforeEos r :=
    beforeEos_append_cons hfree (by rcases hl' with rfl | rfl <;> exact nofun)
  have hallows := hd.allows
  rw [hbefore, Indents.allows_append, Indents.allows_cons] at hallows
  rw [← hbefore']
  refine hd.refillAs ?_ ?_
  · rw [hbefore, hbefore']
    rcases hl with rfl | rfl <;> rcases hl' with rfl | rfl <;> simp [Token.refill]
  · rw [hbefore', Indents.allows_append, Indents.allows_cons]
    refine ⟨hallows.1, fun _ => hin, ?_⟩
    rcases hl with rfl | rfl <;> rcases hl' with rfl | rfl <;> exact hallows.2.2

/-- Whether the template is read does not depend on which of the two tokens is in a mixin. -/
theorem done_of_inMixin (hin : (Indents.none.after p).inMixin = true) {l l' : Lexeme}
    (hl : l = .mixinBlock ∨ l = .yield) (hl' : l' = .mixinBlock ∨ l' = .yield)
    (h : ∃ tree rest, (parse o (p ++ ⟨l, pos⟩ :: r)).outcome = .done tree rest) :
    ∃ tree rest, (parse o (p ++ ⟨l', pos⟩ :: r)).outcome = .done tree rest := by
  obtain ⟨tree, rest, hdone⟩ := h
  obtain ⟨d, hd⟩ := exists_derivation_of_parse hdone
  obtain ⟨rest', hrun⟩ := parse_of_derivation o (reads_of_inMixin hfree hin hl hl' hd)
  exact ⟨_, rest', congrArg Run.outcome hrun⟩

/-- The marks of the tokens that are read split where the tokens do. -/
theorem exists_marks {t : Token} (ht : t.lexeme ≠ .eos) {d : Derivation .items}
    (hd : d.Reads (p ++ t :: r)) :
    ∃ ms kept ms', d.marked o = ms ++ (t, kept) :: ms' ∧ ms.map Prod.fst = p ∧
      ms'.map Prod.fst = beforeEos r := by
  have hfst := d.map_fst_marked o
  rw [hd.tokens_eq, beforeEos_append_cons hfree ht] at hfst
  obtain ⟨ms, mid, hmarked, hms, hmid⟩ := List.map_eq_append_iff.1 hfst
  obtain ⟨⟨t', kept⟩, ms', rfl, rfl, hms'⟩ := List.map_eq_cons_iff.1 hmid
  exact ⟨ms, kept, ms', hmarked, hms, hms'⟩

/-- **In a mixin the one tree is the other one but for the place**, if that is in the tree. -/
theorem trees_of_inMixin (hin : (Indents.none.after p).inMixin = true) {tree tree' : Block}
    {rest rest' : Cursor}
    (h : (parse o (p ++ ⟨.mixinBlock, pos⟩ :: r)).outcome = .done tree rest)
    (h' : (parse o (p ++ ⟨.yield, pos⟩ :: r)).outcome = .done tree' rest')
    {d : Derivation .items} (hd : d.Reads (p ++ ⟨.mixinBlock, pos⟩ :: r)) :
    tree.asYield = tree'.asYield ∧
    ∃ kept, (d.marked o)[p.length]? = some (⟨.mixinBlock, pos⟩, kept) ∧
      (kept = false → tree = tree') ∧
      (kept = true → ∃ before after,
        tree.places = before ++ ⟨.mixinBlock, o.place pos⟩ :: after ∧
        tree'.places = before ++ ⟨.yield, o.place pos⟩ :: after) := by
  obtain ⟨f, hd'⟩ : ∃ f, (d.refill f 0).Reads (p ++ ⟨.yield, pos⟩ :: r) :=
    ⟨_, reads_of_inMixin hfree hin (.inl rfl) (.inr rfl) hd⟩
  obtain ⟨ms, kept, ms', hmarked, hms, hms'⟩ := exists_marks (o := o) hfree (by exact nofun) hd
  have hrefill : refill f 0 ((ms ++ (⟨.mixinBlock, pos⟩, kept) :: ms').map Prod.fst) =
      (ms ++ (⟨.yield, pos⟩, kept) :: ms').map Prod.fst := by
    rw [← hmarked, d.map_fst_marked, ← d.tokens_refill, hd'.tokens_eq,
      beforeEos_append_cons hfree (by exact nofun), ← hms, ← hms', List.map_append, List.map_cons]
  rw [tree_eq_of_reads h hd, tree_eq_of_reads h' hd']
  have hsame : ((d.refill f 0).meaning o).map Node.asYield = (d.meaning o).map Node.asYield :=
    d.alike_meaning o f 0
  refine ⟨?_, kept, ?_, ?_, ?_⟩
  · rw [Block.asYield_mk, Block.asYield_mk, hsame]
  · rw [hmarked, ← hms, List.length_map, List.getElem?_append_right (Nat.le_refl _), Nat.sub_self]
    rfl
  · rintro rfl
    rw [d.meaning_refill 0]
    rw [hmarked]
    exact keptAsIs_split hrefill
  · rintro rfl
    refine ⟨ms.filterMap (keptPlace? o), ms'.filterMap (keptPlace? o), ?_, ?_⟩
    · rw [Derivation.places_meaning, hmarked, List.filterMap_append]
      rfl
    · rw [Derivation.places_meaning, Derivation.marked_refill, hmarked, refillMarks_split hrefill,
        List.filterMap_append]
      rfl

end Place

/-- **The place of a mixin's block is accepted exactly inside the definition of a mixin.** Behind
some tokens, a mixin is around what comes next if an indent that follows the token of a mixin
has not been matched by an outdent.

* If no mixin is, the place of a mixin's block is refused. If a yield would be read there with
  some tokens behind it, then the error is about the place and is where it is, whatever comes
  behind it.
* If one is, the template is read exactly if it is read with a yield. Then both trees are the
  same once each place is made a yield. If the place is dropped on the way to the tree, they are
  the same. Otherwise they have the same places in the same order, but for this one.
* In every tree that is read, a place of a mixin's block is below the definition of a mixin. -/
theorem placeholder_iff_inMixin (o : Options) {p : List Token} (hfree : EosFree p)
    (pos : Position) :
    ((Indents.none.after p).inMixin = false →
      ∀ r, ∃ e, (parse o (p ++ ⟨.mixinBlock, pos⟩ :: r)).outcome = .failed e ∧
        ∀ r' tree rest, (parse o (p ++ ⟨.yield, pos⟩ :: r')).outcome = .done tree rest →
          e = ⟨.blockOutsideMixin, o.place pos⟩) ∧
    ((Indents.none.after p).inMixin = true →
      ∀ r,
        ((∃ tree rest, (parse o (p ++ ⟨.mixinBlock, pos⟩ :: r)).outcome = .done tree rest) ↔
          ∃ tree rest, (parse o (p ++ ⟨.yield, pos⟩ :: r)).outcome = .done tree rest) ∧
        ∀ tree rest tree' rest',
          (parse o (p ++ ⟨.mixinBlock, pos⟩ :: r)).outcome = .done tree rest →
          (parse o (p ++ ⟨.yield, pos⟩ :: r)).outcome = .done tree' rest' →
          tree.asYield = tree'.asYield ∧
          (∃ d : Derivation .items, d.Reads (p ++ ⟨.mixinBlock, pos⟩ :: r)) ∧
          ∀ d : Derivation .items, d.Reads (p ++ ⟨.mixinBlock, pos⟩ :: r) →
            ∃ kept, (d.marked o)[p.length]? = some (⟨.mixinBlock, pos⟩, kept) ∧
              (kept = false → tree = tree') ∧
              (kept = true → ∃ before after,
                tree.places = before ++ ⟨.mixinBlock, o.place pos⟩ :: after ∧
                tree'.places = before ++ ⟨.yield, o.place pos⟩ :: after)) ∧
    ∀ ts tree rest, (parse o ts).outcome = .done tree rest →
      ∀ above loc, Lineage tree.nodes above (.mixinBlock loc) →
        ∃ definition ∈ above, definition.isDefinition = true := by
  refine ⟨fun hout r => ?_, fun hin r => ⟨⟨?_, ?_⟩, ?_⟩, ?_⟩
  · obtain ⟨e, h⟩ := @failed_of_outside o p r pos hfree hout
    refine ⟨e, h, fun r' tree rest h' => ?_⟩
    obtain ⟨d, hd⟩ := exists_derivation_of_parse h'
    rw [refused_of_outside hfree hout hd r] at h
    exact (Outcome.failed.inj h).symm
  · exact done_of_inMixin hfree hin (.inl rfl) (.inr rfl)
  · exact done_of_inMixin hfree hin (.inr rfl) (.inl rfl)
  · intro tree rest tree' rest' h h'
    obtain ⟨d, hd⟩ := exists_derivation_of_parse h
    exact ⟨(trees_of_inMixin hfree hin h h' hd).1, ⟨d, hd⟩,
      fun d hd => (trees_of_inMixin hfree hin h h' hd).2⟩
  · intro ts tree rest h above loc hplace
    exact List.any_eq_true.1 ((fits_of_parse h hplace).place rfl)

/-- A mixin's block has a place in the mixin and none behind it. -/
theorem placeholder_behind_mixin :
    (∃ tree rest, (parse .default ([⟨.mixin "m" none, ⟨1, 1⟩⟩, ⟨.indent, ⟨2, 1⟩⟩] ++
      ⟨.mixinBlock, ⟨2, 3⟩⟩ :: [⟨.outdent, ⟨3, 1⟩⟩])).outcome = .done tree rest) ∧
    ∃ e, (parse .default ([⟨.mixin "m" none, ⟨1, 1⟩⟩, ⟨.indent, ⟨2, 1⟩⟩, ⟨.outdent, ⟨3, 1⟩⟩] ++
      ⟨.mixinBlock, ⟨3, 1⟩⟩ :: [])).outcome = .failed e ∧
        e = ⟨.blockOutsideMixin, ⟨⟨3, 1⟩, none⟩⟩ := by
  constructor
  · have hinside := (placeholder_iff_inMixin .default
      (p := [⟨.mixin "m" none, ⟨1, 1⟩⟩, ⟨.indent, ⟨2, 1⟩⟩]) (by simp) ⟨2, 3⟩).2.1 (by decide)
    exact (hinside [⟨.outdent, ⟨3, 1⟩⟩]).1.2 ⟨_, _, by rfl⟩
  · have hbehind := (placeholder_iff_inMixin .default
      (p := [⟨.mixin "m" none, ⟨1, 1⟩⟩, ⟨.indent, ⟨2, 1⟩⟩, ⟨.outdent, ⟨3, 1⟩⟩]) (by simp)
      ⟨3, 1⟩).1 (by decide)
    obtain ⟨e, h, hyield⟩ := hbehind []
    exact ⟨e, h, hyield [] _ _ (by rfl)⟩

end Pug
