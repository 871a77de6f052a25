/-
# What the parts of templates take

Filters nest in one another in the place of their text. An include goes through its
filters to its path, which decides what becomes of them and of the block under it.
A mixin with a block is a definition, and the body of one is a place where the block
of a call may stand.
-/

import Pug.Grammar.Comment
import Pug.Grammar.Filter
import Pug.Grammar.Inclusion
import Pug.Proofs.Reading.Element

namespace Pug
namespace Grammar

open Reader

section Takes

variable {o : Options} {inner : Inner} {size : Nat} {scope : Scope} {rest : List Token}

theorem takes_comment (hc : inner.Covers o size) (value : String) (buffered : Bool)
    (pos : Position) (d : Derivation .region)
    (hlen : d.tokens.length ≤ size) (hg : d.Greedy (.of rest)) (hl : d.Lawful scope) :
    (comment inner scope value buffered (o.place pos)).Takes o d.tokens rest
      ((Derivation.comment value buffered pos d).meaning o) (d.trail o) := by
  have h := takes_verbatim? hc d hlen hg hl
  cases d with
  | noRegion => exact .bind_stay h .pure
  | someRegion start parts stop => exact .bind_stay h .pure

theorem takes_filter (hc : inner.Covers o size) (rounds : Nat) (d : Derivation .filter)
    (hlen : d.tokens.length ≤ size) (hr : d.tokens.length < rounds) (hg : d.Greedy (.of rest))
    (hl : d.Lawful scope) :
    ∃ name pos us, d.tokens = ⟨.filter name, pos⟩ :: us ∧
      (filter inner scope rounds name (o.place pos)).Takes o us rest (d.meaning o)
        (d.trail o) := by
  obtain ⟨rounds, rfl⟩ := Nat.exists_eq_succ_of_ne_zero (by omega : rounds ≠ 0)
  have hrounds := hc.rounds
  match d with
  | .filterText name pos g value place =>
    simp only [Derivation.tokens, List.length_cons, List.length_append] at hlen hr
    have hattrs : (filterAttributes inner.rounds).Takes o (Group.tokens? g)
        (⟨.text value, place⟩ :: rest) (Group.listed? o g) (Group.trail? g) :=
      takes_filterAttributes g (by omega) (fun _ h => by cases h)
    exact ⟨name, pos, _, rfl, .bind_silent hattrs (.peek_bind (.locate_bind (.skip_bind .pure)))⟩
  | .filterNested name pos g nested =>
    simp only [Derivation.tokens, List.length_cons, List.length_append] at hlen hr
    obtain ⟨nestedName, place, us, htokens, h⟩ :=
      takes_filter hc rounds nested (by omega) (by omega) hg hl
    have hattrs : (filterAttributes inner.rounds).Takes o (Group.tokens? g)
        ((⟨.filter nestedName, place⟩ :: us) ++ rest) (Group.listed? o g) (Group.trail? g) :=
      takes_filterAttributes g (by omega) (fun _ h => by cases h)
    refine ⟨name, pos, Group.tokens? g ++ nested.tokens, rfl, ?_⟩
    rw [htokens]
    exact .bind hattrs (.peek_bind (.locate_bind (.skip_bind h.bind_pure)))
  | .filterRegion name pos g region =>
    simp only [Derivation.tokens, List.length_cons, List.length_append] at hlen hr
    rcases hg with ⟨hgroup, hnext, hregion⟩
    rw [← Lookahead.of_append] at hgroup hnext
    have h := (takes_verbatimAt hc region (by omega) hregion hl (o.place pos)).bind_pure
      (f := fun body => Node.filter name (Group.listed? o g) body (o.place pos))
    refine ⟨name, pos, _, rfl, .bind (takes_filterAttributes g (by omega) hgroup)
      (.next_bind fun t ht => .locate_bind ?_)⟩
    have hstart := Lookahead.terminal_ne ht hnext
    split
    · rename_i h
      exact absurd (congrArg Lexeme.terminal h) (hstart .text (by decide))
    · rename_i h
      exact absurd (congrArg Lexeme.terminal h) (hstart .filter (by decide))
    · exact h

theorem takes_includeFilters (rounds more : Nat) (filters : List FilterToken)
    (path : String) (place : Position) (hr : (filters.flatMap FilterToken.tokens).length < rounds)
    (hm : (filters.flatMap FilterToken.tokens).length ≤ more) :
    (many (includeFilter more) rounds).Takes o (filters.flatMap FilterToken.tokens)
      (⟨.path path, place⟩ :: rest) (filters.map (FilterToken.filter o))
      (filters.flatMap FilterToken.trail) := by
  induction filters generalizing rounds with
  | nil =>
    refine .many_none (by omega) (.next_bind fun t ht => ?_)
    rcases t with ⟨l, pos⟩
    cases l <;> cases ht
    exact .pure
  | cons f filters ih =>
    rw [List.flatMap_cons, List.length_append] at hr hm
    have hnext : (Lookahead.of (filters.flatMap FilterToken.tokens ++
        ⟨.path path, place⟩ :: rest)).next ≠ .startAttributes := by
      intro h
      cases filters <;> cases h
    have hlen : f.tokens.length = (Group.tokens? f.group).length + 1 := rfl
    have hattrs : (filterAttributes more).Takes o (Group.tokens? f.group)
        (filters.flatMap FilterToken.tokens ++ ⟨.path path, place⟩ :: rest)
        (Group.listed? o f.group) (Group.trail? f.group) :=
      takes_filterAttributes f.group (by omega) fun _ => hnext
    have hitem : (includeFilter more).Takes o f.tokens
        (filters.flatMap FilterToken.tokens ++ ⟨.path path, place⟩ :: rest)
        (some (f.filter o)) f.trail :=
      .peek_bind (.skip_bind (.locate_bind hattrs.bind_pure))
    exact .many_some (by omega) hitem (ih (rounds - 1) (by omega) (by omega))

theorem takes_fileRef (path : String) (place : Position) :
    fileRef.Takes o [⟨.path path, place⟩] rest ⟨Text.trim path, o.place place⟩ [] :=
  .peek_bind (.skip_bind (.locate_bind .pure))

theorem takes_templateInclude (hc : inner.Covers o size) (file : FileRef)
    (filters : List IncludeFilter) (loc : Location) (d : Derivation .nested)
    (hlen : d.tokens.length < size) (hg : d.Greedy (.of rest)) (hl : d.Lawful scope) :
    (templateInclude inner scope file filters loc).Takes o d.tokens rest
      (.include file (d.meaning o) loc)
      ((if filters.length = 0 then [] else [.unfiltered file.path filters.length]) ++
        d.trail o) := by
  have h : (templateInclude inner scope file filters loc).Takes o d.tokens rest
      (.include file (d.meaning o) loc)
      ((if (!filters.isEmpty) = true then [.unfiltered file.path filters.length] else []) ++
        d.trail o) :=
    .emitIf_bind (takes_block? hc d hlen hg hl).bind_pure
  cases filters with
  | nil => exact h
  | cons f filters => exact h

theorem takes_rawInclude (hc : inner.Covers o size) (file : FileRef)
    (filters : List IncludeFilter) (loc : Location) (d : Derivation .nested)
    (hlen : d.tokens.length < size) (hg : d.Greedy (.of rest)) (hl : d.Lawful scope) :
    (rawInclude inner scope file filters loc).Takes o d.tokens rest
      (.rawInclude file filters loc)
      (d.trail o ++ (d.meaning o).toList.map fun b => .discarded file.path b.size) := by
  have h := takes_block? hc d hlen hg hl
  intro finish
  cases d with
  | noBlock =>
    rw [rawInclude, run_bind, h finish]
    rfl
  | someBlock b =>
    rw [rawInclude, run_bind, h finish]
    rfl

/-- **An include is what its path leads to.** -/
theorem takes_included (hc : inner.Covers o size) (file : FileRef)
    (filters : List IncludeFilter) (loc : Location) (d : Derivation .nested)
    (hlen : d.tokens.length < size) (hg : d.Greedy (.of rest)) (hl : d.Lawful scope) :
    Takes o
      (match o.target file.path with
      | .raw => rawInclude inner scope file filters loc
      | .template => templateInclude inner scope file filters loc
      | .legacyTemplate => do
        warn (.legacyTemplateExtension file.path o.extension) loc
        templateInclude inner scope file filters loc) d.tokens rest
      (if o.target file.path = .raw then .rawInclude file filters loc
        else .include file (d.meaning o) loc)
      (Derivation.inclusionTrail o file.path filters.length loc (d.meaning o) (d.trail o)) := by
  have htemplate := takes_templateInclude hc file filters loc d hlen hg hl
  rw [Derivation.inclusionTrail]
  cases o.target file.path with
  | raw => exact takes_rawInclude hc file filters loc d hlen hg hl
  | template => exact htemplate
  | legacyTemplate => exact htemplate.emit_bind

theorem takes_inclusion (hc : inner.Covers o size) (pos : Position) (filters : List FilterToken)
    (path : String) (place : Position) (d : Derivation .nested)
    (hlen : (Derivation.inclusion pos filters path place d).tokens.length ≤ size)
    (hg : d.Greedy (.of rest)) (hl : d.Lawful scope) :
    (inclusion inner scope (o.place pos)).Takes o
      (filters.flatMap FilterToken.tokens ++ ⟨.path path, place⟩ :: d.tokens) rest
      ((Derivation.inclusion pos filters path place d).meaning o)
      ((Derivation.inclusion pos filters path place d).trail o) := by
  simp only [Derivation.tokens, List.length_cons, List.length_append] at hlen
  have hrounds := hc.rounds
  have hfilters : (many (includeFilter inner.rounds) inner.rounds).Takes o
      (filters.flatMap FilterToken.tokens) (⟨.path path, place⟩ :: (d.tokens ++ rest))
      (filters.map (FilterToken.filter o)) (filters.flatMap FilterToken.trail) :=
    takes_includeFilters _ _ filters path place (by omega) (by omega)
  have hfile : fileRef.Takes o [⟨.path path, place⟩] (d.tokens ++ rest)
      ⟨Text.trim path, o.place place⟩ [] := takes_fileRef path place
  have h := takes_included hc ⟨Text.trim path, o.place place⟩
    (filters.map (FilterToken.filter o)) (o.place pos) d (by omega) hg hl
  rw [List.length_map] at h
  exact .bind hfilters (.silent_bind hfile (.options_bind h))

theorem takes_mixin (hc : inner.Covers o size) (name : String) (args : Option String)
    (pos : Position) (d : Derivation .nested) (hlen : d.tokens.length < size)
    (hg : d.Greedy (.of rest)) (hl : d.Lawful .mixinBody) :
    (mixin inner name args (o.place pos)).Takes o d.tokens rest
      ((Derivation.mixin name args pos d).meaning o)
      ((Derivation.mixin name args pos d).trail o) := by
  have h := takes_block? hc d hlen hg hl
  intro finish
  cases d with
  | noBlock =>
    rw [mixin, run_bind, h finish]
    rfl
  | someBlock b =>
    rw [mixin, run_bind, h finish]
    rfl

end Takes

section Ensures

variable {inner : Inner} {scope : Scope} {ts us mid rest : List Token} {pos : Position}

theorem ensures_comment (hs : inner.Sound) (value : String) (buffered : Bool) (loc : Location) :
    (comment inner scope value buffered loc).Ensures us fun _ rest =>
      Derives .expr scope (⟨.comment value buffered, pos⟩ :: us) rest := by
  refine (ensures_verbatim? hs).bind fun body rest h => ?_
  rcases h with ⟨region, rfl, hg, hl⟩
  have hderives : Derives .expr scope (⟨.comment value buffered, pos⟩ :: (region.tokens ++ rest))
      rest := ⟨.comment value buffered pos region, rfl, hg, hl⟩
  cases body with
  | none => exact .pure hderives
  | some body => exact .pure hderives

theorem ensures_filter (hs : inner.Sound) (rounds : Nat) (name : String) (pos : Position)
    (loc : Location) :
    (filter inner scope rounds name loc).Ensures us fun _ rest =>
      Derives .filter scope (⟨.filter name, pos⟩ :: us) rest := by
  induction rounds generalizing us name pos loc with
  | zero => exact .exhausted
  | succ rounds ih =>
    refine ensures_filterAttributes.bind fun attrs mid h => ?_
    rcases h with ⟨g, rfl, hgroup⟩
    have hregion : (Lookahead.of mid).next ∉ [.text, .filter] →
        (verbatimAt inner scope loc >>= fun body =>
          pure (Node.filter name attrs body loc)).Ensures mid fun _ rest =>
            Derives .filter scope (⟨.filter name, pos⟩ :: (Group.tokens? g ++ mid)) rest := by
      refine fun hnext => (ensures_verbatimAt hs loc).bind fun body rest h => .pure ?_
      rcases h with ⟨region, rfl, hg, hl⟩
      rw [Lookahead.of_append] at hgroup hnext
      exact ⟨.filterRegion name pos g region, by simp [Derivation.tokens], ⟨hgroup, hnext, hg⟩, hl⟩
    refine .peek_bind (fun hmid place => .locate_bind fun there => ?_) fun l place vs hmid =>
      .locate_bind fun there => ?_
    · subst hmid
      exact hregion (by decide)
    · subst hmid
      cases l with
      | text value =>
        refine .skip_bind (.pure ⟨.filterText name pos g value place, ?_, trivial, trivial⟩)
        simp [Derivation.tokens]
      | filter nested =>
        refine .skip_bind ((ih nested place there).bind fun node rest h => .pure ?_)
        rcases h with ⟨d, hts, hg, hl⟩
        exact ⟨.filterNested name pos g d, by rw [hts]; simp [Derivation.tokens], hg, hl⟩
      | _ =>
        refine hregion ?_
        simp [Lookahead.of, Token.terminal, Lexeme.terminal]

/-- The tokens `ts` are those of the filters of an include, and then `rest`. -/
def TakesFilters (ts rest : List Token) : Prop :=
  ∃ filters : List FilterToken, ts = filters.flatMap FilterToken.tokens ++ rest

theorem ensures_includeFilter (rounds : Nat) :
    (includeFilter rounds).Ensures ts (Round TakesFilters ts) := by
  refine .peek_bind (fun hts pos => ?_) fun l pos us hts => ?_
  · exact hts ▸ .pure ⟨[], rfl⟩
  · subst hts
    cases l with
    | filter name =>
      refine .skip_bind (.locate_bind fun loc => ensures_filterAttributes.bind fun attrs mid h =>
        .pure fun rest hrest => ?_)
      rcases h with ⟨g, rfl, -⟩
      rcases hrest with ⟨filters, rfl⟩
      exact ⟨⟨name, pos, g⟩ :: filters, by simp [FilterToken.tokens]⟩
    | _ => exact .pure ⟨[], rfl⟩

theorem ensures_fileRef :
    fileRef.Ensures ts fun _ rest => ∃ path place, ts = ⟨.path path, place⟩ :: rest := by
  refine .peek_bind (fun hts pos => .unexpected) fun l pos us hts => ?_
  subst hts
  cases l with
  | path path => exact .skip_bind (.locate_bind fun loc => .pure ⟨path, pos, rfl⟩)
  | _ => exact .unexpected

theorem ensures_templateInclude (hs : inner.Sound) (file : FileRef)
    (filters : List IncludeFilter) (loc : Location) :
    (templateInclude inner scope file filters loc).Ensures ts fun _ rest =>
      Derives .nested scope ts rest :=
  .emitIf_bind ((ensures_block? hs).bind fun _ _ h => .pure h)

theorem ensures_rawInclude (hs : inner.Sound) (file : FileRef) (filters : List IncludeFilter)
    (loc : Location) :
    (rawInclude inner scope file filters loc).Ensures ts fun _ rest =>
      Derives .nested scope ts rest := by
  refine (ensures_block? hs).bind fun body rest h => ?_
  cases body with
  | none => exact .pure h
  | some body => exact .emit_bind (.pure h)

theorem ensures_inclusion (hs : inner.Sound) (loc : Location) :
    (inclusion inner scope loc).Ensures us fun _ rest =>
      Derives .expr scope (⟨.include, pos⟩ :: us) rest := by
  refine (Ensures.many (fun _ => ensures_includeFilter _) _ _).bind fun filters mid hfilters => ?_
  refine ensures_fileRef.bind fun file mid' hfile => .options_bind fun o => ?_
  rcases hfilters with ⟨filterTokens, rfl⟩
  rcases hfile with ⟨path, place, rfl⟩
  have hderives : ∀ rest, Derives .nested scope mid' rest →
      Derives .expr scope (⟨.include, pos⟩ :: (filterTokens.flatMap FilterToken.tokens ++
        ⟨.path path, place⟩ :: mid')) rest := by
    rintro rest ⟨d, rfl, hg, hl⟩
    exact ⟨.inclusion pos filterTokens path place d, by simp [Derivation.tokens], hg, hl⟩
  cases o.target file.path with
  | raw => exact (ensures_rawInclude hs file filters loc).mono fun _ rest h => hderives rest h
  | template =>
    exact (ensures_templateInclude hs file filters loc).mono fun _ rest h => hderives rest h
  | legacyTemplate =>
    exact .emit_bind ((ensures_templateInclude hs file filters loc).mono fun _ rest h =>
      hderives rest h)

theorem ensures_parent (loc : Location) :
    (parent loc).Ensures us fun _ rest => Derives .expr scope (⟨.extends, pos⟩ :: us) rest := by
  refine ensures_fileRef.bind fun file rest h => .pure ?_
  rcases h with ⟨path, place, rfl⟩
  exact ⟨.parent pos path place, rfl, trivial, trivial⟩

theorem ensures_namedBlock (hs : inner.Sound) (name : String) (mode : BlockMode)
    (loc : Location) :
    (namedBlock inner scope name mode loc).Ensures us fun _ rest =>
      Derives .expr scope (⟨.block name mode, pos⟩ :: us) rest := by
  refine (ensures_blockAt hs loc).bind fun body rest h => .pure ?_
  rcases h with ⟨nested, rfl, hg, hl⟩
  exact ⟨.namedBlock name mode pos nested, rfl, hg, hl⟩

theorem ensures_mixin (hs : inner.Sound) (name : String) (args : Option String)
    (loc : Location) :
    (mixin inner name args loc).Ensures us fun _ rest =>
      Derives .expr scope (⟨.mixin name args, pos⟩ :: us) rest := by
  refine (ensures_block? hs).bind fun body rest h => ?_
  rcases h with ⟨nested, rfl, hg, hl⟩
  have hderives : Derives .expr scope (⟨.mixin name args, pos⟩ :: (nested.tokens ++ rest)) rest :=
    ⟨.mixin name args pos nested, rfl, hg, hl⟩
  cases body with
  | none => exact .emit_bind (.pure hderives)
  | some body => exact .pure hderives

theorem ensures_mixinBlock (loc : Location) :
    (mixinBlock scope loc).Ensures us fun _ rest =>
      Derives .expr scope (⟨.mixinBlock, pos⟩ :: us) rest := by
  unfold mixinBlock
  split
  · rename_i h
    exact .pure ⟨.mixinBlock pos, rfl, trivial, h⟩
  · exact .reject

end Ensures

end Grammar
end Pug
