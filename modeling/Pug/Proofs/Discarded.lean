/-
# What an include discards

The block under the include of a file that is no template is read and thrown away, and so are the
filters of the include of a template. What is thrown away cannot leak into the result, whatever is
in front of the include and behind it: each content that can be read is read from where it begins to
where it ends, and leaves nothing behind but warnings.
-/

import Pug.Proofs.Coupling.Ahead
import Pug.Proofs.Coupling.Change
import Pug.Proofs.Standalone

namespace Pug

open Grammar Coupling

variable {o : Options} {pos place indent outdent : Position} {path : String}

/-- Nothing is asked of the tokens in front of an include. -/
theorem fitting_any : Fitting fun _ _ => True where
  step _ _ _ := trivial
  enter _ _ := trivial
  leave _ _ := trivial

/-- Runs that reach the same place agree. -/
theorem agrees_of_reaches {heeds : Prop} {fits : Nat → List Token → Prop} {head stop : Token}
    {first second rest : List Token} {warnings warnings' : List Warning} {node : Node}
    {run run' : Run Node} {depth : Nat} (h : Run.Reaches node rest stop warnings run)
    (h' : Run.Reaches node rest stop warnings' run') (hheeds : heeds → warnings' = warnings) :
    (changed heeds fits head first second).Agrees
      (fun _ => (changed heeds fits head first second).Meets depth) run run' := by
  cases h with
  | exhausted => exact .exhausted
  | @done c events hahead hstop hwarnings =>
    cases h' with
    | exhausted => exact .exhausted'
    | @done c' events' hahead' hstop' hwarnings' =>
      have hheard : (changed heeds fits head first second).Heard events events' := by
        intro h
        rw [hwarnings, hwarnings', hheeds h]
        exact (move_stay_warnings _).symm
      have hmeets : (changed heeds fits head first second).Meets depth c c' :=
        ⟨.inl (hahead'.trans hahead.symm), hstop'.trans hstop.symm⟩
      have hdone := Agrees.done (Q := fun _ => (changed heeds fits head first second).Meets depth)
        (a := node) hmeets hheard
      have hmoved : (changed heeds fits head first second).places.move node = node :=
        Node.move_stay node
      rwa [hmoved] at hdone

section Raw

/-- The filters of an include, its path, and a block under it. -/
def withBlock (filters : List FilterToken) (path : String) (place indent outdent : Position)
    (ts : List Token) : List Token :=
  filters.flatMap FilterToken.tokens ++
    ⟨.path path, place⟩ :: ⟨.indent, indent⟩ :: (ts ++ [⟨.outdent, outdent⟩])

/-- **An include of a file with a block under it is gone past as a whole.** -/
theorem reaches_rawInclude (htarget : o.target (Text.trim path) = .raw)
    (filters : List FilterToken) {ts : List Token} {tree : Block} (hfree : EosFree ts)
    (h : (parse o ts).verdict? = some (.ok tree)) (n : Nat) (scope : Scope) {c : Cursor}
    {rest : List Token}
    (hc : c.ahead = ⟨.include, pos⟩ :: (withBlock filters path place indent outdent ts ++ rest)) :
    ∃ warnings, Run.Reaches
      (.rawInclude ⟨Text.trim path, o.place place⟩ (filters.map (FilterToken.filter o))
        (o.place pos)) rest c.stop warnings ((expr (.ofDepth n) scope).run o c) := by
  let content : Indented o := ⟨indent, ts, outdent, tree, hfree, Run.exists_done h⟩
  obtain ⟨b, htokens, -, -, hgreedy, hlawful⟩ := content.exists_derivation
  have hsound := sound_relocated .stay o
  have htakes := takes_expr (covers_ofDepth o _)
    (.inclusion pos filters path place (.someBlock b)) (Nat.le_refl _) (hgreedy (.of rest))
    (hlawful scope)
  have hahead : c.ahead =
      (Derivation.inclusion pos filters path place (.someBlock b)).tokens ++ rest := by
    rw [hc, withBlock, Derivation.tokens, Derivation.tokens, htokens]
    rfl
  have hreaches := htakes.reaches (coupled_expr hsound (coupled_ofDepth hsound n _) scope)
    Node.move_stay hahead
  rw [Derivation.meaning, if_pos htarget] at hreaches
  exact ⟨_, hreaches⟩

/-- **The content of a block that is thrown away is of no account.** -/
theorem sound_withBlock (htarget : o.target (Text.trim path) = .raw)
    (filters : List FilterToken) {ts ts' : List Token} {tree tree' : Block} (hfree : EosFree ts)
    (hfree' : EosFree ts') (h : (parse o ts).verdict? = some (.ok tree))
    (h' : (parse o ts').verdict? = some (.ok tree')) :
    (changed False (fun _ _ => True) ⟨.include, pos⟩
      (withBlock filters path place indent outdent ts)
      (withBlock filters path place indent outdent ts')).Sound o := by
  refine sound_changed fitting_any (.inr rfl) nofun
    fun _ depth rest n n' scope c c' hahead hahead' hstop => ?_
  obtain ⟨warnings, hreaches⟩ := reaches_rawInclude htarget filters hfree h n scope hahead
  obtain ⟨warnings', hreaches'⟩ := reaches_rawInclude htarget filters hfree' h' n' scope hahead'
  rw [hstop] at hreaches'
  exact agrees_of_reaches hreaches hreaches' False.elim

theorem eosFree_withBlock (filters : List FilterToken) {ts : List Token} (hfree : EosFree ts) :
    EosFree (withBlock filters path place indent outdent ts) := by
  simp [withBlock, hfree]

theorem getLast?_withBlock (t : Token) (filters : List FilterToken) (ts : List Token) :
    (t :: withBlock filters path place indent outdent ts).getLast? =
      some ⟨.outdent, outdent⟩ := by
  have hsplit : t :: withBlock filters path place indent outdent ts =
      (t :: (filters.flatMap FilterToken.tokens ++
        ⟨.path path, place⟩ :: ⟨.indent, indent⟩ :: ts)) ++ [⟨.outdent, outdent⟩] := by
    simp [withBlock]
  rw [hsplit, List.getLast?_concat]

theorem exists_verdict_withBlock (htarget : o.target (Text.trim path) = .raw)
    (p r : List Token) (pos place indent outdent : Position) (filters : List FilterToken)
    {ts ts' : List Token} {tree tree' : Block} (hfree : EosFree ts) (hfree' : EosFree ts')
    (h : (parse o ts).verdict? = some (.ok tree))
    (h' : (parse o ts').verdict? = some (.ok tree')) :
    ∃ verdict,
      (parse o (p ++ ⟨.include, pos⟩ ::
        (withBlock filters path place indent outdent ts ++ r))).verdict? = some verdict ∧
      (parse o (p ++ ⟨.include, pos⟩ ::
        (withBlock filters path place indent outdent ts' ++ r))).verdict? = some verdict := by
  obtain ⟨verdict, hverdict, hverdict', -⟩ := exists_verdict_changed r
    (sound_withBlock htarget filters hfree hfree' h h') (fun _ => trivial)
    ((eosFree_cons _ _).2 ⟨nofun, eosFree_withBlock filters hfree⟩)
    ((eosFree_cons _ _).2 ⟨nofun, eosFree_withBlock filters hfree'⟩)
    ((getLast?_withBlock _ filters ts).trans (getLast?_withBlock _ filters ts').symm)
  exact ⟨verdict, hverdict, hverdict'⟩

end Raw

section Template

/-- Runs that are coupled in place agree. -/
theorem agrees_of_relocated {heeds : Prop} {fits : Nat → List Token → Prop} {head : Token}
    {first second : List Token} {run run' : Run Node} {depth : Nat}
    (h : (relocated .stay).Agrees (fun _ => (relocated .stay).Meets depth) run run') :
    (changed heeds fits head first second).Agrees
      (fun _ => (changed heeds fits head first second).Meets depth) run run' := by
  cases h with
  | done hc hevents =>
    exact .done ⟨.inl (hc.1.trans (move_stay_tokens _)), hc.2⟩ fun _ => hevents trivial
  | failed hevents => exact .failed fun _ => hevents trivial
  | exhausted => exact .exhausted
  | exhausted' => exact .exhausted'
  | refused he => exact he.elim

/-- The events of filters are no warnings. -/
theorem warnings_trail (filters : List FilterToken) :
    (filters.flatMap FilterToken.trail).filterMap Event.warning? = [] := by
  induction filters with
  | nil => rfl
  | cons f filters ih =>
    rw [List.flatMap_cons, List.filterMap_append, ih, FilterToken.trail]
    cases f.group <;> rfl

/-- **The filters of an include are gone past.** -/
theorem reaches_filters (filters : List FilterToken) (n : Nat) {c : Cursor} {rest : List Token}
    (hc : c.ahead = filters.flatMap FilterToken.tokens ++ ⟨.path path, place⟩ :: rest) :
    Run.Reaches (filters.map (FilterToken.filter o)) (⟨.path path, place⟩ :: rest) c.stop []
      ((Reader.many (includeFilter n) n).run o c) := by
  have hsound := sound_relocated .stay o
  rw [← warnings_trail filters]
  exact (takes_includeFilters _ _ filters path place (Nat.lt_succ_self _) (Nat.le_refl _)).reaches
    (.many (coupled_includeFilter hsound) n _) move_stay_filters hc

theorem run_fileRef {c : Cursor} (h : c.peek = ⟨.path path, place⟩) :
    fileRef.run o c = ⟨.done ⟨Text.trim path, o.place place⟩ c.advance, []⟩ := by
  rw [fileRef, Reader.run_bind, Reader.run_peek, Run.andThen_done, Run.after_nil, h]
  rfl

/-- From a path on, what an include of a template reads does not depend on its filters. -/
theorem agrees_fromPath (htarget : o.target (Text.trim path) ≠ .raw) (n n' : Nat) (scope : Scope)
    (filters filters' : List IncludeFilter) (loc : Location) {depth : Nat} {c c' : Cursor}
    {rest : List Token} (hahead : c.ahead = ⟨.path path, place⟩ :: rest)
    (hahead' : c'.ahead = ⟨.path path, place⟩ :: rest) (hstop : c'.stop = c.stop) :
    (relocated .stay).Agrees (fun _ => (relocated .stay).Meets depth)
      ((fileRef >>= behindPath (.ofDepth n) scope loc filters).run o c)
      ((fileRef >>= behindPath (.ofDepth n') scope loc filters').run o c') := by
  have hsound := sound_relocated .stay o
  have hmeets : (relocated .stay).Meets depth c.advance c'.advance :=
    meets_behind hahead hahead' hstop (move_stay_tokens rest).symm
  rw [Reader.run_bind, Reader.run_bind, run_fileRef (Cursor.peek_of_ahead hahead),
    run_fileRef (Cursor.peek_of_ahead hahead'), Run.andThen_done, Run.andThen_done,
    Run.after_nil, Run.after_nil]
  have hinner := coupled_ofDepth hsound n n'
  have hcoupled : Reader.Coupled (relocated .stay) o ((relocated .stay).Meets depth)
      (behindPath (.ofDepth n) scope loc filters ⟨Text.trim path, o.place place⟩)
      (behindPath (.ofDepth n') scope loc filters' ⟨Text.trim path, o.place place⟩)
      fun _ => (relocated .stay).Meets depth :=
    @coupled_behindPath (relocated .stay) o depth _ _ hsound hinner scope loc
      ⟨Text.trim path, o.place place⟩ filters filters' fun hraw => absurd hraw htarget
  exact hcoupled c.advance c'.advance hmeets

/-- **The filters in front of a template are of no account.** -/
theorem sound_filters (htarget : o.target (Text.trim path) ≠ .raw)
    (filters filters' : List FilterToken) :
    (changed True (fun _ _ => True) ⟨.include, pos⟩
      (filters.flatMap FilterToken.tokens ++ [⟨.path path, place⟩])
      (filters'.flatMap FilterToken.tokens ++ [⟨.path path, place⟩])).Sound o := by
  refine sound_changed fitting_any (.inr rfl) nofun
    fun _ depth rest n n' scope c c' hahead hahead' hstop => ?_
  have hbehind : c.advance.ahead =
      filters.flatMap FilterToken.tokens ++ ⟨.path path, place⟩ :: rest := by
    rw [Cursor.ahead_advance hahead, List.append_assoc]
    rfl
  have hbehind' : c'.advance.ahead =
      filters'.flatMap FilterToken.tokens ++ ⟨.path path, place⟩ :: rest := by
    rw [Cursor.ahead_advance hahead', List.append_assoc]
    rfl
  have hreaches := reaches_filters (o := o) filters (Inner.ofDepth n).rounds hbehind
  have hreaches' := reaches_filters (o := o) filters' (Inner.ofDepth n').rounds hbehind'
  rw [Cursor.stop_advance hahead] at hreaches
  rw [Cursor.stop_advance hahead', hstop] at hreaches'
  rw [run_expr_include (Cursor.peek_of_ahead hahead),
    run_expr_include (Cursor.peek_of_ahead hahead')]
  rw [inclusion, inclusion, Reader.run_bind, Reader.run_bind]
  -- In front of the path the cursors may differ in what was put back, but not in what is ahead.
  generalize (Reader.many _ _).run o c.advance = run at *
  generalize (Reader.many _ _).run o c'.advance = run' at *
  cases hreaches with
  | exhausted => exact .exhausted
  | @done d events hd hstop hwarnings =>
    cases hreaches' with
    | exhausted => exact .exhausted'
    | @done d' events' hd' hstop' hwarnings' =>
      rw [Run.andThen_done, Run.andThen_done]
      refine Agrees.after (agrees_of_relocated ?_) (heard_silent hwarnings hwarnings')
      exact agrees_fromPath htarget n n' scope _ _ (o.place pos) hd hd' (hstop'.trans hstop.symm)

theorem exists_verdict_filters (htarget : o.target (Text.trim path) ≠ .raw) (p r : List Token)
    (pos place : Position) (filters filters' : List FilterToken) :
    ∃ verdict,
      (parse o (p ++ ⟨.include, pos⟩ :: (filters.flatMap FilterToken.tokens ++
        [⟨.path path, place⟩] ++ r))).verdict? = some verdict ∧
      (parse o (p ++ ⟨.include, pos⟩ :: (filters'.flatMap FilterToken.tokens ++
        [⟨.path path, place⟩] ++ r))).verdict? = some verdict ∧
      (parse o (p ++ ⟨.include, pos⟩ :: (filters'.flatMap FilterToken.tokens ++
        [⟨.path path, place⟩] ++ r))).warnings =
      (parse o (p ++ ⟨.include, pos⟩ :: (filters.flatMap FilterToken.tokens ++
        [⟨.path path, place⟩] ++ r))).warnings := by
  have hlast : ∀ fs : List FilterToken, ((⟨.include, pos⟩ : Token) ::
      (fs.flatMap FilterToken.tokens ++ [⟨.path path, place⟩])).getLast? =
        some ⟨.path path, place⟩ := by
    intro fs
    rw [← List.cons_append, List.getLast?_concat]
  have hfree : ∀ fs : List FilterToken, EosFree ((⟨.include, pos⟩ : Token) ::
      (fs.flatMap FilterToken.tokens ++ [⟨.path path, place⟩])) := by
    intro fs
    simp
  obtain ⟨verdict, hverdict, hverdict', hwarnings⟩ :=
    exists_verdict_changed r (sound_filters htarget filters filters') (fun _ => trivial)
      (hfree filters) (hfree filters') ((hlast filters).trans (hlast filters').symm)
  exact ⟨verdict, hverdict, hverdict', hwarnings trivial⟩

end Template

/-- **Content that is discarded cannot leak into the result,** in whatever surroundings. Under the
include of a file that is no template, one content that can be read is as good as another one, but
for warnings. In front of the path of a template, some filters are as good as others. -/
theorem parse_discarded (o : Options) (p r : List Token) (pos place : Position) (path : String) :
    (∀ (filters : List FilterToken) (indent outdent : Position) (ts ts' : List Token),
      o.target (Text.trim path) = .raw → EosFree ts → EosFree ts' →
      (∃ tree, (parse o ts).verdict? = some (.ok tree)) →
      (∃ tree, (parse o ts').verdict? = some (.ok tree)) →
      ∃ verdict,
        (parse o (p ++ [⟨.include, pos⟩] ++ filters.flatMap FilterToken.tokens ++
          [⟨.path path, place⟩, ⟨.indent, indent⟩] ++ ts ++ [⟨.outdent, outdent⟩] ++
          r)).verdict? = some verdict ∧
        (parse o (p ++ [⟨.include, pos⟩] ++ filters.flatMap FilterToken.tokens ++
          [⟨.path path, place⟩, ⟨.indent, indent⟩] ++ ts' ++ [⟨.outdent, outdent⟩] ++
          r)).verdict? = some verdict) ∧
    ∀ filters filters' : List FilterToken, o.target (Text.trim path) ≠ .raw →
      ∃ verdict,
        (parse o (p ++ [⟨.include, pos⟩] ++ filters.flatMap FilterToken.tokens ++
          [⟨.path path, place⟩] ++ r)).verdict? = some verdict ∧
        (parse o (p ++ [⟨.include, pos⟩] ++ filters'.flatMap FilterToken.tokens ++
          [⟨.path path, place⟩] ++ r)).verdict? = some verdict ∧
        (parse o (p ++ [⟨.include, pos⟩] ++ filters'.flatMap FilterToken.tokens ++
          [⟨.path path, place⟩] ++ r)).warnings =
        (parse o (p ++ [⟨.include, pos⟩] ++ filters.flatMap FilterToken.tokens ++
          [⟨.path path, place⟩] ++ r)).warnings := by
  constructor
  · rintro filters indent outdent ts ts' htarget hfree hfree' ⟨tree, h⟩ ⟨tree', h'⟩
    have hverdict := exists_verdict_withBlock htarget p r pos place indent outdent filters hfree
      hfree' h h'
    simpa [withBlock] using hverdict
  · intro filters filters' htarget
    have hverdict := exists_verdict_filters htarget p r pos place filters filters'
    simpa using hverdict

/-- A call in the way of old is as good as a text under a file that is no template, and a filter is
as good as none in front of a template. -/
theorem parse_discarded_call :
    (parse .default [⟨.include, ⟨1, 1⟩⟩, ⟨.filter "f", ⟨1, 8⟩⟩, ⟨.path "a.txt", ⟨1, 10⟩⟩,
        ⟨.indent, ⟨2, 1⟩⟩, ⟨.mixin "m" none, ⟨2, 3⟩⟩, ⟨.outdent, ⟨3, 1⟩⟩]).verdict? =
      some (.ok ⟨[.rawInclude ⟨"a.txt", ⟨⟨1, 10⟩, none⟩⟩ [⟨"f", [], ⟨⟨1, 8⟩, none⟩⟩]
        ⟨⟨1, 1⟩, none⟩], ⟨.whole, none⟩⟩) ∧
    (parse .default [⟨.include, ⟨1, 1⟩⟩, ⟨.filter "f", ⟨1, 8⟩⟩,
        ⟨.path "a.pug", ⟨1, 10⟩⟩]).verdict? =
      some (.ok ⟨[.include ⟨"a.pug", ⟨⟨1, 10⟩, none⟩⟩ none ⟨⟨1, 1⟩, none⟩], ⟨.whole, none⟩⟩) := by
  have hraw := (parse_discarded .default [] [] ⟨1, 1⟩ ⟨1, 10⟩ "a.txt").1 [⟨"f", ⟨1, 8⟩, none⟩]
    ⟨2, 1⟩ ⟨3, 1⟩ [⟨.text "x", ⟨2, 3⟩⟩] [⟨.mixin "m" none, ⟨2, 3⟩⟩] (by decide) (by simp) (by simp)
    ⟨_, rfl⟩ ⟨_, rfl⟩
  have htemplate := (parse_discarded .default [] [] ⟨1, 1⟩ ⟨1, 10⟩ "a.pug").2 []
    [⟨"f", ⟨1, 8⟩, none⟩] (by decide)
  obtain ⟨verdict, hverdict, hverdict'⟩ := hraw
  obtain ⟨verdict', htree, htree', -⟩ := htemplate
  cases hverdict
  cases htree
  exact ⟨hverdict', htree'⟩

end Pug
