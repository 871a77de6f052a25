/-
# Productions read side by side

Every production corresponds in two readings that are coupled, if what is nested in it does. The
loops over lists of productions, over lines of HTML and over the branches of a case drop line
breaks, so a break that only the first reading has is of no account there. A conditional looks past
all line breaks at once. An include is the place where the coupling itself may have to say how the
readings come together again.
-/

import Pug.Grammar.Document
import Pug.Proofs.Coupling.Element

namespace Pug

open Reader Coupling

namespace Grammar

variable {k : Coupling} {o : Options} {P : Cursor → Cursor → Prop} {depth : Nat}
  {inner inner' : Inner} {rounds rounds' : Nat}

theorem coupled_mixinBlock (scope : Scope) (loc : Location) :
    Reader.Coupled k o P (mixinBlock scope loc) (mixinBlock scope (k.places.move loc))
      fun _ => P := by
  unfold mixinBlock
  split
  · exact .pure
  · exact .reject

theorem run_expr_include {scope : Scope} {c : Cursor} {pos : Position}
    (h : c.peek = ⟨.include, pos⟩) :
    (expr inner scope).run o c = (inclusion inner scope (o.place pos)).run o c.advance := by
  rw [expr, run_bind, run_peek, Run.andThen_done, Run.after_nil, h]
  rfl

variable (hk : k.Sound o)
include hk

/-- One token of a region of code, with the end of the region. -/
theorem coupled_codeItem :
    Reader.Coupled k o (k.Meets (depth + 1)) codeItem codeItem
      (Leaves (k.Meets (depth + 1)) (k.Meets depth)) := by
  refine .peek_bind hk fun l pos => ?_
  cases l with
  | endPipelessText => exact .leave_bind hk .stop
  | text value => exact .take_bind hk rfl .round
  | newline => exact .break_bind hk .round
  | _ => exact .reject

theorem coupled_codeRegion :
    Reader.Coupled k o (k.Meets depth) (codeRegion rounds) (codeRegion rounds')
      fun _ => k.Meets depth := by
  refine (Coupled.accept_region hk).bind fun found => ?_
  cases found with
  | false => exact .pure
  | true =>
    refine (Coupled.many (coupled_codeItem hk) _ _).bind fun lines => .pure_eq ?_
    rw [move_strings]
    rfl

theorem coupled_blockCode (loc : Location) :
    Reader.Coupled k o (k.Meets depth) (blockCode rounds loc)
      (blockCode rounds' (k.places.move loc)) fun _ => k.Meets depth :=
  (coupled_codeRegion hk).bind fun _ => .pure

theorem coupled_fileRef :
    Reader.Coupled k o (k.Meets depth) fileRef fileRef fun _ => k.Meets depth := by
  refine .peek_bind hk fun l pos => ?_
  cases l with
  | path path => exact .take_bind hk rfl (.locate_bind fun _ => .pure)
  | _ => exact .unexpected

theorem coupled_includeFilter :
    Reader.Coupled k o (k.Meets depth) (includeFilter rounds) (includeFilter rounds')
      (Leaves (k.Meets depth) (k.Meets depth)) := by
  refine .peek_bind hk fun l pos => ?_
  cases l with
  | filter name =>
    refine .take_bind hk rfl (.locate_bind fun loc => ?_)
    exact (coupled_filterAttributes hk).bind fun _ => .round
  | _ => exact .of_at .stop

theorem coupled_parent (loc : Location) :
    Reader.Coupled k o (k.Meets depth) (parent loc) (parent (k.places.move loc))
      fun _ => k.Meets depth :=
  (coupled_fileRef hk).bind fun _ => .pure

variable (hs : inner.Coupled k o inner')
include hs

/-- Line breaks between lines of HTML are dropped. -/
theorem lags_htmlItem (scope : Scope) :
    Lags k o depth (htmlItem inner scope) (htmlItem inner' scope) (k.Meets depth) := by
  refine .of_blank hk (fun _ => rfl) (fun _ => rfl) fun l pos hl => ?_
  cases l with
  | newline => exact absurd rfl hl
  | textHtml value => exact .take_bind hk rfl (.locate_bind fun _ => .round)
  | indent => exact (hs.block depth scope).of_at.bind fun b => .round_eq (move_nodes ..).symm
  | _ => exact .of_at .stop

theorem coupled_html (scope : Scope) :
    Reader.Coupled k o (k.Meets depth) (html inner scope) (html inner' scope)
      fun _ => k.Meets depth := by
  have hjoin : ∀ nodes nodes', k.places.move nodes = nodes' →
      Reader.Coupled k o (k.Meets depth) (Pure.pure (joinHtml nodes))
        (Pure.pure (joinHtml nodes')) fun _ => k.Meets depth :=
    fun nodes nodes' hnodes => .pure_eq (by rw [move_joinHtml, hnodes])
  rw [html_eq, html_eq]
  exact (lags_htmlItem hk hs scope).bind inner.rounds inner'.rounds hjoin

/-- Line breaks between the productions of a list are dropped. -/
theorem lags_item (scope : Scope) {stop : Terminal} (hstop : stop ≠ .newline) :
    Lags k o depth (item inner scope stop) (item inner' scope stop) (k.Stops depth stop) := by
  refine .of_blank hk (fun _ => if_neg hstop.symm) (fun _ => if_neg hstop.symm) fun l pos hl => ?_
  refine .ite (fun h => .stop_at h) fun _ => ?_
  cases l with
  | newline => exact absurd rfl hl
  | textHtml value => exact (coupled_html hk hs scope).of_at.bind fun _ => .round
  | _ =>
    exact (hs.expr depth scope).of_at.bind fun node => .round_eq (move_spliced ..)

theorem coupled_items (scope : Scope) {stop : Terminal} (hstop : stop ≠ .newline) :
    Reader.Coupled k o (k.Meets depth) (items inner scope stop) (items inner' scope stop)
      fun _ => k.Stops depth stop := by
  have hnodes : ∀ nodes nodes' : List Node, k.places.move nodes = nodes' →
      Reader.Coupled k o (k.Stops depth stop) (Pure.pure nodes) (Pure.pure nodes')
        fun _ => k.Stops depth stop := fun _ _ h => .pure_eq h
  exact (lags_item hk hs scope hstop).bind inner.rounds inner'.rounds hnodes

/-- **An indented list.** -/
theorem coupled_block (scope : Scope) :
    Reader.Coupled k o (k.Meets depth) (block inner scope) (block inner' scope)
      fun _ => k.Meets depth := by
  refine (Coupled.expect hk .indent rfl).bind fun t => .locate_bind fun loc => ?_
  have hstop : Terminal.outdent ≠ .newline := nofun
  refine (coupled_items hk hs scope hstop).bind fun nodes => ?_
  exact .stop_bind hk rfl (.pure_eq (move_block ..))

theorem coupled_mixin (name : String) (args : Option String) (loc : Location) :
    Reader.Coupled k o (k.Meets depth) (mixin inner name args loc)
      (mixin inner' name args (k.places.move loc)) fun _ => k.Meets depth := by
  refine (coupled_block? hk hs .mixinBody).bind fun body => ?_
  cases body with
  | none => exact Coupled.warn.bind fun _ => .pure_eq (move_mixin ..)
  | some body => exact .pure_eq (move_mixin ..)

/-- **The alternates of a conditional.** Both readings look past all line breaks, and go past them
if an alternate comes behind. -/
theorem coupled_alternates (scope : Scope) (rounds rounds' : Nat) :
    Reader.Coupled k o (k.Meets depth) (alternates inner scope rounds)
      (alternates inner' scope rounds') fun _ => k.Meets depth := by
  induction rounds generalizing rounds' with
  | zero => exact .exhausted
  | succ rounds ih =>
    cases rounds' with
    | zero => exact .exhausted'
    | succ rounds' =>
      refine .past_bind hk fun l pos => ?_
      cases l with
      | elseIf test =>
        refine (Coupled.skipNewlines_past hk).bind fun _ => .take_bind hk rfl ?_
        refine .locate_bind fun loc => (coupled_blockAt hk hs scope loc).bind fun consequent => ?_
        exact (ih rounds').bind fun alternate => .pure_eq (congrArg some (move_elseIf ..))
      | «else» =>
        refine (Coupled.skipNewlines_past hk).bind fun _ => .take_bind hk rfl ?_
        refine (coupled_block? hk hs scope).bind fun body => .pure_eq ?_
        cases body <;> rfl
      | _ =>
        -- The line breaks that both have looked past are still ahead.
        exact .of_past .pure

theorem coupled_conditional (scope : Scope) (test : String) (loc : Location) :
    Reader.Coupled k o (k.Meets depth) (conditional inner scope test loc)
      (conditional inner' scope test (k.places.move loc)) fun _ => k.Meets depth := by
  refine (coupled_blockAt hk hs scope loc).bind fun consequent => ?_
  exact (coupled_alternates hk hs scope _ _).bind fun alternate => .pure_eq (move_conditional ..)

theorem coupled_expansion (scope : Scope) :
    Reader.Coupled k o (k.Meets depth) (expansion inner scope) (expansion inner' scope)
      fun _ => k.Meets depth := by
  refine .peek_bind hk fun l pos => .ite (fun hl => ?_) fun _ => (hs.block depth scope).of_at
  obtain rfl : l = .colon := Lexeme.eq_of_terminal hl rfl
  refine .take_bind hk rfl (.locate_bind fun loc => ?_)
  exact (hs.expr depth scope).bind fun node => .pure_eq (move_asBody ..)

theorem coupled_whenBody (scope : Scope) :
    Reader.Coupled k o (k.Meets depth) (whenBody inner scope) (whenBody inner' scope)
      fun _ => k.Meets depth := by
  refine .peek_bind hk fun l pos => .of_at (.ite (fun _ => .pure) fun _ => ?_)
  exact (coupled_expansion hk hs scope).bind fun _ => .pure

/-- Line breaks and comments between the branches of a case are dropped. -/
theorem lags_caseItem (scope : Scope) :
    Lags k o depth (caseItem inner scope) (caseItem inner' scope) (k.Stops depth .outdent) := by
  refine .of_blank hk (fun _ => rfl) (fun _ => rfl) fun l pos hl => .locate_bind fun loc => ?_
  cases l with
  | newline => exact absurd rfl hl
  | outdent => exact .stop_at rfl
  | comment value buffered => exact .take_bind hk rfl .round
  | when e =>
    refine .take_bind hk rfl ((coupled_whenBody hk hs scope).bind fun body => .round_eq ?_)
    rw [move_cons, move_when]
    rfl
  | default =>
    exact .take_bind hk rfl ((coupled_expansion hk hs scope).bind fun body => .round)
  | _ => exact .unexpected

theorem coupled_caseOf (scope : Scope) (e : String) (loc : Location) :
    Reader.Coupled k o (k.Meets depth) (caseOf inner scope e loc)
      (caseOf inner' scope e (k.places.move loc)) fun _ => k.Meets depth := by
  refine (Coupled.expect hk .indent rfl).bind fun t => .locate_bind fun place => ?_
  have hnode : ∀ nodes nodes' : List Node, k.places.move nodes = nodes' →
      Reader.Coupled k o (k.Stops depth .outdent)
        (skip >>= fun _ => Pure.pure (Node.case e ⟨nodes, place⟩ loc))
        (skip >>= fun _ => Pure.pure (Node.case e ⟨nodes', k.places.move place⟩
          (k.places.move loc))) fun _ => k.Meets depth := by
    rintro nodes _ rfl
    exact .stop_bind hk rfl (.pure_eq (congrArg (Node.case e · _) (move_block ..)))
  exact (lags_caseItem hk hs scope).bind inner.rounds inner'.rounds hnode

theorem coupled_whileLoop (scope : Scope) (test : String) (loc : Location) :
    Reader.Coupled k o (k.Meets depth) (whileLoop inner scope test loc)
      (whileLoop inner' scope test (k.places.move loc)) fun _ => k.Meets depth :=
  (coupled_blockAt hk hs scope loc).bind fun _ => .pure

theorem coupled_emptyCase (scope : Scope) :
    Reader.Coupled k o (k.Meets depth) (emptyCase inner scope) (emptyCase inner' scope)
      fun _ => k.Meets depth := by
  refine (Coupled.accept hk .else rfl).bind fun found => ?_
  cases found with
  | false => exact .pure
  | true => exact (hs.block depth scope).bind fun _ => .pure

theorem coupled_eachLoop (scope : Scope) (iteration : Iteration) (loc : Location) :
    Reader.Coupled k o (k.Meets depth) (eachLoop inner scope iteration loc)
      (eachLoop inner' scope iteration (k.places.move loc)) fun _ => k.Meets depth :=
  (hs.block depth scope).bind fun _ => (coupled_emptyCase hk hs scope).bind fun _ =>
    .pure_eq (move_each ..)

theorem coupled_codeLine (scope : Scope) (c : Code) (loc : Location) :
    Reader.Coupled k o (k.Meets depth) (codeLine inner scope c loc)
      (codeLine inner' scope c (k.places.move loc)) fun _ => k.Meets depth := by
  refine .peek_bind hk fun l pos => .of_at (.ite (fun _ => ?_) fun _ => .pure)
  refine .ite (fun _ => .reject) fun _ => ?_
  exact (hs.block depth scope).bind fun _ => .pure

theorem coupled_filter (scope : Scope) (rounds rounds' : Nat) (name : String) (loc : Location) :
    Reader.Coupled k o (k.Meets depth) (filter inner scope rounds name loc)
      (filter inner' scope rounds' name (k.places.move loc)) fun _ => k.Meets depth := by
  induction rounds generalizing rounds' name loc with
  | zero => exact .exhausted
  | succ rounds ih =>
    cases rounds' with
    | zero => exact .exhausted'
    | succ rounds' =>
      refine (coupled_filterAttributes hk).bind fun attrs => ?_
      refine .peek_bind hk fun l pos => .locate_bind fun place => ?_
      cases l with
      | text value => exact .take_bind hk rfl .pure
      | filter nested =>
        exact .take_bind hk rfl ((ih rounds' nested place).bind fun _ => .pure)
      | _ => exact .of_at ((coupled_verbatimAt hk hs scope loc).bind fun _ => .pure)

theorem coupled_comment (scope : Scope) (value : String) (buffered : Bool) (loc : Location) :
    Reader.Coupled k o (k.Meets depth) (comment inner scope value buffered loc)
      (comment inner' scope value buffered (k.places.move loc)) fun _ => k.Meets depth := by
  refine (coupled_verbatim? hk hs scope).bind fun body => ?_
  cases body with
  | none => exact .pure
  | some body => exact .pure

theorem coupled_templateInclude (scope : Scope) (file : FileRef)
    (filters filters' : List IncludeFilter) (loc : Location) :
    Reader.Coupled k o (k.Meets depth) (templateInclude inner scope file filters loc)
      (templateInclude inner' scope (k.places.move file) filters' (k.places.move loc))
      fun _ => k.Meets depth :=
  (Coupled.emitIf rfl rfl).bind fun _ => (coupled_block? hk hs scope).bind fun _ =>
    .pure_eq (move_include ..)

theorem coupled_rawInclude (scope : Scope) (file : FileRef) (filters : List IncludeFilter)
    (loc : Location) :
    Reader.Coupled k o (k.Meets depth) (rawInclude inner scope file filters loc)
      (rawInclude inner' scope (k.places.move file) (k.places.move filters) (k.places.move loc))
      fun _ => k.Meets depth := by
  refine (coupled_block? hk hs scope).bind fun discarded => ?_
  cases discarded with
  | none => exact .pure
  | some discarded => exact (Coupled.emit rfl rfl).bind fun _ => .pure

/-- **Behind the path of an include,** what is read of the filters depends on what is included. -/
theorem coupled_behindPath (scope : Scope) (loc : Location) (file : FileRef)
    (filters filters' : List IncludeFilter)
    (hfilters : o.target file.path = .raw → k.places.move filters = filters') :
    Reader.Coupled k o (k.Meets depth) (behindPath inner scope loc filters file)
      (behindPath inner' scope (k.places.move loc) filters' (k.places.move file))
      fun _ => k.Meets depth := by
  refine .options_bind ?_
  have htarget : (k.places.options o).target (k.places.move file).path = o.target file.path := rfl
  rw [htarget]
  cases h : o.target file.path with
  | raw =>
    rw [← hfilters h]
    exact coupled_rawInclude hk hs scope file filters loc
  | template => exact coupled_templateInclude hk hs scope file filters _ loc
  | legacyTemplate =>
    exact Coupled.warn.bind fun _ => coupled_templateInclude hk hs scope file filters _ loc

theorem coupled_inclusion (scope : Scope) (loc : Location) :
    Reader.Coupled k o (k.Meets depth) (inclusion inner scope loc)
      (inclusion inner' scope (k.places.move loc)) fun _ => k.Meets depth :=
  (Coupled.many (coupled_includeFilter hk) _ _).bind fun filters =>
    (coupled_fileRef hk).bind fun file =>
      coupled_behindPath hk hs scope loc file filters _ fun _ => rfl

theorem coupled_namedBlock (scope : Scope) (name : String) (mode : BlockMode) (loc : Location) :
    Reader.Coupled k o (k.Meets depth) (namedBlock inner scope name mode loc)
      (namedBlock inner' scope name mode (k.places.move loc)) fun _ => k.Meets depth :=
  (coupled_blockAt hk hs scope loc).bind fun _ => .pure

/-- **The production at a token** at which the readings cannot go apart. -/
theorem coupled_expr_at (scope : Scope) {l : Lexeme} (pos : Position)
    (hl : l.terminal.parting = false) :
    Reader.Coupled k o (k.At depth ⟨l, pos⟩) (expr inner scope) (expr inner' scope)
      fun _ => k.Meets depth := by
  refine .at_bind hk (.locate_bind fun loc => ?_)
  cases l with
  | tag name | interpolation e | call name args | «include» => cases hl
  | mixin name args => exact .take_bind hk rfl (coupled_mixin hk hs name args loc)
  | mixinBlock => exact .take_bind hk rfl (coupled_mixinBlock scope loc)
  | block name mode => exact .take_bind hk rfl (coupled_namedBlock hk hs scope name mode loc)
  | case e => exact .take_bind hk rfl (coupled_caseOf hk hs scope e loc)
  | «extends» => exact .take_bind hk rfl (coupled_parent hk loc)
  | filter name => exact .take_bind hk rfl (coupled_filter hk hs scope _ _ name loc)
  | doctype value => exact .take_bind hk rfl .pure
  | comment value buffered => exact .take_bind hk rfl (coupled_comment hk hs scope value buffered loc)
  | text value => exact .of_at (coupled_textRun hk hs scope true)
  | interpolatedCode c => exact .of_at (coupled_textRun hk hs scope true)
  | startInterpolation => exact .of_at (coupled_textRun hk hs scope true)
  | textHtml value =>
    exact .of_at ((coupled_html hk hs scope).bind fun nodes => .pure_eq
      (congrArg Node.block (move_block ..)))
  | dot => exact .take_bind hk rfl ((coupled_verbatimAt hk hs scope loc).bind fun _ => .pure)
  | each iteration => exact .take_bind hk rfl (coupled_eachLoop hk hs scope iteration loc)
  | code c => exact .take_bind hk rfl (coupled_codeLine hk hs scope c loc)
  | blockCode => exact .take_bind hk rfl (coupled_blockCode hk loc)
  | «if» test => exact .take_bind hk rfl (coupled_conditional hk hs scope test loc)
  | «while» test => exact .take_bind hk rfl (coupled_whileLoop hk hs scope test loc)
  | yield => exact .take_bind hk rfl .pure
  | idName value => exact .of_at (coupled_shorthandElement hk hs scope pos)
  | className value => exact .of_at (coupled_shorthandElement hk hs scope pos)
  | _ => exact .unexpected

/-- **The production at a token at which the readings may go apart,** where they do not. -/
theorem coupled_expr_goes (scope : Scope) {l : Lexeme} (pos : Position)
    (hl : l.terminal.parting = true) :
    Reader.Coupled k o (k.Goes depth ⟨l, pos⟩) (expr inner scope) (expr inner' scope)
      fun _ => k.Meets depth := by
  refine .goes_bind hk (.locate_bind fun loc => ?_)
  cases l with
  | tag name => exact .go_bind (coupled_element hk hs scope name loc)
  | interpolation e => exact .go_bind (coupled_interpolatedElement hk hs scope e loc)
  | call name args => exact .go_bind (coupled_call hk hs scope name args loc)
  | «include» => exact .go_bind (coupled_inclusion hk hs scope loc)
  | _ => cases hl

omit hs

/-- **Every production** is read alike by both readings, or the coupling says how they go apart. -/
theorem coupled_expr {n n' : Nat} (hs : (Inner.ofDepth n).Coupled k o (.ofDepth n'))
    (scope : Scope) :
    Reader.Coupled k o (k.Meets depth) (expr (.ofDepth n) scope) (expr (.ofDepth n') scope)
      fun _ => k.Meets depth := by
  intro c c' hc
  obtain ⟨l, pos, hpeek⟩ : ∃ l pos, c.peek = ⟨l, pos⟩ := ⟨_, _, rfl⟩
  by_cases hl : l.terminal.parting = true
  · have hne : l ≠ .eos := by
      rintro rfl
      cases hl
    obtain ⟨us, us', hahead, hahead', htokens⟩ := hk.exists_ahead ⟨hc, hpeek⟩ hne
    rcases hk.part htokens hl with hnext | hacross
    · exact coupled_expr_goes hk hs scope pos hl c c'
        ⟨⟨hc, hpeek⟩, meets_behind hahead hahead' hc.2 hnext⟩
    · exact hacross n n' scope c c' hahead hahead' hc.2
  · exact coupled_expr_at hk hs scope pos (Bool.not_eq_true _ ▸ hl) c c' ⟨hc, hpeek⟩

/-- **Whatever the bounds on the depth are,** the readers correspond. -/
theorem coupled_ofDepth (n n' : Nat) : (Inner.ofDepth n).Coupled k o (.ofDepth n') := by
  induction n generalizing n' with
  | zero => exact ⟨fun _ _ => .exhausted, fun _ _ => .exhausted⟩
  | succ n ih =>
    cases n' with
    | zero => exact ⟨fun _ _ => .exhausted', fun _ _ => .exhausted'⟩
    | succ n' =>
      exact ⟨fun _ scope => coupled_expr hk (ih n') scope,
        fun _ scope => coupled_block hk (ih n') scope⟩

end Grammar
end Pug
