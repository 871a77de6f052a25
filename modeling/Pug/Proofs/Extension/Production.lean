/-
# Productions in front of more tokens

Every production is read on in front of more tokens, whatever is nested in it. A
conditional is the only one that looks past line breaks before it goes past them. Where
the place of a mixin's block is refused, it is so by the token that announces it, which is
taken before.
-/

import Pug.Grammar.Document
import Pug.Proofs.Extension.Element

namespace Pug

open Reader

namespace Grammar

variable {frame : Frame} {o : Options} {inner inner' : Inner} {rounds rounds' : Nat}
  {ts : List Token}

/-- The place of a mixin's block is refused in the frame too, or the frame explains why it is
refused outside of it. -/
theorem firm_mixinBlock (scope : Scope) (loc : Location) :
    Firm frame o (mixinBlock scope loc) (mixinBlock (frame.scope scope) loc) ts := by
  unfold mixinBlock
  cases hscope : scope.inMixin with
  | true =>
    have hframe : (frame.scope scope).inMixin = true := by simp [Frame.scope, hscope]
    rw [if_pos hframe]
    exact Steady.pure.firm
  | false =>
    cases hmixin : frame.inMixin with
    | true => exact fun _ _ => .dry (.failed (.inr (.inr ⟨rfl, hmixin⟩)))
    | false =>
      have hframe : (frame.scope scope).inMixin = false := by simp [Frame.scope, hscope, hmixin]
      rw [hframe]
      exact .reject

theorem steady_codeItem : Reader.Steady frame o codeItem codeItem ts := by
  refine .peek_bind (fun _ pos => .of_end rfl) fun l pos us _ => ?_
  cases l with
  | endPipelessText => exact .skip_bind fun _ => .pure
  | text value => exact .skip_bind fun _ => .pure
  | newline => exact .skip_bind fun _ => .pure
  | _ => exact .reject rfl

theorem steady_blockCode (h : rounds ≤ rounds') (loc : Location) :
    Reader.Steady frame o (blockCode rounds loc) (blockCode rounds' loc) ts := by
  refine Steady.bind (Steady.accept.bind fun found rest => ?_) fun _ _ => .pure
  cases found with
  | false => exact .pure
  | true => exact (Steady.many (fun _ => steady_codeItem) h rest).bind fun _ _ => .pure

theorem steady_fileRef : Reader.Steady frame o fileRef fileRef ts := by
  refine .peek_bind (fun _ pos => .of_end rfl) fun l pos us _ => ?_
  cases l with
  | path path => exact .skip_bind fun _ => .locate_bind .pure
  | _ => exact .unexpected

theorem steady_includeFilter (h : rounds ≤ rounds') :
    Reader.Steady frame o (includeFilter rounds) (includeFilter rounds') ts := by
  refine .peek_bind (fun _ pos => .pure) fun l pos us _ => ?_
  cases l with
  | filter name =>
    exact .skip_bind fun _ => .locate_bind ((steady_filterAttributes h).bind fun _ _ => .pure)
  | _ => exact .pure

theorem steady_parent (loc : Location) : Reader.Steady frame o (parent loc) (parent loc) ts :=
  steady_fileRef.bind fun _ _ => .pure

variable (hs : inner.Steady frame o inner')
include hs

theorem steady_htmlItem (scope : Scope) :
    Reader.Steady frame o (htmlItem inner scope) (htmlItem inner' (frame.scope scope)) ts := by
  refine .peek_bind (fun _ pos => .pure) fun l pos us _ => ?_
  cases l with
  | textHtml value => exact .skip_bind fun _ => .locate_bind .pure
  | indent => exact (hs.block scope _).bind fun _ _ => .pure
  | newline => exact .skip_bind fun _ => .pure
  | _ => exact .pure

theorem steady_html (scope : Scope) :
    Reader.Steady frame o (html inner scope) (html inner' (frame.scope scope)) ts := by
  rw [html_eq, html_eq]
  exact (Steady.many (fun _ => steady_htmlItem hs scope) hs.rounds ts).bind fun _ _ => .pure

theorem steady_item (scope : Scope) (stop : Terminal) :
    Reader.Steady frame o (item inner scope stop) (item inner' (frame.scope scope) stop) ts := by
  refine .any_bind fun t => ?_
  split
  · exact .pure
  · split
    · exact .skip_bind fun _ => .pure
    · exact (steady_html hs scope).bind fun _ _ => .pure
    · exact (hs.expr scope ts).bind fun _ _ => .pure

theorem steady_items (scope : Scope) (stop : Terminal) :
    Reader.Steady frame o (items inner scope stop) (items inner' (frame.scope scope) stop) ts :=
  (Steady.many (fun _ => steady_item hs scope stop) hs.rounds ts).bind fun _ _ => .pure

/-- **A block is read on in front of more tokens.** -/
theorem steady_block (scope : Scope) :
    Reader.Steady frame o (block inner scope) (block inner' (frame.scope scope)) ts := by
  refine Steady.expect.bind fun t _ => .locate_bind ?_
  refine (steady_items hs scope .outdent).bind fun nodes _ => ?_
  exact .skip_bind fun _ => .pure

theorem steady_mixin (name : String) (args : Option String) (loc : Location) :
    Reader.Steady frame o (mixin inner name args loc) (mixin inner' name args loc) ts := by
  refine (steady_block? hs .mixinBody).bind fun body rest => ?_
  cases body with
  | none => exact Steady.emit.bind fun _ _ => .pure
  | some body => exact .pure

/-- **The alternates of a conditional are read on in front of more tokens.** What stands past
the line breaks in front of an alternate is the same then, unless there are line breaks
alone. -/
theorem steady_alternates (scope : Scope) (h : rounds ≤ rounds') :
    Reader.Steady frame o (alternates inner scope rounds)
      (alternates inner' (frame.scope scope) rounds') ts := by
  induction rounds generalizing rounds' ts with
  | zero => exact .exhausted
  | succ rounds ih =>
    obtain ⟨rounds', rfl⟩ := Nat.exists_eq_succ_of_ne_zero (Nat.ne_zero_of_lt h)
    refine .past_bind none (fun ⟨l, pos⟩ => ?_) fun ⟨l, pos⟩ hl => ?_
    · cases l with
      | elseIf test =>
        refine Steady.skipNewlines.bind fun _ _ => .skip_bind fun _ => .locate_bind ?_
        refine (steady_blockAt hs scope _).bind fun consequent rest => ?_
        exact (ih (Nat.le_of_succ_le_succ h)).bind fun _ _ => .pure
      | «else» =>
        refine Steady.skipNewlines.bind fun _ _ => .skip_bind fun _ => ?_
        exact (steady_block? hs scope).bind fun _ _ => .pure
      | _ => exact .pure
    · cases l with
      | elseIf test => exact absurd List.mem_cons_self hl
      | «else» => exact absurd (List.mem_cons_of_mem _ List.mem_cons_self) hl
      | _ => exact ⟨rfl, rfl⟩

theorem steady_conditional (scope : Scope) (test : String) (loc : Location) :
    Reader.Steady frame o (conditional inner scope test loc)
      (conditional inner' (frame.scope scope) test loc) ts := by
  refine (steady_blockAt hs scope loc).bind fun consequent rest => ?_
  exact (steady_alternates hs scope hs.rounds).bind fun _ _ => .pure

theorem steady_expansion (scope : Scope) :
    Reader.Steady frame o (expansion inner scope) (expansion inner' (frame.scope scope)) ts := by
  refine .any_bind fun t => ?_
  split
  · exact .skip_bind fun rest => .locate_bind ((hs.expr scope rest).bind fun _ _ => .pure)
  · exact hs.block scope ts

theorem steady_whenBody (scope : Scope) :
    Reader.Steady frame o (whenBody inner scope) (whenBody inner' (frame.scope scope)) ts := by
  refine .any_bind fun t => ?_
  split
  · exact .pure
  · exact (steady_expansion hs scope).bind fun _ _ => .pure

theorem steady_caseItem (scope : Scope) :
    Reader.Steady frame o (caseItem inner scope) (caseItem inner' (frame.scope scope)) ts := by
  refine .peek_bind (fun _ pos => .locate_bind (.of_end rfl)) fun l pos us _ => .locate_bind ?_
  cases l with
  | outdent => exact .pure
  | comment value buffered => exact .skip_bind fun _ => .pure
  | newline => exact .skip_bind fun _ => .pure
  | when e => exact .skip_bind fun _ => (steady_whenBody hs scope).bind fun _ _ => .pure
  | default => exact .skip_bind fun _ => (steady_expansion hs scope).bind fun _ _ => .pure
  | _ => exact .unexpected

theorem steady_caseOf (scope : Scope) (e : String) (loc : Location) :
    Reader.Steady frame o (caseOf inner scope e loc)
      (caseOf inner' (frame.scope scope) e loc) ts := by
  refine Steady.expect.bind fun t rest => .locate_bind ?_
  refine (Steady.many (fun _ => steady_caseItem hs scope) hs.rounds rest).bind
    fun branches _ => ?_
  exact .skip_bind fun _ => .pure

theorem steady_whileLoop (scope : Scope) (test : String) (loc : Location) :
    Reader.Steady frame o (whileLoop inner scope test loc)
      (whileLoop inner' (frame.scope scope) test loc) ts :=
  (steady_blockAt hs scope loc).bind fun _ _ => .pure

theorem steady_eachLoop (scope : Scope) (iteration : Iteration) (loc : Location) :
    Reader.Steady frame o (eachLoop inner scope iteration loc)
      (eachLoop inner' (frame.scope scope) iteration loc) ts := by
  have hempty : ∀ rest, Reader.Steady frame o (emptyCase inner scope)
      (emptyCase inner' (frame.scope scope)) rest := by
    intro rest
    refine Steady.accept.bind fun found rest => ?_
    cases found with
    | false => exact .pure
    | true => exact (hs.block scope rest).bind fun _ _ => .pure
  exact (hs.block scope ts).bind fun _ rest => (hempty rest).bind fun _ _ => .pure

theorem steady_codeLine (scope : Scope) (c : Code) (loc : Location) :
    Reader.Steady frame o (codeLine inner scope c loc)
      (codeLine inner' (frame.scope scope) c loc) ts := by
  refine .peek_bind (fun _ pos => .pure) fun l pos us _ => ?_
  split
  · rename_i hindent
    have hl : l.terminal ≠ .newline := fun h => by cases h.symm.trans hindent
    split
    · exact .of_token hl .reject
    · exact (hs.block scope _).bind fun _ _ => .pure
  · exact .pure

theorem steady_filter (scope : Scope) (h : rounds ≤ rounds') (name : String) (loc : Location) :
    Reader.Steady frame o (filter inner scope rounds name loc)
      (filter inner' (frame.scope scope) rounds' name loc) ts := by
  induction rounds generalizing rounds' name loc ts with
  | zero => exact .exhausted
  | succ rounds ih =>
    obtain ⟨rounds', rfl⟩ := Nat.exists_eq_succ_of_ne_zero (Nat.ne_zero_of_lt h)
    refine (steady_filterAttributes hs.rounds).bind fun attrs rest => ?_
    have hverbatim : ∀ rest, Reader.Steady frame o
        (do return Node.filter name attrs (← verbatimAt inner scope loc) loc)
        (do return Node.filter name attrs (← verbatimAt inner' (frame.scope scope) loc) loc)
        rest :=
      fun _ => (steady_verbatimAt hs scope loc).bind fun _ _ => .pure
    refine .peek_bind (fun _ pos => .locate_bind (hverbatim _)) fun l pos us _ => .locate_bind ?_
    cases l with
    | text value => exact .skip_bind fun _ => .pure
    | filter nested =>
      refine .skip_bind fun rest => ?_
      exact (ih (Nat.le_of_succ_le_succ h) nested _).bind fun _ _ => .pure
    | _ => exact hverbatim _

theorem steady_comment (scope : Scope) (value : String) (buffered : Bool) (loc : Location) :
    Reader.Steady frame o (comment inner scope value buffered loc)
      (comment inner' (frame.scope scope) value buffered loc) ts := by
  refine (steady_verbatim? hs scope).bind fun body rest => ?_
  cases body with
  | none => exact .pure
  | some body => exact .pure

theorem steady_templateInclude (scope : Scope) (file : FileRef) (filters : List IncludeFilter)
    (loc : Location) :
    Reader.Steady frame o (templateInclude inner scope file filters loc)
      (templateInclude inner' (frame.scope scope) file filters loc) ts :=
  Steady.emitIf.bind fun _ _ => (steady_block? hs scope).bind fun _ _ => .pure

theorem steady_inclusion (scope : Scope) (loc : Location) :
    Reader.Steady frame o (inclusion inner scope loc)
      (inclusion inner' (frame.scope scope) loc) ts := by
  refine (Steady.many (fun _ => steady_includeFilter hs.rounds) hs.rounds ts).bind
    fun filters _ => steady_fileRef.bind fun file rest => .options_bind ?_
  split
  · refine (steady_block? hs scope).bind fun body rest => ?_
    cases body with
    | none => exact .pure
    | some body => exact Steady.emit.bind fun _ _ => .pure
  · exact steady_templateInclude hs scope file filters loc
  · exact Steady.emit.bind fun _ _ => steady_templateInclude hs scope file filters loc

theorem steady_namedBlock (scope : Scope) (name : String) (mode : BlockMode) (loc : Location) :
    Reader.Steady frame o (namedBlock inner scope name mode loc)
      (namedBlock inner' (frame.scope scope) name mode loc) ts :=
  (steady_blockAt hs scope loc).bind fun _ _ => .pure

/-- **Every production is read on in front of more tokens.** -/
theorem steady_expr (scope : Scope) :
    Reader.Steady frame o (expr inner scope) (expr inner' (frame.scope scope)) ts := by
  refine .peek_bind (fun _ pos => .locate_bind (.of_end rfl)) fun l pos us _ => .locate_bind ?_
  generalize o.place pos = loc
  cases l with
  | tag name => exact .skip_bind fun _ => steady_element hs scope name loc
  | mixin name args => exact .skip_bind fun _ => steady_mixin hs name args loc
  | mixinBlock => exact .take_bind (by simp [Lexeme.terminal]) (firm_mixinBlock scope loc)
  | block name mode => exact .skip_bind fun _ => steady_namedBlock hs scope name mode loc
  | case e => exact .skip_bind fun _ => steady_caseOf hs scope e loc
  | «extends» => exact .skip_bind fun _ => steady_parent loc
  | «include» => exact .skip_bind fun _ => steady_inclusion hs scope loc
  | filter name => exact .skip_bind fun _ => steady_filter hs scope hs.rounds name loc
  | doctype value => exact .skip_bind fun _ => .pure
  | comment value buffered => exact .skip_bind fun _ => steady_comment hs scope value buffered loc
  | text value => exact steady_textRun hs scope true
  | interpolatedCode c => exact steady_textRun hs scope true
  | startInterpolation => exact steady_textRun hs scope true
  | textHtml value => exact (steady_html hs scope).bind fun _ _ => .pure
  | dot => exact .skip_bind fun _ => (steady_verbatimAt hs scope loc).bind fun _ _ => .pure
  | each iteration => exact .skip_bind fun _ => steady_eachLoop hs scope iteration loc
  | code c => exact .skip_bind fun _ => steady_codeLine hs scope c loc
  | blockCode => exact .skip_bind fun _ => steady_blockCode hs.rounds loc
  | «if» test => exact .skip_bind fun _ => steady_conditional hs scope test loc
  | «while» test => exact .skip_bind fun _ => steady_whileLoop hs scope test loc
  | call name args => exact .skip_bind fun _ => steady_call hs scope name args loc
  | interpolation e => exact .skip_bind fun _ => steady_interpolatedElement hs scope e loc
  | yield => exact .skip_bind fun _ => .pure
  | idName value =>
    exact .of_token (by simp [Lexeme.terminal]) (firm_shorthandElement hs scope pos)
  | className value =>
    exact .of_token (by simp [Lexeme.terminal]) (firm_shorthandElement hs scope pos)
  | _ => exact .unexpected

omit hs

/-- **Under a greater bound on the depth, readers read on in front of more tokens.** -/
theorem steady_ofDepth (o : Options) {depth depth' : Nat} (h : depth ≤ depth') :
    (Inner.ofDepth depth).Steady frame o (Inner.ofDepth depth') := by
  induction depth generalizing depth' with
  | zero => exact ⟨Nat.zero_le _, fun _ _ => .exhausted, fun _ _ => .exhausted⟩
  | succ depth ih =>
    obtain ⟨depth', rfl⟩ := Nat.exists_eq_succ_of_ne_zero (Nat.ne_zero_of_lt h)
    have hinner := ih (Nat.le_of_succ_le_succ h)
    exact ⟨h, fun scope _ => steady_expr hinner scope, fun scope _ => steady_block hinner scope⟩

theorem steady_document (o : Options) (more : List Token) {depth depth' : Nat}
    (h : depth ≤ depth') (ts : List Token) :
    Reader.Steady ⟨more, false⟩ o (document (.ofDepth depth)) (document (.ofDepth depth')) ts :=
  .options_bind (Steady.emit.bind fun _ _ =>
    (steady_items (steady_ofDepth o h) .outermost .eos).bind fun _ _ => .pure)

end Grammar
end Pug
