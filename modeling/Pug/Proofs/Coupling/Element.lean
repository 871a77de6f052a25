/-
# Elements read side by side

Heads, text and the bodies of elements correspond in two readings that are coupled. The token
behind the attributes of a group is gone past and put back by both. A run of text over several
lines is the only reader of text in which the first reading may have one line break more: the
break adds nothing, since another one comes behind it.
-/

import Pug.Proofs.Coupling.Reader
import Pug.Proofs.Reading.Element

namespace Pug

open Reader Coupling

namespace Grammar

variable {k : Coupling} {o : Options} {P : Cursor → Cursor → Prop} {depth : Nat}
  {inner inner' : Inner} {rounds rounds' : Nat}

/-- Whether a name is repeated does not depend on where the attributes are. -/
theorem repeats_move (ρ : Relocation) (attrs : List Attribute) (name : String) :
    repeats (ρ.move attrs) name = repeats attrs name := by
  have hany : ((ρ.move attrs).any fun a => decide (a.name = name)) =
      attrs.any fun a => decide (a.name = name) := List.any_map
  simp only [repeats, hany]

theorem coupled_addDistinct (attrs : List Attribute) (a : Attribute) :
    Reader.Coupled k o P (addDistinct attrs a)
      (addDistinct (k.places.move attrs) (k.places.move a)) fun _ => P := by
  have hname : (k.places.move a).name = a.name := rfl
  unfold addDistinct
  rw [hname, repeats_move]
  split
  · exact .reject
  · exact .pure_eq (move_append k.places attrs [a])

variable (hk : k.Sound o)
include hk

theorem coupled_groupItem_attribute (distinct : Bool) (attrs : List Attribute)
    (name value : String) (escaped : Bool) (pos : Position) :
    Reader.Coupled k o (k.At depth ⟨.attribute name value escaped, pos⟩)
      (groupItem distinct attrs) (groupItem distinct (k.places.move attrs))
      (Leaves (k.Meets depth) (k.Meets depth)) := by
  unfold groupItem advance
  rw [bind_assoc, bind_assoc]
  refine .at_bind hk ?_
  rw [bind_assoc, bind_assoc]
  refine .take_bind hk rfl ?_
  rw [pure_bind, pure_bind]
  refine .locate_bind fun loc => ?_
  cases distinct with
  | false => exact .round_eq (move_append k.places attrs [⟨name, value, escaped, loc⟩])
  | true => exact (coupled_addDistinct attrs ⟨name, value, escaped, loc⟩).bind fun _ => .round

/-- **An attribute is taken, and any other token is put back.** -/
theorem coupled_groupItem (distinct : Bool) (attrs : List Attribute) :
    Reader.Coupled k o (k.Meets depth) (groupItem distinct attrs)
      (groupItem distinct (k.places.move attrs)) (Leaves (k.Meets depth) (k.Meets depth)) := by
  intro c c' hc
  by_cases h : c.peek.terminal = .attribute
  · obtain ⟨name, value, escaped, pos, hat⟩ :
        ∃ name value escaped pos, c.peek = ⟨.attribute name value escaped, pos⟩ := by
      generalize c.peek = t at h
      rcases t with ⟨l, pos⟩
      cases l <;> cases h
      exact ⟨_, _, _, _, rfl⟩
    exact coupled_groupItem_attribute hk distinct attrs name value escaped pos c c' ⟨hc, hat⟩
  · have h' : c'.peek.terminal ≠ .attribute := by
      rw [hk.peek_eq hc]
      exact h
    rw [run_groupItem_none h, run_groupItem_none h']
    exact @Agrees.done _ _ k (Leaves _ _) none c.putBack c'.putBack _ _ (Coupling.meets_putBack hc)
      heard_nil

theorem coupled_group (distinct : Bool) (attrs : List Attribute) :
    Reader.Coupled k o (k.Meets depth) (group rounds distinct attrs)
      (group rounds' distinct (k.places.move attrs)) fun _ => k.Meets depth :=
  (Coupled.expect hk .startAttributes rfl).bind fun _ =>
    (Coupled.iterate (coupled_groupItem hk distinct) rounds rounds' attrs).bind fun _ =>
      (Coupled.expect hk .endAttributes rfl).bind fun _ => .pure

theorem coupled_filterAttributes :
    Reader.Coupled k o (k.Meets depth) (filterAttributes rounds) (filterAttributes rounds')
      fun _ => k.Meets depth := by
  refine (Coupled.lookingAt hk).bind fun found => ?_
  cases found with
  | false => exact .pure
  | true => exact coupled_group hk false []

theorem coupled_headItem (head : Head) :
    Reader.Coupled k o (k.Meets depth) (headItem rounds head)
      (headItem rounds' (k.places.move head)) (Leaves (k.Meets depth) (k.Meets depth)) := by
  refine .peek_bind hk fun l pos => .locate_bind fun loc => ?_
  cases l with
  | idName value =>
    exact .take_bind hk rfl ((coupled_addDistinct head.listed ⟨"id", value, false, loc⟩).bind
      fun _ => .round)
  | className value =>
    exact .take_bind hk rfl ((coupled_addDistinct head.listed ⟨"class", value, false, loc⟩).bind
      fun _ => .round)
  | andAttributes expr =>
    have hspreads := move_append k.places head.spreads [⟨expr, loc⟩]
    exact .take_bind hk rfl (.round_eq
      (congrArg (fun spreads => Head.mk ⟨k.places.move head.listed, spreads⟩ head.grouped)
        hspreads))
  | startAttributes =>
    exact Coupled.warnIf.bind fun _ =>
      (coupled_group hk true head.listed).of_at.bind fun _ => .round
  | _ => exact .of_at .stop

theorem coupled_attributes :
    Reader.Coupled k o (k.Meets depth) (attributes rounds) (attributes rounds')
      fun _ => k.Meets depth :=
  (Coupled.iterate (coupled_headItem hk) rounds rounds' .empty).bind fun _ => .pure

/-- Behind a line break of a run both readings keep it, or both do not. -/
theorem coupled_keptBreak (loc : Location) :
    Reader.Coupled k o (k.Meets depth)
      (do
        let next ← peek
        return some (if keepsBreak next then [Node.text "\n" false loc] else []))
      (do
        let next ← peek
        return some (if keepsBreak next then [Node.text "\n" false (k.places.move loc)] else []))
      (Leaves (k.Meets depth) (k.Meets depth)) := by
  refine .peek_bind hk fun l pos => ?_
  have hmoved : keepsBreak ⟨l, k.places.pos pos⟩ = keepsBreak ⟨l, pos⟩ := rfl
  rw [hmoved]
  cases keepsBreak ⟨l, pos⟩ with
  | false => exact .of_at .round
  | true => exact .of_at .round

variable (hs : inner.Coupled k o inner')
include hs

theorem coupled_block? (scope : Scope) :
    Reader.Coupled k o (k.Meets depth) (inner.block? scope) (inner'.block? scope)
      fun _ => k.Meets depth := by
  refine (Coupled.lookingAt hk).bind fun found => ?_
  cases found with
  | false => exact .pure
  | true => exact (hs.block depth scope).bind fun _ => .pure

theorem coupled_blockAt (scope : Scope) (loc : Location) :
    Reader.Coupled k o (k.Meets depth) (inner.blockAt scope loc)
      (inner'.blockAt scope (k.places.move loc)) fun _ => k.Meets depth :=
  (coupled_block? hk hs scope).bind fun body => .pure_eq (by rw [move_getD, move_empty])

theorem coupled_interpolation (scope : Scope) (pos : Position) :
    Reader.Coupled k o (k.At depth ⟨.startInterpolation, pos⟩) (interpolation inner scope)
      (interpolation inner' scope) fun _ => k.Meets depth :=
  .take_bind hk rfl ((hs.expr depth scope).bind fun _ =>
    (Coupled.expect hk .endInterpolation rfl).bind fun _ => .pure)

/-- **One part of a run.** A line break that the first reading alone goes past has another one
behind it, so it is not kept. -/
theorem lags_runItem (scope : Scope) :
    Lags k o depth (runItem inner scope true) (runItem inner' scope true) (k.Meets depth) := by
  refine .of_peek hk (fun pos c c' hc => ?_) fun l pos hl => ?_
  · rcases hk.meets_newline hc rfl with hboth | ⟨-, hone⟩
    · exact .inl (coupled_keptBreak hk (o.place pos) c.advance c'.advance hboth)
    · refine .inr ⟨c.advance, ?_, hone⟩
      have hnext : keepsBreak c.advance.peek = false := by
        rw [keepsBreak, Token.terminal, hk.lexeme_peek_advance hc hone]
        rfl
      have hrun : (if keepsBreak c.advance.peek then [Node.text "\n" false (o.place pos)] else []) =
          [] := by rw [hnext]; rfl
      exact congrArg (fun nodes => (⟨.done (some nodes) c.advance, []⟩ : Run _)) hrun
  · refine .locate_bind fun loc => ?_
    cases l with
    | newline => exact absurd rfl hl
    | text value => exact .take_bind hk rfl .round
    | interpolatedCode c => exact .take_bind hk rfl .round
    | startInterpolation => exact (coupled_interpolation hk hs scope pos).bind fun _ => .round
    | _ => exact .of_at .stop

theorem coupled_runItem (scope : Scope) :
    Reader.Coupled k o (k.Meets depth) (runItem inner scope false) (runItem inner' scope false)
      (Leaves (k.Meets depth) (k.Meets depth)) := by
  refine .peek_bind hk fun l pos => .locate_bind fun loc => ?_
  cases l with
  | text value => exact .take_bind hk rfl .round
  | interpolatedCode c => exact .take_bind hk rfl .round
  | startInterpolation => exact (coupled_interpolation hk hs scope pos).bind fun _ => .round
  | _ => exact .of_at .stop

theorem coupled_textRun (scope : Scope) (multiline : Bool) :
    Reader.Coupled k o (k.Meets depth) (textRun inner scope multiline)
      (textRun inner' scope multiline) fun _ => k.Meets depth := by
  refine .peek_bind hk fun l pos => .of_at (.locate_bind fun loc => ?_)
  cases multiline with
  | false =>
    refine (Coupled.many (coupled_runItem hk hs scope) _ _).bind fun parts => .pure_eq ?_
    rw [move_gather, move_flatten]
  | true =>
    have hg : ∀ nodes nodes', k.places.move nodes = nodes' →
        Reader.Coupled k o (k.Meets depth) (Pure.pure (gather loc nodes))
          (Pure.pure (gather (k.places.move loc) nodes')) fun _ => k.Meets depth :=
      fun nodes nodes' hnodes => .pure_eq (by rw [move_gather, hnodes])
    exact (lags_runItem hk hs scope).bind inner.rounds inner'.rounds hg

/-- One part of a verbatim region, with the end of the region. -/
theorem coupled_verbatimItem (scope : Scope) :
    Reader.Coupled k o (k.Meets (depth + 1)) (verbatimItem inner scope)
      (verbatimItem inner' scope) (Leaves (k.Meets (depth + 1)) (k.Meets depth)) := by
  refine .peek_bind hk fun l pos => .locate_bind fun loc => ?_
  cases l with
  | endPipelessText => exact .leave_bind hk .stop
  | text value => exact .take_bind hk rfl .round
  | newline => exact .break_bind hk .round
  | interpolatedCode c => exact .take_bind hk rfl .round
  | startInterpolation => exact (coupled_interpolation hk hs scope pos).bind fun _ => .round
  | _ => exact .reject

/-- **A verbatim region, if one begins.** The readings are at the depth of before it again. -/
theorem coupled_verbatim? (scope : Scope) :
    Reader.Coupled k o (k.Meets depth) (verbatim? inner scope) (verbatim? inner' scope)
      fun _ => k.Meets depth := by
  refine .peek_bind hk fun l pos => ?_
  refine .ite (fun hl => ?_) fun _ => .of_at .pure
  obtain rfl : l = .startPipelessText := Lexeme.eq_of_terminal hl rfl
  refine .enter_bind hk (.locate_bind fun loc => ?_)
  refine (Coupled.many (coupled_verbatimItem hk hs scope) _ _).bind fun nodes => .pure_eq ?_
  rw [move_some, move_block]

theorem coupled_verbatimAt (scope : Scope) (loc : Location) :
    Reader.Coupled k o (k.Meets depth) (verbatimAt inner scope loc)
      (verbatimAt inner' scope (k.places.move loc)) fun _ => k.Meets depth :=
  (coupled_verbatim? hk hs scope).bind fun body => .pure_eq (by rw [move_getD, move_empty])

theorem coupled_content (scope : Scope) (loc : Location) (closable : Bool) :
    Reader.Coupled k o (k.Meets depth) (content inner scope loc closable)
      (content inner' scope (k.places.move loc) closable) fun _ => k.Meets depth := by
  have hline : ∀ nodes : List Node, k.places.move (Content.mk false ⟨nodes, loc⟩) =
      ⟨false, ⟨k.places.move nodes, k.places.move loc⟩⟩ :=
    fun nodes => congrArg (Content.mk false) (move_block k.places nodes loc)
  have hrun : Reader.Coupled k o (k.Meets depth)
      (do return (⟨false, ⟨(← textRun inner scope false).spliced, loc⟩⟩ : Content))
      (do return (⟨false, ⟨(← textRun inner' scope false).spliced, k.places.move loc⟩⟩ : Content))
      fun _ => k.Meets depth :=
    (coupled_textRun hk hs scope false).bind fun node => .pure_eq (by rw [hline, move_spliced])
  refine .peek_bind hk fun l pos => .locate_bind fun place => ?_
  cases l with
  | text value => exact .of_at hrun
  | interpolatedCode c => exact .of_at hrun
  | code c => exact .take_bind hk rfl (.pure_eq (hline _))
  | colon =>
    refine .take_bind hk rfl ((hs.expr depth scope).bind fun node => .pure_eq ?_)
    exact congrArg (Content.mk false) (move_asBody k.places node place)
  | slash =>
    cases closable with
    | false => exact .unexpected
    | true =>
      exact .take_bind hk rfl (.pure_eq (congrArg (Content.mk true) (move_empty k.places loc)))
  | newline => exact .of_at (.pure_eq (hline []))
  | indent => exact .of_at (.pure_eq (hline []))
  | outdent => exact .of_at (.pure_eq (hline []))
  | eos => exact .of_at (.pure_eq (hline []))
  | startPipelessText => exact .of_at (.pure_eq (hline []))
  | endInterpolation => exact .of_at (.pure_eq (hline []))
  | _ => exact .unexpected

theorem coupled_tail (scope : Scope) (loc : Location) (textOnly : Bool) (line : Block) :
    Reader.Coupled k o (k.Meets depth) (tail inner scope loc textOnly line)
      (tail inner' scope (k.places.move loc) textOnly (k.places.move line))
      fun _ => k.Meets depth := by
  cases textOnly with
  | true => exact coupled_verbatimAt hk hs scope loc
  | false =>
    refine (coupled_blockAt hk hs scope loc).bind fun nested => .pure_eq ?_
    rcases line with ⟨nodes, place⟩
    rw [move_block, move_block, move_append, move_nodes]

/-- **The body of an element.** -/
theorem coupled_body (scope : Scope) (loc : Location) (closable : Bool) :
    Reader.Coupled k o (k.Meets depth) (body inner scope loc closable)
      (body inner' scope (k.places.move loc) closable) fun _ => k.Meets depth := by
  refine (coupled_attributes hk).bind fun attrs => ?_
  refine (Coupled.accept hk .dot rfl).bind fun textOnly => ?_
  refine (coupled_content hk hs scope loc closable).bind fun line => ?_
  refine (Coupled.skipNewlines hk).bind fun _ => ?_
  exact (coupled_tail hk hs scope loc textOnly line.block).bind fun block => .pure

theorem coupled_element (scope : Scope) (name : String) (loc : Location) :
    Reader.Coupled k o (k.Meets depth) (element inner scope name loc)
      (element inner' scope name (k.places.move loc)) fun _ => k.Meets depth :=
  (coupled_body hk hs scope loc true).bind fun _ => .pure

theorem coupled_interpolatedElement (scope : Scope) (expr : String) (loc : Location) :
    Reader.Coupled k o (k.Meets depth) (interpolatedElement inner scope expr loc)
      (interpolatedElement inner' scope expr (k.places.move loc)) fun _ => k.Meets depth :=
  (coupled_body hk hs scope loc true).bind fun _ => .pure

theorem coupled_call (scope : Scope) (name : String) (args : Option String) (loc : Location) :
    Reader.Coupled k o (k.Meets depth) (call inner scope name args loc)
      (call inner' scope name args (k.places.move loc)) fun _ => k.Meets depth := by
  refine (coupled_body hk hs scope loc false).bind fun b => .pure_eq ?_
  rw [move_mixin, move_callBody]
  rfl

/-- A shorthand takes the token that it puts in front of itself at once. -/
theorem coupled_shorthandElement (scope : Scope) (pos : Position) :
    Reader.Coupled k o (k.Meets depth) (shorthandElement inner scope pos)
      (shorthandElement inner' scope (k.places.pos pos)) fun _ => k.Meets depth :=
  (Coupled.emit rfl rfl).bind fun _ => .defer_skip_bind
    (.locate_bind fun loc => coupled_element hk hs scope "div" loc)

end Grammar
end Pug
