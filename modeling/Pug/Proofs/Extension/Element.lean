/-
# Elements in front of more tokens

Heads, text and the bodies of elements are read on in front of more tokens. A group of
attributes is read as a whole: the token that it puts back is taken again by the next step,
which does not see the difference. What is refused because it repeats a name is refused as
soon as it is read, whatever comes behind it.
-/

import Pug.Proofs.Extension.Basic
import Pug.Proofs.Reading.Element

namespace Pug

open Reader

namespace Grammar

variable {frame : Frame} {o : Options} {inner inner' : Inner} {rounds rounds' : Nat}
  {ts : List Token}

theorem firm_addDistinct (attrs : List Attribute) (a : Attribute) :
    Firm frame o (addDistinct attrs a) (addDistinct attrs a) ts := by
  unfold addDistinct
  split
  · exact .reject
  · exact Steady.pure.firm

/-- An attribute of a group is taken, or refused because it repeats a name. -/
theorem steady_groupItem_attribute (distinct : Bool) (attrs : List Attribute)
    (name value : String) (escaped : Bool) (pos : Position) :
    Steady frame o (groupItem distinct attrs) (groupItem distinct attrs)
      (⟨.attribute name value escaped, pos⟩ :: ts) := by
  unfold groupItem advance
  rw [bind_assoc]
  refine .peek_bind (fun h => absurd h (List.cons_ne_nil _ _)) fun l place us hts => ?_
  obtain ⟨⟨rfl, rfl⟩, rfl⟩ : (_ ∧ _) ∧ _ := by simpa using hts
  rw [bind_assoc]
  refine .take_bind (by simp [Lexeme.terminal]) ?_
  rw [pure_bind]
  refine .locate_bind ?_
  cases distinct with
  | false => exact Steady.pure.firm
  | true => exact (firm_addDistinct attrs _).bind fun _ _ => .pure

theorem steady_groupTail (distinct : Bool) (h : rounds ≤ rounds') (attrs : List Attribute) :
    Steady frame o (groupTail rounds distinct attrs) (groupTail rounds' distinct attrs) ts := by
  induction rounds generalizing rounds' attrs ts with
  | zero => exact Steady.exhausted
  | succ rounds ih =>
    obtain ⟨rounds', rfl⟩ := Nat.exists_eq_succ_of_ne_zero (Nat.ne_zero_of_lt h)
    have hstop : ∀ attrs rest, Steady frame o
        (do
          let _ ← expect .endAttributes
          return attrs : Reader (List Attribute))
        (do
          let _ ← expect .endAttributes
          return attrs) rest :=
      fun _ _ => Steady.expect.bind fun _ _ => .pure
    by_cases hnext : (Lookahead.of ts).next = .attribute
    · obtain ⟨name, value, escaped, pos, us, rfl⟩ :=
        Lookahead.exists_cons_of_next_attribute hnext
      simp only [groupTail, iterate, bind_assoc]
      refine (steady_groupItem_attribute distinct attrs name value escaped pos).bind
        fun x rest => ?_
      cases x with
      | none => exact hstop attrs rest
      | some attrs => exact ih (Nat.le_of_succ_le_succ h) attrs
    · have hdry : frame.Spent ts → ∀ finish, Dry frame ts finish
          ((groupTail (rounds + 1) distinct attrs).run o (.before finish ts)) := by
        intro hd finish
        rw [run_groupTail distinct attrs hnext]
        exact ((hstop attrs ts).dry hd finish).after _
      cases ts with
      | nil => exact ⟨fun finish _ => .dry (hdry Frame.spent_nil finish), hdry⟩
      | cons t us =>
        have hmore : (Lookahead.of (t :: us ++ frame.more)).next ≠ .attribute := hnext
        exact ⟨.of_after (hstop attrs _).firm (run_groupTail distinct attrs hnext)
          (run_groupTail distinct attrs hmore), hdry⟩

theorem steady_group (h : rounds ≤ rounds') (distinct : Bool) (attrs : List Attribute) :
    Steady frame o (group rounds distinct attrs) (group rounds' distinct attrs) ts :=
  Steady.expect.bind fun _ _ => steady_groupTail distinct h attrs

theorem steady_filterAttributes (h : rounds ≤ rounds') :
    Steady frame o (filterAttributes rounds) (filterAttributes rounds') ts := by
  refine Steady.lookingAt.bind fun found rest => ?_
  cases found with
  | false => exact .pure
  | true => exact steady_group h false []

theorem steady_headItem (h : rounds ≤ rounds') (head : Head) :
    Steady frame o (headItem rounds head) (headItem rounds' head) ts := by
  refine .peek_bind (fun _ pos => .pure) fun l pos us _ => .locate_bind ?_
  cases l with
  | idName value =>
    exact .take_bind (by simp [Lexeme.terminal]) ((firm_addDistinct _ _).bind fun _ _ => .pure)
  | className value =>
    exact .take_bind (by simp [Lexeme.terminal]) ((firm_addDistinct _ _).bind fun _ _ => .pure)
  | andAttributes expr => exact .skip_bind fun _ => .pure
  | startAttributes =>
    exact Steady.emitIf.bind fun _ _ => (steady_group h true _).bind fun _ _ => .pure
  | _ => exact .pure

theorem steady_attributes (h : rounds ≤ rounds') :
    Steady frame o (attributes rounds) (attributes rounds') ts :=
  (Steady.iterate (fun head _ => steady_headItem h head) h _ _).bind fun _ _ => .pure

variable (hs : inner.Steady frame o inner')
include hs

theorem steady_block? (scope : Scope) :
    Reader.Steady frame o (inner.block? scope) (inner'.block? (frame.scope scope)) ts := by
  refine Steady.lookingAt.bind fun found rest => ?_
  cases found with
  | false => exact .pure
  | true => exact (hs.block scope rest).bind fun _ _ => .pure

theorem steady_blockAt (scope : Scope) (loc : Location) :
    Reader.Steady frame o (inner.blockAt scope loc) (inner'.blockAt (frame.scope scope) loc) ts :=
  (steady_block? hs scope).bind fun _ _ => .pure

/-- An interpolation that begins is read to its end. -/
theorem steady_interpolation (scope : Scope) :
    Reader.Steady frame o (interpolation inner scope)
      (interpolation inner' (frame.scope scope)) ts := by
  refine .skip_bind fun rest => ?_
  refine (hs.expr scope rest).bind fun node _ => ?_
  exact Steady.expect.bind fun _ _ => .pure

theorem steady_runItem (scope : Scope) (multiline : Bool) :
    Reader.Steady frame o (runItem inner scope multiline)
      (runItem inner' (frame.scope scope) multiline) ts := by
  refine .peek_bind (fun _ pos => .pure) fun l pos us _ => .locate_bind ?_
  cases l with
  | text value => exact .skip_bind fun _ => .pure
  | interpolatedCode c => exact .skip_bind fun _ => .pure
  | startInterpolation => exact (steady_interpolation hs scope).bind fun _ _ => .pure
  | newline =>
    cases multiline with
    | false => exact .pure
    | true => exact .skip_bind fun _ => .any_bind fun _ => .pure
  | _ => exact .pure

theorem steady_textRun (scope : Scope) (multiline : Bool) :
    Reader.Steady frame o (textRun inner scope multiline)
      (textRun inner' (frame.scope scope) multiline) ts := by
  refine .any_bind fun t => .locate_bind ?_
  exact (Steady.many (fun _ => steady_runItem hs scope multiline) hs.rounds ts).bind
    fun _ _ => .pure

theorem steady_verbatimItem (scope : Scope) :
    Reader.Steady frame o (verbatimItem inner scope)
      (verbatimItem inner' (frame.scope scope)) ts := by
  refine .peek_bind (fun _ pos => .locate_bind (.of_end rfl)) fun l pos us _ => .locate_bind ?_
  cases l with
  | endPipelessText => exact .skip_bind fun _ => .pure
  | text value => exact .skip_bind fun _ => .pure
  | newline => exact .skip_bind fun _ => .pure
  | interpolatedCode c => exact .skip_bind fun _ => .pure
  | startInterpolation => exact (steady_interpolation hs scope).bind fun _ _ => .pure
  | _ => exact .reject rfl

theorem steady_verbatim? (scope : Scope) :
    Reader.Steady frame o (verbatim? inner scope) (verbatim? inner' (frame.scope scope)) ts := by
  refine .any_bind fun t => ?_
  split
  · exact .skip_bind fun rest => .locate_bind
      ((Steady.many (fun _ => steady_verbatimItem hs scope) hs.rounds rest).bind fun _ _ => .pure)
  · exact .pure

theorem steady_verbatimAt (scope : Scope) (loc : Location) :
    Reader.Steady frame o (verbatimAt inner scope loc)
      (verbatimAt inner' (frame.scope scope) loc) ts :=
  (steady_verbatim? hs scope).bind fun _ _ => .pure

theorem steady_content (scope : Scope) (loc : Location) (closable : Bool) :
    Reader.Steady frame o (content inner scope loc closable)
      (content inner' (frame.scope scope) loc closable) ts := by
  refine .peek_bind (fun _ pos => .locate_bind .pure) fun l pos us _ => .locate_bind ?_
  cases l with
  | text value => exact (steady_textRun hs scope false).bind fun _ _ => .pure
  | interpolatedCode c => exact (steady_textRun hs scope false).bind fun _ _ => .pure
  | code c => exact .skip_bind fun _ => .pure
  | colon => exact .skip_bind fun rest => (hs.expr scope rest).bind fun _ _ => .pure
  | slash =>
    cases closable with
    | false => exact .unexpected
    | true => exact .skip_bind fun _ => .pure
  | newline => exact .pure
  | indent => exact .pure
  | outdent => exact .pure
  | eos => exact .pure
  | startPipelessText => exact .pure
  | endInterpolation => exact .pure
  | _ => exact .unexpected

theorem steady_tail (scope : Scope) (loc : Location) (textOnly : Bool) (line : Block) :
    Reader.Steady frame o (tail inner scope loc textOnly line)
      (tail inner' (frame.scope scope) loc textOnly line) ts := by
  cases textOnly with
  | false => exact (steady_blockAt hs scope loc).bind fun _ _ => .pure
  | true => exact steady_verbatimAt hs scope loc

/-- **The body of an element is read on in front of more tokens.** -/
theorem steady_body (scope : Scope) (loc : Location) (closable : Bool) :
    Reader.Steady frame o (body inner scope loc closable)
      (body inner' (frame.scope scope) loc closable) ts := by
  refine (steady_attributes hs.rounds).bind fun attrs _ => ?_
  refine Steady.accept.bind fun textOnly _ => ?_
  refine (steady_content hs scope loc closable).bind fun line _ => ?_
  refine Steady.skipNewlines.bind fun _ _ => ?_
  exact (steady_tail hs scope loc textOnly line.block).bind fun _ _ => .pure

theorem steady_element (scope : Scope) (name : String) (loc : Location) :
    Reader.Steady frame o (element inner scope name loc)
      (element inner' (frame.scope scope) name loc) ts :=
  (steady_body hs scope loc true).bind fun _ _ => .pure

theorem steady_interpolatedElement (scope : Scope) (expr : String) (loc : Location) :
    Reader.Steady frame o (interpolatedElement inner scope expr loc)
      (interpolatedElement inner' (frame.scope scope) expr loc) ts :=
  (steady_body hs scope loc true).bind fun _ _ => .pure

theorem steady_call (scope : Scope) (name : String) (args : Option String) (loc : Location) :
    Reader.Steady frame o (call inner scope name args loc)
      (call inner' (frame.scope scope) name args loc) ts :=
  (steady_body hs scope loc false).bind fun _ _ => .pure

theorem firm_shorthandElement (scope : Scope) (pos : Position) :
    Firm frame o (shorthandElement inner scope pos)
      (shorthandElement inner' (frame.scope scope) pos) ts :=
  .of_after (steady_element hs scope "div" (o.place pos)).firm
    (fun finish => run_shorthandElement inner scope pos o finish ts)
    fun finish => run_shorthandElement inner' (frame.scope scope) pos o finish (ts ++ frame.more)

end Grammar
end Pug
