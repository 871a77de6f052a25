/-
# Single steps of a reader

What a reader can do: look at the current token or past the line breaks before it,
go past tokens, put one back, leave an event behind, and end. Each step has one
equation for its run.
-/

import Pug.Reader.Basic

namespace Pug
namespace Reader

/-- The options. -/
def options : Reader Options := ⟨fun o c => ⟨.done o c, []⟩⟩

/-- The current token, which stays in place. -/
def peek : Reader Token := ⟨fun _ c => ⟨.done c.peek c, []⟩⟩

/-- The first token that is no line break; all tokens stay in place. -/
def peekPastNewlines : Reader Token := ⟨fun _ c => ⟨.done c.peekPastNewlines c, []⟩⟩

/-- Goes past the current token. -/
def skip : Reader Unit := ⟨fun _ c => ⟨.done () c.advance, []⟩⟩

/-- Goes past the line breaks that come next. -/
def skipNewlines : Reader Unit := ⟨fun _ c => ⟨.done () c.skipNewlines, []⟩⟩

/-- Puts a token back in front of the current one. -/
def defer (t : Token) : Reader Unit :=
  ⟨fun _ c => ⟨.done () (c.defer t), [.deferred (c.defer t).deferred.length]⟩⟩

/-- Leaves an event behind. -/
def emit (e : Event) : Reader Unit := ⟨fun _ c => ⟨.done () c, [e]⟩⟩

/-- Leaves an event behind if a condition holds. -/
def emitIf (condition : Bool) (e : Event) : Reader Unit :=
  if condition then emit e else pure ()

/-- Ends with an error. -/
def fail {α : Type} (e : ParseError) : Reader α := ⟨fun _ _ => ⟨.failed e, []⟩⟩

/-- Ends without a verdict. -/
def exhausted {α : Type} : Reader α := ⟨fun _ _ => ⟨.exhausted, []⟩⟩

/-- The location of a position in the template that is read. -/
def locate (pos : Position) : Reader Location := do
  let o ← options
  pure ⟨pos, o.filename⟩

/-- Ends with a fault at a position. -/
def reject {α : Type} (fault : Fault) (pos : Position) : Reader α := do
  let loc ← locate pos
  fail ⟨fault, loc⟩

/-- Ends with the complaint that the token `t` has no place where it is. -/
def unexpected {α : Type} (t : Token) (expected : List Terminal) : Reader α :=
  reject (.unexpected t.terminal expected) t.pos

/-- Raises a warning. -/
def warn (advice : Advice) (loc : Location) : Reader Unit := emit (.warned ⟨advice, loc⟩)

/-- Whether the current token is of a terminal. -/
def lookingAt (terminal : Terminal) : Reader Bool := do
  let t ← peek
  pure (t.terminal = terminal)

/-- The current token, which is gone past. -/
def advance : Reader Token := do
  let t ← peek
  skip
  pure t

/-- Goes past the current token if it is of a terminal, and tells whether it is. -/
def accept (terminal : Terminal) : Reader Bool := do
  if ← lookingAt terminal then
    skip
    pure true
  else
    pure false

/-- The current token, which has to be of a terminal and is gone past. -/
def expect (terminal : Terminal) : Reader Token := do
  let t ← peek
  if t.terminal = terminal then
    skip
    pure t
  else
    unexpected t [terminal]

variable {α : Type} (o : Options) (c : Cursor)

@[simp] theorem run_options : options.run o c = ⟨.done o c, []⟩ := rfl

@[simp] theorem run_peek : peek.run o c = ⟨.done c.peek c, []⟩ := rfl

@[simp] theorem run_peekPastNewlines :
    peekPastNewlines.run o c = ⟨.done c.peekPastNewlines c, []⟩ := rfl

@[simp] theorem run_skip : skip.run o c = ⟨.done () c.advance, []⟩ := rfl

@[simp] theorem run_skipNewlines : skipNewlines.run o c = ⟨.done () c.skipNewlines, []⟩ := rfl

@[simp] theorem run_defer (t : Token) :
    (defer t).run o c = ⟨.done () (c.defer t), [.deferred (c.deferred.length + 1)]⟩ := rfl

@[simp] theorem run_emit (e : Event) : (emit e).run o c = ⟨.done () c, [e]⟩ := rfl

@[simp] theorem run_fail (e : ParseError) : (fail e : Reader α).run o c = ⟨.failed e, []⟩ := rfl

@[simp] theorem run_exhausted : (exhausted : Reader α).run o c = ⟨.exhausted, []⟩ := rfl

@[simp] theorem run_locate (pos : Position) :
    (locate pos).run o c = ⟨.done ⟨pos, o.filename⟩ c, []⟩ := rfl

@[simp] theorem run_reject (fault : Fault) (pos : Position) :
    (reject fault pos : Reader α).run o c = ⟨.failed ⟨fault, ⟨pos, o.filename⟩⟩, []⟩ := rfl

@[simp] theorem run_unexpected (t : Token) (expected : List Terminal) :
    (unexpected t expected : Reader α).run o c =
      ⟨.failed ⟨.unexpected t.terminal expected, ⟨t.pos, o.filename⟩⟩, []⟩ := rfl

@[simp] theorem run_warn (advice : Advice) (loc : Location) :
    (warn advice loc).run o c = ⟨.done () c, [.warned ⟨advice, loc⟩]⟩ := rfl

@[simp] theorem run_lookingAt (terminal : Terminal) :
    (lookingAt terminal).run o c = ⟨.done (c.peek.terminal = terminal) c, []⟩ := rfl

@[simp] theorem run_advance : advance.run o c = ⟨.done c.peek c.advance, []⟩ := rfl

theorem run_emitIf (condition : Bool) (e : Event) :
    (emitIf condition e).run o c = ⟨.done () c, if condition then [e] else []⟩ := by
  cases condition <;> rfl

theorem run_accept (terminal : Terminal) :
    (accept terminal).run o c =
      if c.peek.terminal = terminal then ⟨.done true c.advance, []⟩ else ⟨.done false c, []⟩ := by
  by_cases h : c.peek.terminal = terminal <;> simp [accept, h]

theorem run_expect (terminal : Terminal) :
    (expect terminal).run o c =
      if c.peek.terminal = terminal then ⟨.done c.peek c.advance, []⟩
      else ⟨.failed ⟨.unexpected c.peek.terminal [terminal], ⟨c.peek.pos, o.filename⟩⟩, []⟩ := by
  by_cases h : c.peek.terminal = terminal <;> simp [expect, h]

end Reader
end Pug
