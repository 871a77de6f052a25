/-
# Records that are written and read again

What a record is written as is an object whose members have different names, so a member that
is looked up is found behind all others, whichever other members the object has. Readers
therefore look at a record's own members only, and this is also how the members of two records
can stand in one object: those of a location with the kind of an error, those of code with the
rest of a node.

Each record that has no tree in it is read back from what it is written as.
-/

import Pug.Json.Options
import Pug.Json.Report
import Pug.Json.Tree

namespace Pug

namespace Json

section Members

variable {α : Type} {read : Json → Option α} {name other : String} {value : Json} {default : α}
  {members : List (String × Json)}

theorem member?_cons_self : (object ((name, value) :: members)).member? name = some value := by
  simp [member?]

theorem member?_cons_of_ne (h : name ≠ other) :
    (object ((other, value) :: members)).member? name = (object members).member? name := by
  simp [member?, List.lookup_cons, beq_false_of_ne h]

@[simp] theorem required_cons_self :
    (object ((name, value) :: members)).required read name = read value := by
  rw [required, member?_cons_self, Option.bind_some]

@[simp] theorem required_cons_of_ne (h : name ≠ other) :
    (object ((other, value) :: members)).required read name =
      (object members).required read name := by
  rw [required, required, member?_cons_of_ne h]

@[simp] theorem optional_cons_self (h : value ≠ .null) :
    (object ((name, value) :: members)).optional read name = (read value).map some := by
  rw [optional, member?_cons_self]
  cases value <;> first | rfl | exact absurd rfl h

@[simp] theorem optional_cons_null :
    (object ((name, .null) :: members)).optional read name = some none := by
  rw [optional, member?_cons_self]

@[simp] theorem optional_cons_of_ne (h : name ≠ other) :
    (object ((other, value) :: members)).optional read name =
      (object members).optional read name := by
  rw [optional, optional, member?_cons_of_ne h]

@[simp] theorem defaulted_cons_self :
    (object ((name, value) :: members)).defaulted read name default = read value := by
  rw [defaulted, member?_cons_self]

@[simp] theorem defaulted_cons_of_ne (h : name ≠ other) :
    (object ((other, value) :: members)).defaulted read name default =
      (object members).defaulted read name default := by
  rw [defaulted, defaulted, member?_cons_of_ne h]

/-- A string that may be absent is read back, where it is written. -/
@[simp] theorem optional_string (text : Option String) :
    (object ((name, ofString? text) :: members)).optional string? name = some text := by
  cases text <;> simp [ofString?]

end Members

end Json

theorem Location.ofJson?_members (l : Location) (members : List (String × Json)) :
    Location.ofJson? (.object (l.members ++ members)) = some l := by
  simp [Location.ofJson?, Location.members, Position.ofJson?, Position.members]

@[simp] theorem Location.ofJson?_toJson (l : Location) : Location.ofJson? l.toJson = some l := by
  simpa [Location.toJson] using l.ofJson?_members []

/-! ### What tokens carry -/

@[simp] theorem Terminal.ofJson?_toJson (terminal : Terminal) :
    Terminal.ofJson? terminal.toJson = some terminal := by
  simp [Terminal.ofJson?, Terminal.toJson]

@[simp] theorem BlockMode.ofJson?_toJson (mode : BlockMode) :
    BlockMode.ofJson? mode.toJson = some mode := by
  cases mode <;> rfl

@[simp] theorem Lexeme.ofJson?_toJson (l : Lexeme) : Lexeme.ofJson? l.toJson = some l := by
  cases l <;> simp [Lexeme.ofJson?, Lexeme.toJson, Lexeme.payload, Lexeme.terminal,
    Lexeme.ofPayload?, Code.ofJson?, Code.members, Iteration.ofJson?, Iteration.members]

/-! ### What trees carry -/

@[simp] theorem Attribute.ofJson?_toJson (a : Attribute) :
    Attribute.ofJson? a.toJson = some a := by
  simp [Attribute.ofJson?, Attribute.toJson]

@[simp] theorem Spread.ofJson?_toJson (s : Spread) : Spread.ofJson? s.toJson = some s := by
  simp [Spread.ofJson?, Spread.toJson]

@[simp] theorem FileRef.ofJson?_toJson (f : FileRef) : FileRef.ofJson? f.toJson = some f := by
  simp [FileRef.ofJson?, FileRef.toJson]

@[simp] theorem IncludeFilter.ofJson?_toJson (f : IncludeFilter) :
    IncludeFilter.ofJson? f.toJson = some f := by
  simp [IncludeFilter.ofJson?, IncludeFilter.toJson, IncludeFilter.members, Json.list?_ofList]

/-! ### Reports -/

@[simp] theorem Fault.ofJson?_toJson (f : Fault) : Fault.ofJson? f.toJson = some f := by
  cases f <;> simp [Fault.ofJson?, Fault.toJson, Json.variant?, Json.unit?, Json.list?_ofList]

@[simp] theorem Advice.ofJson?_toJson (a : Advice) : Advice.ofJson? a.toJson = some a := by
  cases a <;> simp [Advice.ofJson?, Advice.toJson, Json.variant?, Json.unit?]

namespace Token

/-- A token is read back from what it is written as. -/
theorem ofJson?_toJson (t : Token) : ofJson? t.toJson = some t := by
  simp [ofJson?, toJson, Position.ofJson?, Position.members]

end Token
end Pug
