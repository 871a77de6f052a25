/-
# JSON values

Tokens, options, errors, warnings and trees have a form as JSON values. This
module has the values and the ways in which a member of an object is read:

| reader | member absent | member `null` |
| --- | --- | --- |
| `required` | refused | given to the reader of the value |
| `optional` | nothing | nothing |
| `defaulted` | the default | given to the reader of the value |

Members that nobody asks for are ignored. Of the numbers, those written as
natural numbers are told apart from all others, which stand for nothing here.
-/

import Pug.Position

namespace Pug

/-- A JSON value. -/
inductive Json where
  | null
  | bool (value : Bool)
  | nat (value : Nat)
  /-- A number that is not written as a natural number. -/
  | number (text : String)
  | string (value : String)
  | array (items : List Json)
  | object (members : List (String × Json))

namespace Json

/-- A string or `null`. -/
def ofString? : Option String → Json
  | some value => .string value
  | none => .null

/-- The array of the values of a list. -/
def ofList {α : Type} (write : α → Json) (items : List α) : Json := .array (items.map write)

/-- A 64-bit word. -/
def ofWord (n : UInt64) : Json := .nat n.toNat

/-- The member of an object with a given name. -/
def member? (name : String) : Json → Option Json
  | .object members => members.lookup name
  | _ => none

/-- The value of a string. -/
def string? : Json → Option String
  | .string value => some value
  | _ => none

/-- The value of a boolean. -/
def bool? : Json → Option Bool
  | .bool value => some value
  | _ => none

/-- The value of a natural number below `2 ^ 64`. -/
def word? : Json → Option UInt64
  | .nat n => if n < UInt64.size then some (.ofNat n) else none
  | _ => none

/-- The values of an array, all of which have to be readable. -/
def list? {α : Type} (read : Json → Option α) : Json → Option (List α)
  | .array items => items.mapM read
  | _ => none

/-- A member that has to be there. -/
def required {α : Type} (read : Json → Option α) (name : String) (j : Json) : Option α :=
  (j.member? name).bind read

/-- A member that may be absent or `null`. -/
def optional {α : Type} (read : Json → Option α) (name : String) (j : Json) :
    Option (Option α) :=
  match j.member? name with
  | none => some none
  | some .null => some none
  | some value => (read value).map some

/-- A member that may be absent. -/
def defaulted {α : Type} (read : Json → Option α) (name : String) (default : α) (j : Json) :
    Option α :=
  match j.member? name with
  | none => some default
  | some value => read value

/-- The name of a variant with what belongs to it: a string names a variant to which
nothing belongs, an object of one member a variant with the member's value. -/
def variant? : Json → Option (String × Json)
  | .string name => some (name, .null)
  | .object [member] => some member
  | _ => none

mutual

/-- How deep a value is nested. -/
def depth : Json → Nat
  | .array items => depthOfItems items + 1
  | .object members => depthOfMembers members + 1
  | _ => 1

/-- How deep the deepest item is nested. -/
def depthOfItems : List Json → Nat
  | [] => 0
  | item :: items => max item.depth (depthOfItems items)

/-- How deep the deepest member is nested. -/
def depthOfMembers : List (String × Json) → Nat
  | [] => 0
  | (_, value) :: members => max value.depth (depthOfMembers members)

end

@[simp] theorem string?_string (value : String) : (Json.string value).string? = some value := rfl

@[simp] theorem bool?_bool (value : Bool) : (Json.bool value).bool? = some value := rfl

@[simp] theorem word?_ofWord (n : UInt64) : (ofWord n).word? = some n := by
  simp [ofWord, word?, UInt64.toNat_lt_size]

theorem list?_ofList {α : Type} {write : α → Json} {read : Json → Option α} {items : List α}
    (h : ∀ a ∈ items, read (write a) = some a) : list? read (ofList write items) = some items := by
  change (items.map write).mapM read = some items
  induction items with
  | nil => rfl
  | cons a items ih =>
    rw [List.map_cons, List.mapM_cons, h a List.mem_cons_self,
      ih fun b hb => h b (List.mem_cons_of_mem a hb)]
    rfl

end Json

/-- The members of a position. -/
def Position.members (p : Position) : List (String × Json) :=
  [("line", .ofWord p.line), ("column", .ofWord p.column)]

/-- Reads the members of a position. -/
def Position.ofJson? (j : Json) : Option Position := do
  let line ← j.required Json.word? "line"
  let column ← j.required Json.word? "column"
  return ⟨line, column⟩

/-- The members of a location. -/
def Location.members (l : Location) : List (String × Json) :=
  l.toPosition.members ++ [("filename", .ofString? l.filename)]

/-- A location as JSON. -/
def Location.toJson (l : Location) : Json := .object l.members

/-- Reads a location, or the members of one. -/
def Location.ofJson? (j : Json) : Option Location := do
  let pos ← Position.ofJson? j
  let filename ← j.optional Json.string? "filename"
  return ⟨pos, filename⟩

end Pug
