/-
# What is read off a message

A message names its error. What is variable in it stands in front of a mark that does not
occur in it: the name of a terminal in front of a backquote, a line or a column in front of
a comma or a colon. So these parts can be cut off a message one after another. The name of an
attribute has no such mark, as it may be any text, but there the rest of the message is fixed.

Two faults with one message are the same, except that an `id` that is there twice is also
an attribute of this name that is there twice (`Fault.message_eq_iff`).
-/

import Mathlib.Data.List.Nodup
import Pug.Report.Fault

namespace Pug

/-- A text up to a mark that does not occur in it is known, and so is what is behind the
mark. -/
theorem append_cons_inj {mark : Char} {a b s t : List Char} (ha : mark ∉ a) (hb : mark ∉ b)
    (h : a ++ mark :: s = b ++ mark :: t) : a = b ∧ s = t := by
  have hcut : ∀ {c : List Char} (u : List Char), mark ∉ c →
      (c ++ mark :: u).takeWhile (· ≠ mark) = c := by
    intro c u hc
    have hall : ∀ x ∈ c, decide (x ≠ mark) = true := by
      intro x hx
      simpa using fun heq : x = mark => hc (heq ▸ hx)
    rw [List.takeWhile_append_of_pos hall, List.takeWhile_cons_of_neg (by simp), List.append_nil]
  obtain rfl : a = b := by rw [← hcut s ha, h, hcut t hb]
  exact ⟨rfl, (List.cons.inj (List.append_cancel_left h)).2⟩

/-- A number in front of a mark that is no digit is known. -/
theorem repr_append_inj {mark : Char} (hmark : mark.isDigit = false) {m n : UInt64}
    {s t : List Char} (h : m.toNat.repr.toList ++ mark :: s = n.toNat.repr.toList ++ mark :: t) :
    m = n ∧ s = t := by
  have hnotMem : ∀ k : Nat, mark ∉ k.repr.toList := by
    intro k hmem
    rw [Nat.toList_repr] at hmem
    have hdigit := Nat.isDigit_of_mem_toDigits (by decide) (by decide) hmem
    rw [hmark] at hdigit
    cases hdigit
  obtain ⟨hrepr, rfl⟩ := append_cons_inj (hnotMem m.toNat) (hnotMem n.toNat) h
  rw [Nat.toList_repr, Nat.toList_repr] at hrepr
  have hvalue : m.toNat = n.toNat := by
    calc m.toNat
      _ = Nat.ofDigitChars 10 (Nat.toDigits 10 m.toNat) 0 := Nat.ofDigitChars_ten_toDigits.symm
      _ = Nat.ofDigitChars 10 (Nat.toDigits 10 n.toNat) 0 := by rw [hrepr]
      _ = n.toNat := Nat.ofDigitChars_ten_toDigits
  exact ⟨UInt64.toNat_inj.1 hvalue, rfl⟩

namespace Terminal

/-- **A terminal is known by its name.** -/
theorem name_injective : Function.Injective name := by
  have hnodup : (all.map name).Nodup := by decide
  intro a b h
  exact List.inj_on_of_nodup_map hnodup (mem_all a) (mem_all b) h

end Terminal

namespace Fault

/-- The mark at both ends of a name between backquotes. -/
def backquote : Char := Char.ofNat 0x60

theorem toList_quoted (terminal : Terminal) :
    (quoted terminal).toList = backquote :: (terminal.name.toList ++ [backquote]) := by
  rw [quoted, String.toList_append, String.toList_append]
  rfl

theorem backquote_notMem (terminal : Terminal) : backquote ∉ terminal.name.toList := by
  cases terminal <;> decide

/-- A name between backquotes is known, whatever is behind it. -/
theorem quoted_append_inj {a b : Terminal} {s t : String} (h : quoted a ++ s = quoted b ++ t) :
    a = b ∧ s = t := by
  have hlist := congrArg String.toList h
  rw [String.toList_append, String.toList_append, toList_quoted, toList_quoted] at hlist
  have htail : a.name.toList ++ backquote :: s.toList = b.name.toList ++ backquote :: t.toList := by
    simpa using hlist
  obtain ⟨hname, hrest⟩ := append_cons_inj (backquote_notMem a) (backquote_notMem b) htail
  exact ⟨Terminal.name_injective (String.toList_inj.1 hname), String.toList_inj.1 hrest⟩

/-! ## Enumerations -/

/-- What stands in front of a terminal that the terminals `behind` follow. -/
def separator (behind : List Terminal) : String := if behind = [] then " or " else ", "

theorem furtherNames_cons (terminal : Terminal) (behind : List Terminal) :
    furtherNames (terminal :: behind) =
      separator behind ++ (quoted terminal ++ furtherNames behind) := by
  cases behind with
  | nil => simp [furtherNames, separator]
  | cons next behind => simp [furtherNames, separator, String.append_assoc]

/-- **The last of several terminals follows `or`,** and commas are between the others. -/
theorem expectation_concat (first last : Terminal) (between : List Terminal) :
    expectation (first :: (between ++ [last])) =
      ", expected " ++ (", ".intercalate ((first :: between).map quoted) ++ " or " ++
        quoted last) := by
  have hnames : quoted first ++ furtherNames (between ++ [last]) =
      ", ".intercalate ((first :: between).map quoted) ++ " or " ++ quoted last := by
    induction between generalizing first with
    | nil => simp [furtherNames, String.append_assoc]
    | cons next between ih =>
      have hbehind : between ++ [last] ≠ [] := by simp
      rw [List.cons_append, furtherNames_cons, ih next]
      simp [separator, hbehind, String.append_assoc]
  rw [← hnames, expectation, String.append_assoc]

/-- The text in front of a terminal is told from the other one by its first character. -/
theorem separator_append_inj {as bs : List Terminal} {s t : String}
    (h : separator as ++ s = separator bs ++ t) : s = t := by
  unfold separator at h
  split at h <;> split at h
  · exact (String.append_right_inj _).1 h
  · exact absurd (congrArg String.toList h) (by simp)
  · exact absurd (congrArg String.toList h) (by simp)
  · exact (String.append_right_inj _).1 h

theorem furtherNames_cons_ne (terminal : Terminal) (behind : List Terminal) :
    furtherNames (terminal :: behind) ≠ "" := by
  intro h
  rw [furtherNames_cons, separator] at h
  have hlist := congrArg String.toList h
  split at hlist <;> simp at hlist

/-- **The terminals of an enumeration are known.** -/
theorem furtherNames_injective : Function.Injective furtherNames := by
  intro as bs h
  induction as generalizing bs with
  | nil =>
    cases bs with
    | nil => rfl
    | cons b bs => exact absurd h.symm (furtherNames_cons_ne b bs)
  | cons a as ih =>
    cases bs with
    | nil => exact absurd h (furtherNames_cons_ne a as)
    | cons b bs =>
      rw [furtherNames_cons, furtherNames_cons] at h
      obtain ⟨rfl, hbehind⟩ := quoted_append_inj (separator_append_inj h)
      rw [ih hbehind]

theorem expectation_injective : Function.Injective expectation := by
  intro as bs h
  cases as with
  | nil =>
    cases bs with
    | nil => rfl
    | cons b bs => exact absurd (congrArg String.toList h) (by simp [expectation])
  | cons a as =>
    cases bs with
    | nil => exact absurd (congrArg String.toList h) (by simp [expectation])
    | cons b bs =>
      rw [expectation, expectation, String.append_assoc, String.append_assoc] at h
      obtain ⟨rfl, hbehind⟩ := quoted_append_inj ((String.append_right_inj _).1 h)
      rw [furtherNames_injective hbehind]

/-! ## Faults -/

theorem message_unexpected (found : Terminal) (expected : List Terminal) :
    (unexpected found expected).message =
      "unexpected token " ++ (quoted found ++ expectation expected) := by
  show "unexpected token " ++ quoted found ++ expectation expected = _
  rw [String.append_assoc]

theorem message_malformedVerbatim (found : Terminal) :
    (malformedVerbatim found).message =
      "unexpected token " ++ (quoted found ++ " inside a verbatim text block") := by
  show "unexpected token " ++ quoted found ++ " inside a verbatim text block" = _
  rw [String.append_assoc]

/-- The text behind the token tells where it is out of place. -/
theorem message_unexpected_ne (found found' : Terminal) (expected : List Terminal) :
    (unexpected found expected).message ≠ (malformedVerbatim found').message := by
  intro h
  rw [message_unexpected, message_malformedVerbatim] at h
  obtain ⟨-, hrest⟩ := quoted_append_inj ((String.append_right_inj _).1 h)
  cases expected with
  | nil => exact absurd (congrArg String.toList hrest) (by simp [expectation])
  | cons terminal behind => exact absurd (congrArg String.toList hrest) (by simp [expectation])

theorem message_duplicateAttribute (name : String) :
    (duplicateAttribute name).message =
      "duplicate attribute \"" ++ (name ++ "\" is not allowed") := by
  show "duplicate attribute \"" ++ name ++ "\" is not allowed" = _
  rw [String.append_assoc]

/-- The fault with the same message that carries the name of its attribute, if it is about
one. -/
def named : Fault → Fault
  | .duplicateId => .duplicateAttribute "id"
  | f => f

@[simp] theorem message_named (f : Fault) : f.named.message = f.message := by
  cases f <;> rfl

theorem named_ne (f : Fault) : f.named ≠ .duplicateId := by
  cases f <;> exact nofun

/-- The first character of a message. -/
def initial : Fault → Char
  | .unexpected _ _ | .malformedVerbatim _ => 'u'
  | .duplicateId | .duplicateAttribute _ => 'd'
  | .blockOutsideMixin => 'a'
  | .bufferedCodeBlock => 'b'

theorem head?_message (f : Fault) : f.message.toList.head? = some f.initial := by
  cases f with
  | unexpected found expected => simp [message_unexpected, initial]
  | malformedVerbatim found => simp [message_malformedVerbatim, initial]
  | duplicateAttribute name => simp [message_duplicateAttribute, initial]
  | duplicateId | blockOutsideMixin | bufferedCodeBlock => rfl

/-- Faults with one message are the same, if `id` is an attribute like any other. -/
theorem eq_of_message {f g : Fault} (hf : f ≠ .duplicateId) (hg : g ≠ .duplicateId)
    (h : f.message = g.message) : f = g := by
  have hinitial : some f.initial = some g.initial := by
    rw [← head?_message, ← head?_message, h]
  -- Only complaints about a token have their first character in common with another kind.
  cases f with
  | unexpected found expected =>
    cases g with
    | unexpected found' expected' =>
      rw [message_unexpected, message_unexpected] at h
      obtain ⟨rfl, hrest⟩ := quoted_append_inj ((String.append_right_inj _).1 h)
      rw [expectation_injective hrest]
    | malformedVerbatim found' => exact absurd h (message_unexpected_ne found found' expected)
    | _ => simp [initial] at hinitial
  | malformedVerbatim found =>
    cases g with
    | unexpected found' expected' =>
      exact absurd h.symm (message_unexpected_ne found' found expected')
    | malformedVerbatim found' =>
      rw [message_malformedVerbatim, message_malformedVerbatim] at h
      obtain ⟨rfl, -⟩ := quoted_append_inj ((String.append_right_inj _).1 h)
      rfl
    | _ => simp [initial] at hinitial
  | duplicateId => exact absurd rfl hf
  | duplicateAttribute name =>
    cases g with
    | duplicateId => exact absurd rfl hg
    | duplicateAttribute name' =>
      rw [message_duplicateAttribute, message_duplicateAttribute] at h
      have hname := (String.append_left_inj _).1 ((String.append_right_inj _).1 h)
      rw [hname]
    | _ => simp [initial] at hinitial
  | blockOutsideMixin =>
    cases g with
    | blockOutsideMixin => rfl
    | _ => simp [initial] at hinitial
  | bufferedCodeBlock =>
    cases g with
    | bufferedCodeBlock => rfl
    | _ => simp [initial] at hinitial

/-- **Faults with one message are the same,** but for the two faults that a second `id` is. -/
theorem message_eq_iff {f g : Fault} :
    f.message = g.message ↔
      f = g ∨ (f = .duplicateId ∧ g = .duplicateAttribute "id") ∨
        (f = .duplicateAttribute "id" ∧ g = .duplicateId) := by
  have hnamed : f.message = g.message ↔ f.named = g.named := by
    rw [← message_named f, ← message_named g]
    exact ⟨eq_of_message (named_ne f) (named_ne g), congrArg message⟩
  rw [hnamed]
  cases f <;> cases g <;> simp [named, eq_comm]

end Fault

namespace ParseError

theorem toList_place_none (p : Position) :
    (place ⟨p, none⟩).toList =
      "line ".toList ++ (p.line.toNat.repr.toList ++ ',' ::
        (" column ".toList ++ p.column.toNat.repr.toList)) := by
  simp [place]

theorem toList_place_some (p : Position) (filename : String) :
    (place ⟨p, some filename⟩).toList =
      filename.toList ++ ':' :: (p.line.toNat.repr.toList ++ ':' ::
        p.column.toNat.repr.toList) := by
  simp [place]

/-- A position in front of a colon is known, if the file is. -/
theorem place_append_inj {filename : Option String} {p q : Position} {s t : List Char}
    (h : (place ⟨p, filename⟩).toList ++ ':' :: s = (place ⟨q, filename⟩).toList ++ ':' :: t) :
    p = q ∧ s = t := by
  rcases p with ⟨line, column⟩
  rcases q with ⟨line', column'⟩
  cases filename with
  | none =>
    simp only [toList_place_none, List.append_assoc, List.cons_append] at h
    have hplace := List.append_cancel_left h
    obtain ⟨rfl, hbehind⟩ := repr_append_inj (by decide) hplace
    obtain ⟨rfl, rfl⟩ := repr_append_inj (by decide) (List.append_cancel_left hbehind)
    exact ⟨rfl, rfl⟩
  | some filename =>
    simp only [toList_place_some, List.append_assoc, List.cons_append] at h
    have hplace := (List.cons.inj (List.append_cancel_left h)).2
    obtain ⟨rfl, hbehind⟩ := repr_append_inj (by decide) hplace
    obtain ⟨rfl, rfl⟩ := repr_append_inj (by decide) hbehind
    exact ⟨rfl, rfl⟩

/-- **A message tells the place of its error and what is wrong there.** -/
theorem message_eq_message_iff {filename : Option String} {f g : Fault} {p q : Position} :
    message ⟨f, ⟨p, filename⟩⟩ = message ⟨g, ⟨q, filename⟩⟩ ↔
      p = q ∧ f.message = g.message := by
  constructor
  · intro h
    have hlist := congrArg String.toList h
    simp only [message, String.toList_append, List.append_assoc] at hlist
    obtain ⟨hplace, hmessage⟩ := place_append_inj hlist
    exact ⟨hplace, String.toList_inj.1 (List.append_cancel_left hmessage)⟩
  · rintro ⟨rfl, hmessage⟩
    simp only [message, hmessage]

end ParseError

/-- **A message identifies its error.**

* Faults with one message are the same, or one is a second `id` and the other a second
  attribute of that name.
* Errors in one file, or both in a template without a file, have one message exactly if they
  are at one position and their faults have one message. -/
theorem message_determines_error :
    (∀ f g : Fault, f.message = g.message ↔
      f = g ∨ (f = .duplicateId ∧ g = .duplicateAttribute "id") ∨
        (f = .duplicateAttribute "id" ∧ g = .duplicateId)) ∧
    ∀ e e' : ParseError, e.loc.filename = e'.loc.filename →
      (e.message = e'.message ↔
        e.loc.line = e'.loc.line ∧ e.loc.column = e'.loc.column ∧
          e.fault.message = e'.fault.message) := by
  constructor
  · intro f g
    exact Fault.message_eq_iff
  · rintro ⟨f, ⟨line, column⟩, filename⟩ ⟨g, ⟨line', column'⟩, filename'⟩ hfilename
    obtain rfl : filename = filename' := hfilename
    rw [ParseError.message_eq_message_iff, Position.mk.injEq, and_assoc]

/-- A second `id` has one message at one place of a file, whichever way it is told, and another
one at another place, with the same digits. -/
theorem message_determines_error_id :
    ParseError.message ⟨.duplicateId, ⟨⟨1, 23⟩, some "a"⟩⟩ =
      ParseError.message ⟨.duplicateAttribute "id", ⟨⟨1, 23⟩, some "a"⟩⟩ ∧
    ParseError.message ⟨.duplicateId, ⟨⟨1, 23⟩, some "a"⟩⟩ ≠
      ParseError.message ⟨.duplicateId, ⟨⟨12, 3⟩, some "a"⟩⟩ := by
  have hfaults := (message_determines_error.1 .duplicateId (.duplicateAttribute "id")).2
    (.inr (.inl ⟨rfl, rfl⟩))
  have hplace := message_determines_error.2 ⟨.duplicateId, ⟨⟨1, 23⟩, some "a"⟩⟩
    ⟨.duplicateId, ⟨⟨12, 3⟩, some "a"⟩⟩ rfl
  exact ⟨(message_determines_error.2 ⟨.duplicateId, ⟨⟨1, 23⟩, some "a"⟩⟩
    ⟨.duplicateAttribute "id", ⟨⟨1, 23⟩, some "a"⟩⟩ rfl).2 ⟨rfl, rfl, hfaults⟩,
    fun h => absurd (hplace.1 h).1 (by decide)⟩

end Pug
