/-
# Blank characters and trimmed text

A character is blank when it has the Unicode property `White_Space`, which
holds of 25 characters in ten ranges. It does not hold of the information
separators `U+001C`-`U+001F`, of the zero-width space `U+200B`, of the Mongolian
vowel separator `U+180E` or of the byte order mark `U+FEFF`.
-/

namespace Pug
namespace Text

/-- The ranges of `White_Space`, as first and last code point. -/
def blankRanges : List (Nat × Nat) :=
  [(0x0009, 0x000D), (0x0020, 0x0020), (0x0085, 0x0085), (0x00A0, 0x00A0), (0x1680, 0x1680),
    (0x2000, 0x200A), (0x2028, 0x2029), (0x202F, 0x202F), (0x205F, 0x205F), (0x3000, 0x3000)]

/-- Whether a character is blank. -/
def isBlank (c : Char) : Bool :=
  blankRanges.any fun range => range.1 ≤ c.toNat && c.toNat ≤ range.2

/-- A text without its blank characters at both ends, as a list of characters. -/
def trimChars (cs : List Char) : List Char :=
  ((cs.dropWhile isBlank).reverse.dropWhile isBlank).reverse

/-- A text without its blank characters at both ends. -/
def trim (s : String) : String := String.ofList (trimChars s.toList)

/-- Whether `s` ends in `ending`, character by character. -/
def endsIn (s ending : String) : Bool := ending.toList.isSuffixOf s.toList

/-- **Every blank of the ASCII class is blank here.** -/
theorem isBlank_of_isWhitespace {c : Char} (h : c.isWhitespace = true) : isBlank c = true := by
  simp only [Char.isWhitespace, Bool.or_eq_true, decide_eq_true_eq] at h
  rcases h with ((rfl | rfl) | rfl) | rfl <;> decide

/-- **Twenty-five characters are blank.** -/
example : (blankRanges.map fun range => range.2 + 1 - range.1).sum = 25 := by decide

end Text
end Pug
