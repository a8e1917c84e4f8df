/-!
# Blanks and white space

Markup is divided at the five ASCII blanks; values and expressions are trimmed of all Unicode
white space.

* `isBlank`, `isWhite`: the two classes, `isWhite_of_isBlank` the inclusion.
* `trim`: a text without the white space at its ends.
-/

namespace Islands

/-- The blanks of markup: space, tab, line feed, form feed and carriage return. -/
def isBlank (c : Char) : Bool :=
  c == ' ' || c == '\t' || c == '\n' || c == '\x0c' || c == '\r'

/-- The characters with the Unicode property `White_Space`. -/
def isWhite (c : Char) : Bool :=
  let n := c.toNat
  (9 ≤ n && n ≤ 13) || n == 0x20 || n == 0x85 || n == 0xA0 || n == 0x1680 ||
    (0x2000 ≤ n && n ≤ 0x200A) || n == 0x2028 || n == 0x2029 || n == 0x202F || n == 0x205F ||
    n == 0x3000

/-- Every blank is white space; the converse fails at the vertical tab. -/
theorem isWhite_of_isBlank {c : Char} (h : isBlank c = true) : isWhite c = true := by
  simp only [isBlank, Bool.or_eq_true, beq_iff_eq] at h
  rcases h with (((h | h) | h) | h) | h <;> subst h <;> decide

/-- A text without the characters of class `p` at its two ends. -/
def trimBy (p : Char → Bool) (cs : List Char) : List Char :=
  ((cs.dropWhile p).reverse.dropWhile p).reverse

/-- A string without the white space at its two ends. -/
def trim (s : String) : String := String.ofList (trimBy isWhite s.toList)

end Islands
