/-!
# Blank characters

Comments, option values and labels are trimmed before they are looked at. What is trimmed is
every character with the Unicode property `White_Space`, twenty-five code points in all, which
is more than `Char.isWhitespace` knows: a label of one ideographic space is an empty label.
-/

namespace StubMerge.Text

/-- The characters with the Unicode property `White_Space`. -/
def isBlank (c : Char) : Bool :=
  let n := c.toNat
  (0x09 ≤ n && n ≤ 0x0d) || n == 0x20 || n == 0x85 || n == 0xa0 || n == 0x1680
    || (0x2000 ≤ n && n ≤ 0x200a) || n == 0x2028 || n == 0x2029 || n == 0x202f || n == 0x205f
    || n == 0x3000

/-- Every character that the standard library calls blank is blank here. -/
theorem isBlank_of_isWhitespace {c : Char} (h : c.isWhitespace = true) : isBlank c = true := by
  simp only [Char.isWhitespace, Bool.or_eq_true, decide_eq_true_eq] at h
  rcases h with ((rfl | rfl) | rfl) | rfl <;> decide

/-- A text without the characters at its end that `p` holds of. -/
def trimEndWhere (p : Char → Bool) (text : String) : String :=
  String.ofList (text.toList.reverse.dropWhile p).reverse

/-- A text without the characters at either end that `p` holds of. -/
def trimWhere (p : Char → Bool) (text : String) : String :=
  trimEndWhere p (String.ofList (text.toList.dropWhile p))

/-- A text without the blanks at its end. -/
def trimEnd (text : String) : String := trimEndWhere isBlank text

/-- A text without the blanks at either end. -/
def trim (text : String) : String := trimWhere isBlank text

/-- What follows `start` in `text`, if `text` begins with it. -/
def after? (start text : String) : Option String :=
  (start.toList.isPrefixOf? text.toList).map String.ofList

/-- What follows `start` in `text`; all of `text` if it does not begin with `start`. -/
def afterOrAll (start text : String) : String := (after? start text).getD text

end StubMerge.Text
