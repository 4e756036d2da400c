/-!
# Cutting a text into pieces

`split` cuts at every occurrence of a character, so that putting that character between the
pieces gives the text back; a text has always at least one piece. `contains` looks for one text
inside another.
-/

namespace StubMerge.Text

/-- The pieces between the occurrences of `separator`. -/
def splitChars (separator : Char) : List Char → List (List Char)
  | [] => [[]]
  | c :: cs =>
    if c == separator then [] :: splitChars separator cs
    else match splitChars separator cs with
      | [] => [[c]]
      | piece :: pieces => (c :: piece) :: pieces

/-- The pieces of a text between the occurrences of `separator`. -/
def split (separator : Char) (text : String) : List String :=
  (splitChars separator text.toList).map String.ofList

/-- Whether `part` occurs in the characters. -/
def occursIn (part : List Char) : List Char → Bool
  | [] => part.isEmpty
  | c :: cs => part.isPrefixOf (c :: cs) || occursIn part cs

/-- Whether `part` occurs in `text`. -/
def contains (part text : String) : Bool := occursIn part.toList text.toList

/-- There is always a piece. -/
theorem splitChars_ne_nil (separator : Char) (cs : List Char) : splitChars separator cs ≠ [] := by
  cases cs with
  | nil => simp [splitChars]
  | cons c cs =>
    unfold splitChars
    split
    · simp
    · split <;> simp

/-- Putting the separator back between the pieces gives the characters back. -/
theorem intercalate_splitChars (separator : Char) (cs : List Char) :
    [separator].intercalate (splitChars separator cs) = cs := by
  induction cs with
  | nil => rfl
  | cons c cs ih =>
    unfold splitChars
    cases h : splitChars separator cs with
    | nil => exact absurd h (splitChars_ne_nil separator cs)
    | cons piece pieces =>
      rw [h] at ih
      split
      · simp_all [List.intercalate, List.intersperse]
      · cases pieces <;> simp_all [List.intercalate, List.intersperse]

end StubMerge.Text
