/-!
# Readers

A `Reader` reads something off the front of a text, or does not succeed.
-/

namespace StubMerge

/-- Reads off the front of a list of characters. -/
abbrev Reader := StateT (List Char) Option

namespace Reader

/-- One character of a class. -/
def one (allowed : Char → Bool) : Reader Char := fun
  | c :: cs => if allowed c then some (c, cs) else none
  | [] => none

/-- One given character. -/
def char (c : Char) : Reader Unit := do
  let _ ← one (· == c)

/-- The characters of a text, one after the other. -/
def word (text : String) : Reader Unit := text.toList.forM char

/-- All characters of a class up to the first of another, maybe none. -/
def span (allowed : Char → Bool) : Reader (List Char) := fun cs => some (cs.span allowed)

/-- All characters of a class up to the first of another, at least one. -/
def span1 (allowed : Char → Bool) : Reader (List Char) := do
  let c ← one allowed
  return c :: (← span allowed)

/-- Exactly so many characters of a class. -/
def exactly (allowed : Char → Bool) : Nat → Reader (List Char)
  | 0 => pure []
  | n + 1 => do
    let c ← one allowed
    return c :: (← exactly allowed n)

/-- The end of the text. -/
def done : Reader Unit := fun cs => if cs.isEmpty then some ((), cs) else none

/-- Succeeds without reading if the reader would succeed. -/
def ahead {α : Type} (r : Reader α) : Reader Unit := fun cs => (r cs).map fun _ => ((), cs)

/-- As many as there are, up to a bound. -/
def upTo {α : Type} (r : Reader α) : Nat → Reader (List α)
  | 0 => pure []
  | n + 1 => (do
    let a ← r
    return a :: (← upTo r n)) <|> pure []

/-- As many as there are. There are no more of them than characters, as long as none is empty. -/
def many {α : Type} (r : Reader α) : Reader (List α) := fun cs => upTo r cs.length cs

/-- As many as there are, with a separator between them; at least one. -/
def separated {α β : Type} (r : Reader α) (separator : Reader β) : Reader (List α) := do
  let first ← r
  let others ← many do
    let _ ← separator
    r
  return first :: others

/-- What is read by the reader, as it is written. -/
def written {α : Type} (r : Reader α) : Reader (List Char) := fun cs =>
  (r cs).map fun result => (cs.take (cs.length - result.2.length), result.2)

end Reader

end StubMerge
