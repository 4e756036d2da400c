import StubMerge.Toml.Literal
import StubMerge.Toml.Table

/-!
# TOML documents

A document is read in two steps: first its lines, each a header or a name with a value, then
the table that they make up.
-/

namespace StubMerge.Toml

open Reader

/-- Names have fewer parts than this, and values lie fewer levels deep. -/
def nestingBound : Nat := 80

/-! ## Names -/

/-- A character of a name without quotes. -/
def isNameChar (c : Char) : Bool := c.isAlphanum || c == '-' || c == '_'

/-- One part of a name. -/
def namePart : Reader String :=
  basicText <|> rawText <|> do return String.ofList (← span1 isNameChar)

/-- A dotted name. -/
def name : Reader (List String) := do
  let parts ← separated (do
    let _ ← span isSpace
    let part ← namePart
    let _ ← span isSpace
    return part) (char '.')
  if parts.length < nestingBound then return parts else failure

/-! ## Values -/

/-- A comment, up to the end of its line. -/
def comment : Reader Unit := do
  char '#'
  let _ ← span isShown

/-- Blanks, line breaks and comments. -/
def filler : Reader Unit := do
  let _ ← many ((do let _ ← one isSpace) <|> lineBreak <|> comment)

/-- The values between square brackets. A comma may stand behind the last. -/
def listOf (value : Reader Value) : Reader Value := do
  char '['
  let elements ← (do
    let elements ← separated (do filler; let v ← value; filler; return v) (char ',')
    char ',' <|> pure ()
    return elements) <|> pure []
  filler
  char ']'
  return .list elements

/-- A name with a value. -/
def pairOf (value : Reader Value) : Reader (List String × Value) := do
  let path ← name
  char '='
  let _ ← span isSpace
  return (path, ← value)

/-- A table between curly brackets, in one line. -/
def tableOf (value : Reader Value) : Reader Value := do
  char '\x7b'
  let pairs ← separated (do
    let pair ← pairOf value
    let _ ← span isSpace
    return pair) (char ',') <|> pure []
  let _ ← span isSpace
  char '\x7d'
  match Entries.addPairs [] pairs with
  | some entries => return .table .inlined entries
  | none => failure

/-- A value that holds no others. -/
def scalar : Reader Value :=
  (do return .text (← text))
    <|> (do word "true"; return .flag true)
    <|> (do word "false"; return .flag false)
    <|> (do return .moment (String.ofList (← written moment)))
    <|> (do return .number (String.ofList (← written broken)))
    <|> (do return .number (String.ofList (← written whole)))

/-- A value that is at most so many levels deep. -/
def valueTo : Nat → Reader Value
  | 0 => scalar
  | depth + 1 => listOf (valueTo depth) <|> tableOf (valueTo depth) <|> scalar

/-- A value. -/
def value : Reader Value := valueTo (nestingBound - 1)

/-! ## Lines -/

/-- What a line of a document says. -/
inductive Line where
  | blank
  | pair (path : List String) (value : Value)
  | header (path : List String)
  | doubleHeader (path : List String)

/-- The end of a line or of the text. -/
def lineEnd : Reader Unit := lineBreak <|> done

/-- What may stand behind a header or a value. -/
def lineRest : Reader Unit := do
  let _ ← span isSpace
  comment <|> pure ()
  lineEnd

/-- A line of a document, with the blanks in front of the next. -/
def line : Reader Line := do
  let read ←
    (do comment; lineEnd; return .blank)
    <|> (do lineBreak; return .blank)
    <|> (do word "[["; let path ← name; word "]]"; lineRest; return .doubleHeader path)
    <|> (do char '['; let path ← name; char ']'; lineRest; return .header path)
    <|> (do let (path, v) ← pairOf value; lineRest; return .pair path v)
  let _ ← span isSpace
  return read

/-- A mark that may stand in front of a document. -/
def byteOrderMark : Char := '\uFEFF'

/-- The lines of a document. -/
def lines : Reader (List Line) := do
  char byteOrderMark <|> pure ()
  let _ ← span isSpace
  let read ← many line
  done
  return read

/-! ## The table of a document -/

/-- The names and values before the first header. -/
def leadingPairs : List Line → List (List String × Value)
  | .pair path v :: later => (path, v) :: leadingPairs later
  | .blank :: later => leadingPairs later
  | _ => []

/-- Adds what stands under each header. -/
def addSections (entries : Entries) : List Line → Option Entries
  | [] => some entries
  | .header path :: later => do
    addSections (← entries.addTable path (leadingPairs later)) later
  | .doubleHeader path :: later => do
    addSections (← entries.addElement path (leadingPairs later)) later
  | _ :: later => addSections entries later

/-- The table that lines make up. -/
def tableOfLines (ls : List Line) : Option Entries := do
  addSections (← Entries.addPairs [] (leadingPairs ls)) ls

/-- Reads a document. -/
def read (document : String) : Option Entries := do
  let (ls, _) ← lines document.toList
  tableOfLines ls

end StubMerge.Toml
