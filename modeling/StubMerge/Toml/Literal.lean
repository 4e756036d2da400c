import StubMerge.Data.Decimal
import StubMerge.Text.Reader

/-!
# Literals of TOML

Texts in their four spellings, whole and broken numbers, dates and times.
-/

namespace StubMerge.Toml

open Reader

/-! ## Characters -/

/-- Blanks inside a line. -/
def isSpace (c : Char) : Bool := c == ' ' || c == '\t'

/-- Characters beyond ASCII are allowed in texts and comments. -/
def isWide (c : Char) : Bool := 0x80 ≤ c.toNat

/-- Characters that can be shown, with blanks. -/
def isShown (c : Char) : Bool := c == '\t' || (' ' ≤ c && c ≤ '~') || isWide c

/-- Digits of a base up to sixteen. -/
def digitValue? (base : Nat) (c : Char) : Option Nat :=
  let value :=
    if c.isDigit then c.toNat - '0'.toNat
    else if 'a' ≤ c ∧ c ≤ 'f' then c.toNat - 'a'.toNat + 10
    else if 'A' ≤ c ∧ c ≤ 'F' then c.toNat - 'A'.toNat + 10
    else base
  if value < base then some value else none

/-- Whether a character is a digit of a base up to sixteen. -/
def isDigitOf (base : Nat) (c : Char) : Bool := (digitValue? base c).isSome

/-- The number that digits stand for. -/
def valueOf (base : Nat) (digits : List Char) : Nat :=
  digits.foldl (fun n c => n * base + (digitValue? base c).getD 0) 0

/-- A line break. -/
def lineBreak : Reader Unit := char '\n' <|> word "\r\n"

/-! ## Texts -/

/-- A character given by its number, in so many digits. -/
def numbered (count : Nat) : Reader Char := do
  let value := valueOf 16 (← exactly (isDigitOf 16) count)
  if value.isValidChar then return Char.ofNat value else failure

/-- An escaped character. -/
def escaped : Reader Char := do
  char '\\'
  match ← one fun _ => true with
  | 'b' => return '\x08'
  | 'f' => return '\x0c'
  | 'n' => return '\n'
  | 'r' => return '\r'
  | 't' => return '\t'
  | '"' => return '"'
  | '\\' => return '\\'
  | 'u' => numbered 4
  | 'U' => numbered 8
  | _ => failure

/-- A character that stands for itself in a text with escapes. -/
def isPlain (c : Char) : Bool := isShown c && c != '"' && c != '\\'

/-- A character of a text without escapes. -/
def isRaw (c : Char) : Bool := isShown c && c != '\''

/-- A text in one line, with escapes. -/
def basicText : Reader String := do
  char '"'
  let content ← many (one isPlain <|> escaped)
  char '"'
  return String.ofList content

/-- A text in one line, without escapes. -/
def rawText : Reader String := do
  char '\''
  let content ← span isRaw
  char '\''
  return String.ofList content

/-- One or two quotes inside a text that three of them end. -/
def innerQuotes (quote : Char) : Reader (List Char) := do
  let quotes ← exactly (· == quote) 2 <|> exactly (· == quote) 1
  ahead (one (· != quote))
  return quotes

/-- One or two quotes right before the three that end a text. -/
def lastQuotes (quote : Char) : Reader (List Char) :=
  (do let quotes ← exactly (· == quote) 2; ahead (exactly (· == quote) 3); return quotes)
    <|> (do let quotes ← exactly (· == quote) 1; ahead (exactly (· == quote) 3); return quotes)
    <|> pure []

/-- A text in several lines between three quotes. A line break right behind the first three is
no part of it. -/
def longText (quote : Char) (piece : Reader (List Char)) : Reader String := do
  let _ ← exactly (· == quote) 3
  lineBreak <|> pure ()
  let pieces ← many (piece <|> innerQuotes quote)
  let last ← lastQuotes quote
  let _ ← exactly (· == quote) 3
  return String.ofList (pieces.flatten ++ last)

/-- A line break of a text in several lines. -/
def innerBreak : Reader (List Char) := do
  lineBreak
  return ['\n']

/-- A backslash at the end of a line, with all blanks and line breaks behind it. -/
def continuation : Reader (List Char) := do
  char '\\'
  let _ ← span isSpace
  lineBreak
  let _ ← many ((do let _ ← one isSpace) <|> lineBreak)
  return []

/-- A text. -/
def text : Reader String :=
  longText '"' (span1 isPlain <|> continuation <|> (do return [← escaped]) <|> innerBreak)
    <|> basicText
    <|> longText '\'' (span1 isRaw <|> innerBreak)
    <|> rawText

/-! ## Numbers -/

/-- Digits, with single low lines between them; the low lines are left out. -/
def digits (base : Nat) : Reader (List Char) := do
  let first ← one (isDigitOf base)
  let others ← many ((do let _ ← char '_'; one (isDigitOf base)) <|> one (isDigitOf base))
  return first :: others

/-- A sign, if there is one: whether it is a minus. -/
def sign : Reader Bool :=
  (do char '-'; return true) <|> (do char '+'; return false) <|> pure false

/-- A whole number in ten digits: its sign and its digits. No zero stands in front. -/
def decimal : Reader (Bool × List Char) := do
  let negative ← sign
  let ds ← digits 10
  if ds.length > 1 ∧ ds.head? = some '0' then failure else return (negative, ds)

/-- The least number that is too large for a whole number. -/
def wholeBound : Nat := 0x8000000000000000

/-- A whole number with the digits of another base. -/
def based (mark : Char) (base : Nat) : Reader Unit := do
  char '0'
  char mark
  if valueOf base (← digits base) < wholeBound then return else failure

/-- A whole number. -/
def whole : Reader Unit :=
  based 'x' 16 <|> based 'o' 8 <|> based 'b' 2 <|> do
    let (negative, ds) ← decimal
    let value := valueOf 10 ds
    if value < wholeBound ∨ (negative ∧ value = wholeBound) then return else failure

/-- The exponent of a broken number. -/
def exponent : Reader Int := do
  let _ ← one fun c => c == 'e' || c == 'E'
  let negative ← sign
  let value : Int := valueOf 10 (← digits 10)
  return if negative then -value else value

/-- The digits behind the point of a broken number. -/
def places : Reader (List Char) := do
  char '.'
  digits 10

/-- A broken number in digits: its sign and its amount. Digits behind the point, an exponent, or
both make a number broken. -/
def scientific : Reader (Bool × Decimal) := do
  let (negative, ds) ← decimal
  let (fraction, power) ←
    (do return ([], ← exponent)) <|> (do return (← places, ← exponent <|> pure 0))
  return (negative, ⟨valueOf 10 (ds ++ fraction), power - fraction.length⟩)

/-- The least number that is too large for a broken number: numbers have 53 binary digits and
stay below the 1024th power of two, and from here on that power is the nearest. -/
def brokenBound : Nat := Nat.pow 2 1024 - Nat.pow 2 970

/-- A broken number. Only a positive one can be too large; below zero there is always minus
infinity to stand for it. -/
def broken : Reader Unit :=
  (do
    let (negative, amount) ← scientific
    if negative || !amount.reaches brokenBound then return else failure)
  <|> (do
    let _ ← sign
    word "inf" <|> word "nan")

/-! ## Dates and times -/

/-- A number of so many digits within bounds. -/
def part (count least greatest : Nat) : Reader Nat := do
  let value := valueOf 10 (← exactly Char.isDigit count)
  if least ≤ value ∧ value ≤ greatest then return value else failure

/-- How many days a month has. -/
def daysOf (year month : Nat) : Nat :=
  if month = 2 then
    if year % 4 = 0 ∧ (year % 100 ≠ 0 ∨ year % 400 = 0) then 29 else 28
  else if [4, 6, 9, 11].contains month then 30 else 31

/-- A date. -/
def date : Reader Unit := do
  let year ← part 4 0 9999
  char '-'
  let month ← part 2 1 12
  char '-'
  let _ ← part 2 1 (daysOf year month)

/-- A time of the day. -/
def time : Reader Unit := do
  let _ ← part 2 0 23
  char ':'
  let _ ← part 2 0 59
  char ':'
  let _ ← part 2 0 60
  (do char '.'; let _ ← span1 Char.isDigit) <|> pure ()

/-- How far a time is from universal time. -/
def zone : Reader Unit :=
  (do let _ ← one fun c => c == 'Z' || c == 'z') <|> do
    let _ ← one fun c => c == '+' || c == '-'
    let _ ← part 2 0 23
    char ':'
    let _ ← part 2 0 59

/-- A date, a time, or both. -/
def moment : Reader Unit :=
  (do
    date
    (do
      let _ ← one fun c => c == 'T' || c == 't' || c == ' '
      time
      zone <|> pure ()) <|> pure ())
  <|> time

end StubMerge.Toml
