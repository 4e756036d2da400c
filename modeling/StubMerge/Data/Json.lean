/-!
# JSON values

Reports are written as JSON, one value a line and two blanks for each level.
-/

namespace StubMerge

/-- A JSON value. Members of an object keep their order. -/
inductive Json where
  | null
  | number (value : Nat)
  | text (text : String)
  | list (elements : List Json)
  | object (members : List (String × Json))
deriving Repr, Inhabited

namespace Json

/-- A hexadecimal digit. -/
def hexDigit (n : Nat) : Char := Char.ofNat (if n < 10 then '0'.toNat + n else 'a'.toNat + (n - 10))

/-- A character as it stands between quotes. -/
def escapeChar (c : Char) : List Char :=
  match c with
  | '"' => ['\\', '"']
  | '\\' => ['\\', '\\']
  | '\n' => ['\\', 'n']
  | '\r' => ['\\', 'r']
  | '\t' => ['\\', 't']
  | '\x08' => ['\\', 'b']
  | '\x0c' => ['\\', 'f']
  | c =>
    if c.toNat < 0x20 then ['\\', 'u', '0', '0', hexDigit (c.toNat / 16), hexDigit (c.toNat % 16)]
    else [c]

/-- A text between quotes. -/
def quoted (text : String) : String :=
  "\"" ++ String.ofList (text.toList.flatMap escapeChar) ++ "\""

/-- The blanks in front of a line. -/
def margin (depth : Nat) : String := String.ofList (List.replicate (2 * depth) ' ')

/-- Items between brackets, each on a line of its own. -/
def block (opening closing : String) (depth : Nat) (items : List String) : String :=
  if items.isEmpty then opening ++ closing
  else
    let rows := items.map fun item => margin (depth + 1) ++ item
    opening ++ "\n" ++ ",\n".intercalate rows ++ "\n" ++ margin depth ++ closing

mutual
/-- A value as text. `depth` is the level of the line that it begins on. -/
def pretty (depth : Nat) : Json → String
  | null => "null"
  | number value => toString value
  | text t => quoted t
  | list elements => block "[" "]" depth (prettyElements (depth + 1) elements)
  | object members => block "\x7b" "\x7d" depth (prettyMembers (depth + 1) members)
/-- The elements of a list as texts. -/
def prettyElements (depth : Nat) : List Json → List String
  | [] => []
  | e :: later => pretty depth e :: prettyElements depth later
/-- The members of an object as texts. -/
def prettyMembers (depth : Nat) : List (String × Json) → List String
  | [] => []
  | (name, value) :: later =>
    (quoted name ++ ": " ++ pretty depth value) :: prettyMembers depth later
end

end Json

end StubMerge
