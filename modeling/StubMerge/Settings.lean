import StubMerge.Declaration.Kind
import StubMerge.Merge.Settle
import StubMerge.Text.Blank
import StubMerge.Toml.Document

/-!
# Settings

The settings of a merge come from a TOML document with the tables `merge` and `print`. What is
not given keeps its default; names that are not known and values of another type are refused.
A table may also be given as a list of its values, in order.
-/

namespace StubMerge

/-- The settings of a merge. -/
structure Settings where
  leftLabel : String := "left"
  rightLabel : String := "right"
  /-- The side that conflicts are resolved to, if they are. -/
  keep : Option Side := none
  /-- Whether conflicts that remain count as a failure. -/
  failOnConflicts : Bool := false
  printLocations : Bool := false
deriving DecidableEq, Repr, Inhabited

/-- Why settings cannot be used. -/
inductive SettingsError where
  | malformed
  | emptyLabel (field : String)
  | brokenLabel (field : String)
deriving DecidableEq, Repr, Inhabited

/-- What is said about an error. -/
def SettingsError.message : SettingsError → String
  | malformed => "configuration parse error"
  | emptyLabel field => invalid field "label must not be empty"
  | brokenLabel field => invalid field "label must fit on one line"
where
  invalid (field detail : String) : String :=
    "invalid configuration value for '" ++ field ++ "': " ++ detail

/-- The side that a word stands for. -/
def Side.ofWord? : String → Option Side
  | "left" => some left
  | "right" => some right
  | _ => none

namespace Settings

open Toml

/-! ## Values -/

/-- The values of the fields of a table, by name or, in a list, by place. -/
def fieldsOf (names : List String) : Value → Option (List (Option Value))
  | .table _ entries =>
    if entries.all fun e => names.contains e.1 then some (names.map (Entries.get? entries)) else none
  | .list elements | .tables elements => some (names.mapIdx fun place _ => elements[place]?)
  | _ => none

/-- A value that must be a text, if it is given. -/
def textOr (default : String) : Option Value → Option String
  | none => some default
  | some (.text t) => some t
  | some _ => none

/-- A value that must be true or false, if it is given. -/
def flagOr (default : Bool) : Option Value → Option Bool
  | none => some default
  | some (.flag b) => some b
  | some _ => none

/-- Whether a value holds others and holds none. -/
def isHollow : Value → Bool
  | .list [] | .table _ [] | .tables [] => true
  | _ => false

/-- A side: its word, or a table with the word as its only name and nothing in it. -/
def sideOf? : Value → Option Side
  | .text word => Side.ofWord? word
  | .table _ [(word, inner)] => if isHollow inner then Side.ofWord? word else none
  | _ => none

/-- A value that must be a side, if it is given. -/
def sideOrNone : Option Value → Option (Option Side)
  | none => some none
  | some v => (sideOf? v).map some

/-! ## Tables -/

/-- Reads the table of merge settings. -/
def readMerge (settings : Settings) (table : Value) : Option Settings := do
  match ← fieldsOf ["left_label", "right_label", "keep", "fail_on_conflicts"] table with
  | [left, right, keep, fail] =>
    return { settings with
      leftLabel := ← textOr settings.leftLabel left
      rightLabel := ← textOr settings.rightLabel right
      keep := ← sideOrNone keep
      failOnConflicts := ← flagOr settings.failOnConflicts fail }
  | _ => none

/-- Reads the table of print settings. -/
def readPrint (settings : Settings) (table : Value) : Option Settings := do
  match ← fieldsOf ["print_locs"] table with
  | [locations] =>
    return { settings with printLocations := ← flagOr settings.printLocations locations }
  | _ => none

/-- Reads one entry of the document. -/
def readEntry (settings : Settings) : String × Value → Option Settings
  | ("merge", table) => settings.readMerge table
  | ("print", table) => settings.readPrint table
  | _ => none

/-- Reads settings from a document. -/
def ofToml (document : String) : Except SettingsError Settings :=
  match (Toml.read document).bind (·.foldlM readEntry {}) with
  | some settings => .ok settings
  | none => .error .malformed

/-! ## Checks -/

/-- Labels stand on marker lines, so a label has something to show and no line break. -/
def checkLabel (field label : String) : Except SettingsError Unit :=
  if (Text.trim label).isEmpty then .error (.emptyLabel field)
  else if label.toList.any fun c => c == '\n' || c == '\r' then .error (.brokenLabel field)
  else .ok ()

/-- Checks that settings can be used. -/
def check (settings : Settings) : Except SettingsError Unit := do
  checkLabel "merge.left_label" settings.leftLabel
  checkLabel "merge.right_label" settings.rightLabel

/-- The labels of the two sides. -/
def labels (settings : Settings) : Labels := ⟨settings.leftLabel, settings.rightLabel⟩

end Settings

end StubMerge
