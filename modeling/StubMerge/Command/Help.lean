import StubMerge.Command.Arguments

/-!
# Pages of help

A page says what something is for and how it is called, and explains its parts in sections of
two columns. A section whose first column takes much room has its explanations below.
-/

namespace StubMerge.Command

/-- Parts of a call, with what they are for. -/
structure HelpSection where
  title : String
  rows : List (String × String)
deriving DecidableEq, Repr, Inhabited

/-- A page of help. -/
structure HelpPage where
  purpose : String
  usage : String
  sections : List HelpSection
deriving DecidableEq, Repr, Inhabited

/-! ## Layout -/

/-- A text with blanks behind it up to a width. -/
def padTo (width : Nat) (text : String) : String :=
  text ++ String.ofList (List.replicate (width - text.length) ' ')

/-- How many columns a page has. -/
def pageWidth : Nat := 100

namespace HelpSection

/-- The width of the first column. -/
def width (s : HelpSection) : Nat := s.rows.foldl (fun widest row => max widest row.1.length) 0

/-- Whether explanations stand below: if the first column takes more than two fifths of the page,
margins included, and the rest is too narrow for one of them. -/
def isStacked (s : HelpSection) : Bool :=
  let taken := s.width + 12
  2 * pageWidth < 5 * taken && s.rows.any fun row => pageWidth - taken < row.2.length

/-- A row in the layout of its section. -/
def rowText (s : HelpSection) (row : String × String) : String :=
  if s.isStacked then "  " ++ row.1 ++ "\n          " ++ row.2 ++ "\n"
  else "  " ++ padTo s.width row.1 ++ "  " ++ row.2 ++ "\n"

/-- A section as text. -/
def text (s : HelpSection) : String :=
  s.title ++ ":\n" ++ String.join (s.rows.map s.rowText)

end HelpSection

/-- A page as text. -/
def HelpPage.text (p : HelpPage) : String :=
  p.purpose ++ "\n\nUsage: " ++ p.usage ++ "\n" ++
    String.join (p.sections.map fun s => "\n" ++ s.text)

/-! ## The pages of this program -/

/-- What a merge is for. -/
def mergePurpose : String :=
  "Merge two RBI files, marking irreconcilable declarations as conflicts"

/-- What formatting is for. -/
def formatPurpose : String := "Parse an RBI file and print it back in canonical layout"

/-- What help is for. -/
def helpPurpose : String := "Print this message or the help of the given subcommand(s)"

/-- The row on being verbose. -/
def verboseRow : String × String :=
  ("-v, --verbose...",
    "Raise the log level (`-v` info, `-vv` debug). `RUST_LOG` takes precedence")

/-- The row on help. -/
def helpRow : String × String := ("-h, --help", "Print help")

/-- The page on the whole program. -/
def programPage : HelpPage where
  purpose := "Merge and format RBI declaration files"
  usage := "rbi [OPTIONS] <COMMAND>"
  sections := [
    ⟨"Commands", [("merge", mergePurpose), ("format", formatPurpose), ("help", helpPurpose)]⟩,
    ⟨"Options", [verboseRow, helpRow, ("-V, --version", "Print version")]⟩]

/-- The page on merging. -/
def mergePage : HelpPage where
  purpose := mergePurpose
  usage := "rbi merge [OPTIONS] <LEFT> <RIGHT>"
  sections := [
    ⟨"Arguments", [("<LEFT>", ""), ("<RIGHT>", "")]⟩,
    ⟨"Options", [
      ("    --left-label <LEFT_LABEL>", ""),
      verboseRow,
      ("    --right-label <RIGHT_LABEL>", ""),
      ("    --keep <KEEP>",
        "Resolve every conflict to one side before printing [possible values: left, right]"),
      ("-o, --output <OUTPUT>", "Write the merged file here instead of stdout"),
      ("    --report-json <REPORT_JSON>", "Write the conflict list as JSON"),
      ("    --config <CONFIG>", "Configuration file; defaults to `rbi.toml` when present"),
      ("    --print-locs", ""),
      ("    --fail-on-conflicts", "Exit with status 1 when conflicts remain"),
      helpRow]⟩]

/-- The page on formatting. -/
def formatPage : HelpPage where
  purpose := formatPurpose
  usage := "rbi format [OPTIONS] <PATH>"
  sections := [
    ⟨"Arguments", [("<PATH>", "")]⟩,
    ⟨"Options", [("    --print-locs", ""), verboseRow, helpRow]⟩]

/-- The page on help. -/
def helpPage : HelpPage where
  purpose := helpPurpose
  usage := "rbi help [COMMAND]..."
  sections := [⟨"Arguments", [("[COMMAND]...", "Print help for the subcommand(s)")]⟩]

/-- The page on a topic. -/
def Topic.page : Topic → HelpPage
  | program => programPage
  | task .merge => mergePage
  | task .format => formatPage
  | help => helpPage

end StubMerge.Command
