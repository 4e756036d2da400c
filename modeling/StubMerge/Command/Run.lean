import StubMerge.Command.Help
import StubMerge.Command.World
import StubMerge.Declaration.Print
import StubMerge.Merge.Merger
import StubMerge.Merge.Report

/-!
# Running the command

`run` does what arguments ask for. A merge goes through these steps: settings are read and
checked, both files are read, merged, the conflicts are told and reported, resolved if that is
wanted, and the result is written. The first step that fails ends the run, and what was done
before it stays done.
-/

namespace StubMerge.Command

/-! ## Failures and outcomes -/

/-- Why a run fails. -/
inductive Failure where
  | settingsMissing (path : String)
  | settingsUnreadable (path : String)
  | settings (error : SettingsError)
  | unreadable (path : String)
  | unmergeable (left right : String) (error : EditError)
  | reportUnwritable (path : String)
  | unresolvable (error : EditError)
  | unwritable (path : String)
  /-- A file on which reading stops. -/
  | broken (error : ReadError)
deriving DecidableEq, Repr, Inhabited

namespace Failure

/-- What is said about a failure. -/
def message : Failure → String
  | settingsMissing path => "configuration file not found: " ++ path
  | settingsUnreadable path => "failed to read configuration file `" ++ path ++ "`"
  | settings error => error.message
  | unreadable path => "failed to read `" ++ path ++ "`"
  | unmergeable left right _ => "failed to merge `" ++ right ++ "` into `" ++ left ++ "`"
  | reportUnwritable path => "failed to write report to `" ++ path ++ "`"
  | unresolvable _ => "failed to resolve conflicts"
  | unwritable path => "failed to write `" ++ path ++ "`"
  | broken error => error.message

/-- The exit status of a failure. -/
def status : Failure → Nat
  | broken _ => 101
  | _ => 1

end Failure

/-- How a run ends. -/
inductive Outcome where
  | done
  /-- Conflicts remain, and that counts as a failure. -/
  | conflictsRemain
  | stopped (why : Stop)
  | failed (failure : Failure)
deriving DecidableEq, Repr, Inhabited

/-- The exit status of a run. -/
def Outcome.status : Outcome → Nat
  | done => 0
  | conflictsRemain => 1
  | stopped .usage => 2
  | stopped (.help _) => 0
  | stopped .version => 0
  | failed failure => failure.status

/-! ## Steps -/

variable {m : Type → Type} [Monad m]

/-- A step of a run, which can fail. -/
abbrev Step (m : Type → Type) := ExceptT Failure m

/-- The file that settings are read from if none is named. -/
def settingsFile : String := "rbi.toml"

/-- Reads settings from a file. -/
def readSettings (w : World m) (path : String) : Step m Settings := do
  if !(← w.isThere path) then throw (.settingsMissing path)
  match ← w.read path with
  | .error _ => throw (.settingsUnreadable path)
  | .ok document =>
    match Settings.ofToml document with
    | .ok settings => return settings
    | .error error => throw (.settings error)

/-- The settings of a run: from the file that is named, from the usual file if it is there, or
else the defaults. -/
def loadSettings (w : World m) : Option String → Step m Settings
  | some path => readSettings w path
  | none => do
    if ← w.isThere settingsFile then readSettings w settingsFile else return {}

/-- Settings with what the options say instead. -/
def overrideSettings (settings : Settings) (o : Options) : Settings where
  leftLabel := o.leftLabel.getD settings.leftLabel
  rightLabel := o.rightLabel.getD settings.rightLabel
  keep := o.keep.or settings.keep
  failOnConflicts := settings.failOnConflicts || o.failOnConflicts
  printLocations := settings.printLocations || o.locations

/-- A diagnostic as a line for the user. How diagnostics are laid out is not part of what the command
promises: this layout is the library's own, one line without the source around it. Nothing may
depend on more than that such a line is never taken for one about a conflict. -/
def diagnosticLine (path : String) (d : Diagnostic) : String :=
  (match d.problem.severity with
    | .error => "error: "
    | .warning => "warning: ")
  ++ (Location.mk (some path) d.start.line d.start.column d.stop.line d.stop.column).text
  ++ ": " ++ d.problem.message

/-- Reads a file of declarations and tells what is wrong with it. -/
def readDeclarations (w : World m) (path : String) : Step m Outline := do
  match ← w.declarations path with
  | .error _ => throw (.unreadable path)
  | .ok (.error error) => throw (.broken error)
  | .ok (.ok reading) =>
    reading.diagnostics.forM fun d => w.say (diagnosticLine path d)
    return reading.root

/-- Writes a result to a file or to the output. -/
def emit (w : World m) (text : String) : Option String → Step m Unit
  | none => w.print text
  | some path => do
    if !(← w.write path text) then throw (.unwritable path)

/-- Writes a report, if there is a file for it. -/
def emitReport (w : World m) (report : Report) : Option String → Step m Unit
  | none => return
  | some path => do
    if !(← w.write path report.text) then throw (.reportUnwritable path)

/-- Resolves a forest to a side, if there is one to keep. -/
def resolveTo (f : Forest) : Option Side → Step m Forest
  | none => return f
  | some side =>
    match f.resolve side with
    | .ok g => return g
    | .error stopped => throw (.unresolvable stopped.error)

/-! ## Tasks -/

/-- Merges two files. -/
def runMerge (w : World m) (left right : String) (o : Options) : Step m Outcome := do
  let settings := overrideSettings (← loadSettings w o.settings) o
  if let .error error := settings.check then throw (.settings error)
  let leftRoot ← readDeclarations w left
  let rightRoot ← readDeclarations w right
  match merge settings.labels { root := leftRoot } { root := rightRoot } with
  | .error error => throw (.unmergeable left right error)
  | .ok result =>
    result.conflicts.forM fun c => w.say c.message
    emitReport w { left, right, conflicts := result.conflicts } o.report
    let f ← resolveTo result.forest settings.keep
    emit w ((f.outline Forest.root).print { locations := settings.printLocations }) o.output
    if settings.failOnConflicts && f.conflictCount != 0 then return .conflictsRemain
    return .done

/-- Prints a file in the usual layout. -/
def runFormat (w : World m) (path : String) (o : Options) : Step m Outcome := do
  let file ← readDeclarations w path
  emit w (file.print { locations := o.locations }) none
  return .done

/-- Does what is requested. -/
def runRequest (w : World m) : Request → Step m Outcome
  | .merge left right o => runMerge w left right o
  | .format path o => runFormat w path o

/-! ## The whole command -/

/-- Name and version of the program. -/
def versionLine : String := "rbi 0.1.0"

/-- Tells why there is nothing to do. -/
def explain (w : World m) : Stop → m Unit
  | .usage => w.say programPage.text
  | .help topic => w.print topic.page.text
  | .version => w.print (versionLine ++ "\n")

/-- Does what arguments ask for. -/
def run (w : World m) (arguments : List String) : m Outcome := do
  match Request.ofArguments arguments with
  | .error why =>
    explain w why
    return .stopped why
  | .ok request =>
    match ← (runRequest w request).run with
    | .ok outcome => return outcome
    | .error failure =>
      w.say ("Error: " ++ failure.message)
      return .failed failure

end StubMerge.Command
