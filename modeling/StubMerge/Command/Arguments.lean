import StubMerge.Settings

/-!
# Arguments of the command

The arguments are read from left to right. They name a task and what it works on, with options
in between in any order. Options are written out behind two dashes, or some as one letter behind
one dash; letters can share a dash. A value stands behind an equals sign, behind its letter, or
as the next argument. Two dashes alone end the options.

The first thing that is wrong ends the reading, and so does a wish for help or for the version.
-/

namespace StubMerge.Command

/-! ## Options -/

/-- What can be asked for. -/
inductive Flag where
  | help
  | version
  | verbose
  | leftLabel
  | rightLabel
  | keep
  | output
  | report
  | settings
  | locations
  | failOnConflicts
deriving DecidableEq, Repr, Inhabited

namespace Flag

/-- The option with a name. -/
def ofName? : String → Option Flag
  | "help" => some help
  | "version" => some version
  | "verbose" => some verbose
  | "left-label" => some leftLabel
  | "right-label" => some rightLabel
  | "keep" => some keep
  | "output" => some output
  | "report-json" => some report
  | "config" => some settings
  | "print-locs" => some locations
  | "fail-on-conflicts" => some failOnConflicts
  | _ => none

/-- The option with a letter. -/
def ofLetter? : Char → Option Flag
  | 'h' => some help
  | 'V' => some version
  | 'v' => some verbose
  | 'o' => some output
  | _ => none

/-- Whether an option has a value. -/
def takesValue : Flag → Bool
  | leftLabel | rightLabel | keep | output | report | settings => true
  | _ => false

end Flag

/-- What the program can be asked to do. -/
inductive Task where
  | merge
  | format
deriving DecidableEq, Repr, Inhabited

/-- The task with a name. -/
def Task.ofName? : String → Option Task
  | "merge" => some merge
  | "format" => some format
  | _ => none

/-- The options that may stand in front of a task. -/
def Flag.isGeneral : Flag → Bool
  | help | version | verbose => true
  | _ => false

/-- The options that may stand behind a task. -/
def Task.allows : Task → Flag → Bool
  | _, .version => false
  | merge, _ => true
  | format, flag => flag.isGeneral || flag == .locations

/-! ## Arguments, one by one -/

/-- What an argument, or a part of one, says. -/
inductive Word where
  | operand (text : String)
  | bare (flag : Flag)
  | valued (flag : Flag) (value : String)
  /-- An option whose value has to follow. -/
  | wanting (flag : Flag)
  /-- What ends the options. -/
  | separator
  | unknown
deriving DecidableEq, Repr, Inhabited

namespace Word

/-- An option that is written out, maybe with a value. -/
def ofLong (allowed : Flag → Bool) (text : List Char) : Word :=
  let (name, value) := text.span (· != '=')
  match (Flag.ofName? (String.ofList name)).filter allowed, value with
  | none, _ => unknown
  | some flag, [] => if flag.takesValue then wanting flag else bare flag
  | some flag, _ :: value => if flag.takesValue then valued flag (String.ofList value) else unknown

/-- Letters that share a dash. What follows the letter of an option with a value is the value. -/
def ofLetters (allowed : Flag → Bool) : List Char → List Word
  | [] => []
  | c :: cs =>
    match (Flag.ofLetter? c).filter allowed with
    | none => [unknown]
    | some flag =>
      if flag.takesValue then
        match cs with
        | [] => [wanting flag]
        | '=' :: value => [valued flag (String.ofList value)]
        | value => [valued flag (String.ofList value)]
      else bare flag :: ofLetters allowed cs

/-- What an argument says. -/
def ofArgument (allowed : Flag → Bool) (argument : String) : List Word :=
  match argument.toList with
  | ['-', '-'] => [separator]
  | '-' :: '-' :: text => [ofLong allowed text]
  | '-' :: c :: letters => ofLetters allowed (c :: letters)
  | _ => [operand argument]

/-- What arguments say. Behind the separator all of them are operands. -/
def ofArguments (allowed : Flag → Bool) : List String → List Word
  | [] => []
  | a :: later =>
    if a == "--" then separator :: later.map operand
    else ofArgument allowed a ++ ofArguments allowed later

/-- Gives options the values that follow them. -/
def withValues : List Word → List Word
  | wanting flag :: operand value :: later => valued flag value :: withValues later
  | w :: later => w :: withValues later
  | [] => []

end Word

/-! ## Requests -/

/-- What help can be about. -/
inductive Topic where
  | program
  | task (task : Task)
  | help
deriving DecidableEq, Repr, Inhabited

/-- How many operands there can be. -/
def Topic.room : Topic → Nat
  | task .merge => 2
  | task .format => 1
  | _ => 0

/-- Why there is nothing to do for arguments. -/
inductive Stop where
  | usage
  | help (topic : Topic)
  | version
deriving DecidableEq, Repr, Inhabited

/-- What help is wanted about, given what stands behind the word for it. -/
def Stop.ofHelp : List String → Stop
  | [] => help .program
  | ["help"] => help .help
  | [name] =>
    match Task.ofName? name with
    | some task => help (.task task)
    | none => usage
  | _ => usage

/-- What options and operands come to. -/
structure Options where
  operands : List String := []
  leftLabel : Option String := none
  rightLabel : Option String := none
  keep : Option Side := none
  output : Option String := none
  report : Option String := none
  settings : Option String := none
  locations : Bool := false
  failOnConflicts : Bool := false
deriving DecidableEq, Repr, Inhabited

namespace Options

/-- Sets a value that is not set yet. -/
def once {α : Type} (value : α) : Option α → Except Stop (Option α)
  | none => .ok (some value)
  | some _ => .error .usage

/-- Sets a mark that is not set yet. -/
def onceFlag : Bool → Except Stop Bool
  | false => .ok true
  | true => .error .usage

/-- Adds what a word says in a call of the topic. -/
def add (topic : Topic) (o : Options) : Word → Except Stop Options
  | .operand text =>
    if o.operands.length < topic.room then .ok { o with operands := o.operands ++ [text] }
    else .error .usage
  | .separator => .ok o
  | .bare .help => .error (.help topic)
  | .bare .version => .error .version
  | .bare .verbose => .ok o
  | .bare .locations => do return { o with locations := ← onceFlag o.locations }
  | .bare .failOnConflicts => do
    return { o with failOnConflicts := ← onceFlag o.failOnConflicts }
  | .valued .leftLabel value => do return { o with leftLabel := ← once value o.leftLabel }
  | .valued .rightLabel value => do return { o with rightLabel := ← once value o.rightLabel }
  | .valued .keep value =>
    match Side.ofWord? value with
    | some side => do return { o with keep := ← once side o.keep }
    | none => .error .usage
  | .valued .output value => do return { o with output := ← once value o.output }
  | .valued .report value => do return { o with report := ← once value o.report }
  | .valued .settings value => do return { o with settings := ← once value o.settings }
  | _ => .error .usage

/-- The options that arguments behind a task come to. -/
def ofArguments (task : Task) (arguments : List String) : Except Stop Options :=
  (Word.withValues (Word.ofArguments task.allows arguments)).foldlM (add (.task task)) {}

end Options

/-- Something to do. -/
inductive Request where
  | merge (left right : String) (options : Options)
  | format (path : String) (options : Options)
deriving DecidableEq, Repr, Inhabited

namespace Request

/-- The request for a task. -/
def ofTask (arguments : List String) : Task → Except Stop Request
  | .merge => do
    let options ← Options.ofArguments .merge arguments
    match options.operands with
    | [left, right] => return .merge left right options
    | _ => .error .usage
  | .format => do
    let options ← Options.ofArguments .format arguments
    match options.operands with
    | [path] => return .format path options
    | _ => .error .usage

/-- The request that arguments make. -/
def ofArguments : List String → Except Stop Request
  | [] => .error .usage
  | a :: later =>
    match Word.ofArgument Flag.isGeneral a with
    | [.operand "help"] => .error (.ofHelp later)
    | [.operand name] =>
      match Task.ofName? name with
      | some task => ofTask later task
      | none => .error .usage
    | words => do
      let _ ← words.foldlM (Options.add .program) {}
      if words.contains .separator then .error .usage else ofArguments later

end Request

end StubMerge.Command
