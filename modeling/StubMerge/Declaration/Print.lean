import StubMerge.Declaration.Outline

/-!
# Printing

An outline is printed as a list of lines in one layout: two blanks for each level, an empty line
between neighbours unless both take one line, and comments above what they belong to. A conflict
is printed as the two sides between marker lines. Of a conflict between two headers only the
headers stand between the markers, and the body that they share follows.
-/

namespace StubMerge

/-- How to print. -/
structure PrintOptions where
  /-- Whether the location of a declaration is printed above it. -/
  locations : Bool := false
deriving DecidableEq, Repr, Inhabited

namespace Print

/-- A line at a level. -/
def line (level : Nat) (text : String) : String :=
  String.ofList (List.replicate (2 * level) ' ') ++ text

/-- A comment line. -/
def comment (level : Nat) (text : String) : String :=
  line level (if text.isEmpty then "#" else "# " ++ text)

/-- The lines above a declaration. -/
def preamble (options : PrintOptions) (level : Nat) (e : Entry) : List String :=
  (match e.location with
    | some l => if options.locations then [line level ("# " ++ l.text)] else []
    | none => [])
  ++ e.comments.map (comment level)

/-- Texts in parentheses; nothing if there are none. -/
def argumentList (texts : List String) : String :=
  if texts.isEmpty then "" else "(" ++ Signature.commaSeparated texts ++ ")"

/-- The word in front of a declaration that is not for everyone. -/
def visibilityMark : Visibility → String
  | .everyone => ""
  | v => v.word ++ " "

/-- The header of a scope that has no body to open. -/
def header : Scope → String
  | .moduleOf name => "module " ++ name
  | .classOf name superclass =>
    "class " ++ name ++ (match superclass with
      | some parent => " < " ++ parent
      | none => "")
  | .structOf name members keywordInit =>
    name ++ " = ::Struct.new"
      ++ argumentList (members.map (":" ++ ·) ++ if keywordInit then ["keyword_init: true"] else [])
  | .singleton => "class << self"

/-- The header of a scope as it opens a body. -/
def openingHeader : Scope → String
  | s@(.structOf ..) => header s ++ " do"
  | s => header s

/-- A scope without a body, in one line. -/
def closedHeader : Scope → String
  | s@(.structOf ..) => header s
  | s => header s ++ "; end"

/-- The line that opens one side of a conflict between headers. A node that is no scope is named
by its noun. -/
def conflictHeader : Kind → String
  | .scope s => openingHeader s
  | k => k.noun

/-- The lines of a leaf. -/
def leaf (level : Nat) : Leaf → List String
  | .const name value => [line level (name ++ " = " ++ value)]
  | .typeMember name value => [line level (name ++ " = " ++ value)]
  | .method m =>
    m.signatures.map (fun s => line level s.text)
      ++ [line level (visibilityMark m.visibility ++ "def "
            ++ (if m.isSingleton then "self." else "") ++ m.name
            ++ argumentList (m.params.map Parameter.text) ++ "; end")]
  | .attr a =>
    a.signatures.map (fun s => line level s.text)
      ++ [line level (visibilityMark a.visibility ++ a.kind.word ++ " "
            ++ Signature.commaSeparated (a.names.map (":" ++ ·)))]
  | .mixin kind names => [line level (kind.word ++ " " ++ Signature.commaSeparated names)]
  | .helper name => [line level (name ++ "!")]
  | .requiresAncestor name => [line level ("requires_ancestor \x7b " ++ name ++ " \x7d")]
  | .send name args =>
    [line level (if args.isEmpty then name else name ++ " " ++ Signature.commaSeparated args)]
  | .field f =>
    [line level (f.kind.word ++ " :" ++ f.name ++ ", " ++ f.type
      ++ (match f.default with
          | some value => ", default: " ++ value
          | none => ""))]
  | .enums names =>
    [line level "enums do"] ++ names.map (fun name => line (level + 1) (name ++ " = new"))
      ++ [line level "end"]

/-- Whether a leaf without comments takes one line. -/
def leafIsShort : Leaf → Bool
  | .method m => m.signatures.isEmpty
  | .attr a => a.signatures.isEmpty
  | .enums _ => false
  | _ => true

/-- Whether an outline takes one line, so that it needs no empty line beside another such. -/
def isShort (options : PrintOptions) : Outline → Bool
  | .node e cs =>
    e.comments.isEmpty && !(options.locations && e.location.isSome) &&
      match e.kind with
      | .group | .scope _ => cs.isEmpty
      | .leaf l => leafIsShort l
      | .conflict _ | .scopeConflict _ => false

/-- The opening marker of a conflict. -/
def leftMarker (level : Nat) (labels : Labels) : String := line level ("<<<<<<< " ++ labels.left)

/-- The marker between the sides of a conflict. -/
def middleMarker (level : Nat) : String := line level "======="

/-- The closing marker of a conflict. -/
def rightMarker (level : Nat) (labels : Labels) : String := line level (">>>>>>> " ++ labels.right)

/-- The lines of one header of a conflict between headers, if it is there. -/
def sideHeader (options : PrintOptions) (level : Nat) : Option Outline → List String
  | some (.node e _) => preamble options level e ++ [line level (conflictHeader e.kind)]
  | none => []

mutual
/-- The lines of an outline. -/
def lines (options : PrintOptions) (level : Nat) : Outline → List String
  | .node e cs =>
    match e.kind with
    | .group => preamble options level e ++ body options level none cs
    | .scope s =>
      preamble options level e ++
        if cs.isEmpty then [line level (closedHeader s)]
        else line level (openingHeader s) :: body options (level + 1) none cs ++ [line level "end"]
    | .leaf l => preamble options level e ++ leaf level l
    | .conflict labels =>
      leftMarker level labels :: firstBody options level cs
        ++ middleMarker level :: secondBody options level cs ++ [rightMarker level labels]
    | .scopeConflict labels =>
      leftMarker level labels :: sideHeader options level cs[0]?
        ++ middleMarker level :: sideHeader options level cs[1]?
        ++ rightMarker level labels :: firstBody options (level + 1) cs ++ [line level "end"]
/-- The lines of neighbours. `previous` says whether the one before them took one line. -/
def body (options : PrintOptions) (level : Nat) (previous : Option Bool) :
    List Outline → List String
  | [] => []
  | c :: cs =>
    let short := isShort options c
    let separated := previous.any fun before => !(before && short)
    (if separated then [""] else []) ++ lines options level c ++ body options level (some short) cs
/-- The lines below the first outline, if there is one. -/
def firstBody (options : PrintOptions) (level : Nat) : List Outline → List String
  | [] => []
  | .node _ cs :: _ => body options level none cs
/-- The lines below the second outline, if there is one. -/
def secondBody (options : PrintOptions) (level : Nat) : List Outline → List String
  | [] => []
  | _ :: rest => firstBody options level rest
end

/-- The lines of a file: its comments, and what it declares. -/
def fileLines (options : PrintOptions) : Outline → List String
  | .node e cs =>
    e.comments.map (comment 0)
      ++ (if e.comments.isEmpty || cs.isEmpty then [] else [""])
      ++ body options 0 none cs

end Print

/-- The text of a file. -/
def Outline.print (options : PrintOptions) (root : Outline) : String :=
  String.join ((Print.fileLines options root).map (· ++ "\n"))

end StubMerge
