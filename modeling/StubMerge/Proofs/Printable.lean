import StubMerge.Reading.File
import StubMerge.Declaration.Print

/-!
# Outlines that can be printed and read again

Printing writes names, types and values as they are, so it gives a text that reads as something
else when a name is no name or a value runs on into the next line. `Outline.isPrintableFile` says
of an outline that its parts are fit for printing: every name is one that the reader takes for a
name, and every other text is one that a capture gives back as it is. Only one thing can still go
wrong, a name that runs together with the receiver in front of it (`Outline.runsTogether`).
-/

namespace StubMerge

/-! ## Names -/

/-- Whether a text is an identifier without a method suffix. -/
def isIdentifier (text : String) : Bool :=
  match text.toList with
  | [] => false
  | c :: cs => isIdentifierStart c && cs.all isIdentifierRest

/-- Whether a text starts with a capital. -/
def startsUpper (text : String) : Bool := text.toList.head?.any Char.isUpper

/-- Whether a text is a constant. -/
def isConstant (text : String) : Bool := isIdentifier text && startsUpper text

/-- Whether a text is an identifier that starts with a small letter or an underscore. -/
def isSmallIdentifier (text : String) : Bool := isIdentifier text && !startsUpper text

/-- Whether a text can name a parameter: reserved words cannot. -/
def isVariable (text : String) : Bool := isSmallIdentifier text && wordKind text.toList == .name

/-- The pieces of a path between double colons. -/
def pathParts : List Char → List (List Char)
  | [] => [[]]
  | ':' :: ':' :: cs => [] :: pathParts cs
  | c :: cs =>
    match pathParts cs with
    | [] => [[c]]
    | part :: parts => (c :: part) :: parts

/-- Whether a text is a path of constants, perhaps from the top level. -/
def isConstantPath (text : String) : Bool :=
  (pathParts (Text.afterOrAll pathSeparator text).toList).all fun part =>
    isConstant (String.ofList part)

/-- Whether a text is taken for the name of a method, all of it. -/
def isMethodName (text : String) : Bool :=
  let name := (Cursor.ofTokens none (TokenList.ofText (text ++ ";"))).methodName
  name.1 == some text && name.2.rest.map Token.text == [";"]

/-! ## Captured texts -/

/-- Whether a capture gives a text back as it is, where `closer` follows it. -/
def isCaptured (stop : TokenKind → Bool) (closer text : String) : Bool :=
  let captured := (Cursor.ofTokens none (TokenList.ofText (text ++ closer)).significant).capture stop
  captured.1 == text && captured.2.rest.map Token.text == [closer]

/-- What stops a capture besides the end of the statement and closing brackets: nothing. -/
def stopsNever : TokenKind → Bool := fun _ => false

/-- What stops the capture of one of several values. -/
def stopsAtComma : TokenKind → Bool := (· == .comma)

/-- Whether texts can be written as the arguments of a call without parentheses. The first cannot
start with a parenthesis, which would enclose the arguments, and the last must end the line. -/
def areArguments (args : List String) : Bool :=
  args.all (fun arg => !arg.isEmpty && isCaptured Cursor.endsArgument ")" arg)
    && args.getLast?.all (isCaptured Cursor.endsArgument "\n")
    && args.head?.all fun arg => arg.toList.head? != some '('

/-- Whether a text can be written as a comment in one line. -/
def isCommentLine (text : String) : Bool :=
  !text.toList.contains '\n' && Text.trimEnd text == text

/-! ## Declarations -/

/-- Whether a parameter is read as it is written. -/
def Parameter.isPrintable (p : Parameter) : Bool :=
  match p.kind with
  | .required | .keyword => isVariable p.name && p.default.isNone
  | .optional | .optionalKeyword =>
    isVariable p.name && p.default.any fun value =>
      !value.isEmpty && isCaptured stopsAtComma ")" value
  | .rest | .keywordRest | .block => (p.name.isEmpty || isVariable p.name) && p.default.isNone

/-- Whether a signature is read as it is written. -/
def Signature.isPrintable (s : Signature) : Bool :=
  (s.isOverride || !s.allowIncompatible)
    && s.typeParams.all isIdentifier
    && s.params.all (fun p => isIdentifier p.name && isCaptured stopsAtComma ")" p.type)
    && s.result.all (isCaptured stopsNever ")")
    && s.checked.all (isCaptured stopsNever ")")

/-- Whether all parts of a method are read as they are written. -/
def Method.isPrintable (m : Method) : Bool :=
  isMethodName m.name && m.params.all Parameter.isPrintable
    && m.signatures.all Signature.isPrintable

/-- Whether the name of a method runs together with its receiver: behind the dot of the receiver,
a name made of dots is taken for a part of one longer operator. -/
def Method.runsTogether (m : Method) : Bool := m.isSingleton && m.name.toList.head? == some '.'

/-- Whether attributes are read as they are written. -/
def Attribute.isPrintable (a : Attribute) : Bool :=
  !a.names.isEmpty && a.names.all isIdentifier && a.signatures.all Signature.isPrintable

/-- Whether a field is read as it is written. -/
def Field.isPrintable (f : Field) : Bool :=
  isIdentifier f.name && !f.type.isEmpty && isCaptured Cursor.endsArgument ")" f.type
    && match f.default with
      | some value =>
        !value.isEmpty && Text.trim value == value && isCaptured Cursor.endsArgument "\n" value
      | none => isCaptured Cursor.endsArgument "\n" f.type

/-- Whether a value defines a struct class. -/
def definesStruct (value : String) : Bool :=
  (Cursor.ofTokens none (TokenList.ofText (value ++ "\n"))).atStructClass

/-- Whether the word of a call is a name, perhaps with a method suffix. -/
def isCallWord (text : String) : Bool :=
  (TokenList.ofText (text ++ "\n")).tokens.map (fun t => (t.kind, t.text))
    == [(.name, text), (.newline, "\n")]

/-- The first token of a text. -/
def firstToken (text : String) : Option Token := (TokenList.ofText (text ++ ")")).tokens.head?

/-- Whether a call is read as a call and not as a declaration of another kind. -/
def isPlainCall (word : String) (args : List String) : Bool :=
  match word with
  | "sig" | "attr_reader" | "attr_writer" | "attr_accessor" | "include" | "extend"
  | "mixes_in_class_methods" | "requires_ancestor" => false
  | "public" | "protected" | "private" =>
    (args.head?.bind firstToken).any fun t =>
      t.kind != .defWord && !(t.kind == .name && (AttributeKind.ofWord? t.text).isSome)
  | "const" | "prop" => (args.head?.bind firstToken).all fun t => t.kind != .symbol
  | _ => !args.isEmpty || word.toList.getLast? != some '!'

/-- Whether a leaf is read as it is written. -/
def Leaf.isPrintable : Leaf → Bool
  | .const name value =>
    isConstant name && !value.isEmpty && isCaptured stopsNever "\n" value
      && !Cursor.isTypeMember value && !definesStruct value
  | .typeMember name value =>
    isConstant name && isCaptured stopsNever "\n" value && Cursor.isTypeMember value
  | .method m => m.isPrintable
  | .attr a => a.isPrintable
  | .mixin _ names => !names.isEmpty && areArguments names
  | .helper name => isSmallIdentifier name
  | .requiresAncestor name => isCaptured stopsNever ")" name
  | .send word args => isCallWord word && isPlainCall word args && areArguments args
  | .field f => f.isPrintable
  | .enums names => names.all isConstant

/-- Whether a leaf is a method whose name runs together with its receiver. -/
def Leaf.runsTogether : Leaf → Bool
  | .method m => m.runsTogether
  | _ => false

/-- Whether the header of a scope is read as it is written; `closed` says that the scope is empty,
and ends in the line of its header. -/
def Scope.isPrintable (closed : Bool) : Scope → Bool
  | .moduleOf name => isConstantPath name
  | .classOf name superclass =>
    isConstantPath name && superclass.all fun parent =>
      !parent.isEmpty && isCaptured stopsNever (if closed then ")" else "\n") parent
  | .structOf name members _ => isConstant name && members.all isIdentifier
  | .singleton => true

namespace Outline

mutual
/-- Whether the parts of a declaration and of what is below it are read as they are written. -/
def isPrintable : Outline → Bool
  | node e cs =>
    e.comments.all isCommentLine && arePrintable cs
      && match e.kind with
        | .scope s => s.isPrintable cs.isEmpty
        | .leaf l => l.isPrintable && cs.isEmpty
        | _ => false
/-- Whether the parts of neighbours are read as they are written. -/
def arePrintable : List Outline → Bool
  | [] => true
  | c :: cs => c.isPrintable && arePrintable cs
end

/-- Whether all parts of a file are read as they are written. Its own comments need something below
them. -/
def isPrintableFile : Outline → Bool
  | node e cs =>
    e.kind == .group && e.comments.all isCommentLine && (e.comments.isEmpty || !cs.isEmpty)
      && arePrintable cs

mutual
/-- Whether the name of a method runs together with its receiver. -/
def runsTogether : Outline → Bool
  | node e cs =>
    (match e.kind with
      | .leaf l => l.runsTogether
      | _ => false) || anyRunsTogether cs
/-- Whether the name of a method among neighbours runs together with its receiver. -/
def anyRunsTogether : List Outline → Bool
  | [] => false
  | c :: cs => c.runsTogether || anyRunsTogether cs
end

mutual
/-- The outline without the places that it was read from. -/
def unplaced : Outline → Outline
  | node e cs => node { e with location := none } (allUnplaced cs)
/-- The outlines without the places that they were read from. -/
def allUnplaced : List Outline → List Outline
  | [] => []
  | c :: cs => c.unplaced :: allUnplaced cs
end

end Outline

end StubMerge
