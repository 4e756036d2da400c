import StubMerge.Text.Position

/-!
# Diagnostics

Reading never gives up on a text: what cannot be understood is skipped and reported. A
`Problem` says what was wrong, and a `Diagnostic` says where. Problems are either errors, when
something was lost that the text meant to declare, or warnings.
-/

namespace StubMerge

/-- How bad a problem is. -/
inductive Severity where
  | error
  | warning
deriving DecidableEq, Repr, Inhabited

/-- What can be wrong with a text. -/
inductive Problem where
  | expectedEndOfFile
  | expectedDeclaration (found : String)
  | expectedEnd
  | unexpectedEnd
  | unexpected (found : String)
  | expectedOpenParen
  | expectedCloseParen
  | expectedCloseBrace
  | expectedConstantName
  | expectedSuperclass
  | expectedSelf
  | expectedValue (name : String)
  | expectedMethodName
  | expectedParameter (found : String)
  | expectedSymbol (found : String)
  | attributeWithoutNames (word : String)
  | mixinWithoutModule (word : String)
  | expectedAncestorBlock
  | incompleteField (word : String)
  | expectedEnumValue (found : String)
  | expectedSignatureBlock
  | expectedSignatureEnd
  | expectedBuilder (found : String)
  | expectedTypedName
  | danglingSignature
  | ignoredBody
  | ignoredBlock (method : String)
  | ignoredOption (word option : String)
  | ignoredStructArgument (argument : String)
  | ignoredSignatureArgument (argument : String)
  | ignoredBuilder (name : String)
deriving DecidableEq, Repr, Inhabited

namespace Problem

/-- How bad a problem is. -/
def severity : Problem → Severity
  | danglingSignature | ignoredBody | ignoredBlock _ | ignoredOption .. | ignoredStructArgument _
  | ignoredSignatureArgument _ | ignoredBuilder _ => .warning
  | _ => .error

/-- A word as messages show it. -/
def quoted (word : String) : String := "`" ++ word ++ "`"

/-- What is said about a problem. -/
def message : Problem → String
  | expectedEndOfFile => "expected end of file"
  | expectedDeclaration found => "expected a declaration, found " ++ quoted found
  | expectedEnd => "expected `end`"
  | unexpectedEnd => "unexpected `end`"
  | unexpected found => "unexpected " ++ quoted found
  | expectedOpenParen => "expected `(`"
  | expectedCloseParen => "expected `)`"
  | expectedCloseBrace => "expected `\x7d`"
  | expectedConstantName => "expected a constant name"
  | expectedSuperclass => "expected a superclass"
  | expectedSelf => "expected `self` after `class <<`"
  | expectedValue name => "expected a value for " ++ quoted name
  | expectedMethodName => "expected a method name"
  | expectedParameter found => "expected a parameter, found " ++ quoted found
  | expectedSymbol found => "expected a symbol, found " ++ quoted found
  | attributeWithoutNames word => quoted word ++ " without names"
  | mixinWithoutModule word => quoted word ++ " without a module"
  | expectedAncestorBlock => "expected `\x7b` after `requires_ancestor`"
  | incompleteField word => quoted word ++ " needs a name and a type"
  | expectedEnumValue found => "expected an enum value, found " ++ quoted found
  | expectedSignatureBlock => "expected `\x7b` or `do` after `sig`"
  | expectedSignatureEnd => "expected the end of the signature"
  | expectedBuilder found => "expected a signature builder, found " ++ quoted found
  | expectedTypedName => "expected `name: Type`"
  | danglingSignature => "signature is not followed by a method or an attribute"
  | ignoredBody => "method bodies are ignored"
  | ignoredBlock method => "ignoring the block passed to " ++ quoted method
  | ignoredOption word option => "ignoring " ++ quoted word ++ " option " ++ quoted option
  | ignoredStructArgument argument => "ignoring `Struct.new` argument " ++ quoted argument
  | ignoredSignatureArgument argument => "ignoring `sig` argument " ++ quoted argument
  | ignoredBuilder name => "ignoring signature builder " ++ quoted name

end Problem

/-- A problem with the part of the text it was found at. -/
structure Diagnostic where
  problem : Problem
  start : Position
  stop : Position
deriving DecidableEq, Repr, Inhabited

/-- Whether a diagnostic reports an error. -/
def Diagnostic.isError (d : Diagnostic) : Bool := d.problem.severity == .error

end StubMerge
