/-!
# Signatures and parameters

A signature states the types of a method. Types are kept as text, so two signatures are the
same exactly when all their fields are. `Signature.text` writes a signature as a chain of
builder calls in one fixed order, and `Parameter.text` writes a parameter of a method's own
parameter list.
-/

namespace StubMerge

/-- A parameter name with its type. -/
structure TypedName where
  name : String
  type : String
deriving DecidableEq, Repr, Inhabited

/-- The types of a method. -/
structure Signature where
  params : List TypedName := []
  /-- The type of the result; nothing when the method returns no value. -/
  result : Option String := none
  isAbstract : Bool := false
  isOverride : Bool := false
  isOverridable : Bool := false
  isFinal : Bool := false
  /-- Whether an overriding method may differ from the one it overrides. -/
  allowIncompatible : Bool := false
  typeParams : List String := []
  /-- When the types are checked at run time, as written. -/
  checked : Option String := none
deriving DecidableEq, Repr, Inhabited

namespace Signature

/-- Texts with a comma and a blank between them. -/
def commaSeparated (texts : List String) : String := ", ".intercalate texts

/-- The builder calls of a signature, in the order in which they are written. -/
def builders (s : Signature) : List String :=
  (if s.isAbstract then ["abstract"] else [])
    ++ (if s.isOverride then
          [if s.allowIncompatible then "override(allow_incompatible: true)" else "override"]
        else [])
    ++ (if s.isOverridable then ["overridable"] else [])
    ++ (if s.typeParams.isEmpty then []
        else ["type_parameters(" ++ commaSeparated (s.typeParams.map (":" ++ ·)) ++ ")"])
    ++ (if s.params.isEmpty then []
        else ["params(" ++ commaSeparated (s.params.map fun p => p.name ++ ": " ++ p.type) ++ ")"])
    ++ [match s.result with
        | some type => "returns(" ++ type ++ ")"
        | none => "void"]
    ++ (match s.checked with
        | some level => ["checked(" ++ level ++ ")"]
        | none => [])

/-- A signature as it is written above a method. -/
def text (s : Signature) : String :=
  "sig" ++ (if s.isFinal then "(:final)" else "") ++ " \x7b " ++ ".".intercalate s.builders
    ++ " \x7d"

end Signature

/-- The kinds of method parameters. -/
inductive ParameterKind where
  | required
  | optional
  | rest
  | keyword
  | optionalKeyword
  | keywordRest
  | block
deriving DecidableEq, Repr, Inhabited

/-- A parameter of a method. -/
structure Parameter where
  kind : ParameterKind := .required
  name : String
  /-- The default value as written. -/
  default : Option String := none
deriving DecidableEq, Repr, Inhabited

namespace Parameter

/-- What stands for a default value that is not known. -/
def unknownDefault : String := "T.unsafe(nil)"

/-- A parameter as it is written in a parameter list. -/
def text (p : Parameter) : String :=
  match p.kind with
  | .required => p.name
  | .optional => p.name ++ " = " ++ p.default.getD unknownDefault
  | .rest => "*" ++ p.name
  | .keyword => p.name ++ ":"
  | .optionalKeyword => p.name ++ ": " ++ p.default.getD unknownDefault
  | .keywordRest => "**" ++ p.name
  | .block => "&" ++ p.name

end Parameter

end StubMerge
