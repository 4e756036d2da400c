import StubMerge.Declaration.Signature

/-!
# What a node can be

A node of a declaration tree is a *scope* that other declarations live in, a *leaf* that
declares something by itself, a *group* that only holds nodes together, or a conflict between
two declarations. Scopes and leaves are the declarations proper; the other three are the shape
that files and merges give to them.

Qualified names are part of this module, because only scopes contribute to them: `Kind.within`
says how the path of a node's children comes from the path of the node, and `Kind.keys` lists
the names under which a declaration can be found again in another tree.
-/

namespace StubMerge

/-- Who may call a method. -/
inductive Visibility where
  | everyone
  | family
  | owner
deriving DecidableEq, Repr, Inhabited

/-- The word for a visibility. -/
def Visibility.word : Visibility → String
  | everyone => "public"
  | family => "protected"
  | owner => "private"

/-- The visibility that a word stands for. -/
def Visibility.ofWord? : String → Option Visibility
  | "public" => some everyone
  | "protected" => some family
  | "private" => some owner
  | _ => none

/-- A method. -/
structure Method where
  name : String
  /-- Whether the method belongs to the scope itself and not to its instances. -/
  isSingleton : Bool := false
  visibility : Visibility := .everyone
  params : List Parameter := []
  signatures : List Signature := []
deriving DecidableEq, Repr, Inhabited

/-- Which methods an attribute declares. -/
inductive AttributeKind where
  | reader
  | writer
  | accessor
deriving DecidableEq, Repr, Inhabited

/-- The word that declares an attribute. -/
def AttributeKind.word : AttributeKind → String
  | reader => "attr_reader"
  | writer => "attr_writer"
  | accessor => "attr_accessor"

/-- The kind of attribute that a word declares. -/
def AttributeKind.ofWord? : String → Option AttributeKind
  | "attr_reader" => some reader
  | "attr_writer" => some writer
  | "attr_accessor" => some accessor
  | _ => none

/-- Attributes declared together. -/
structure Attribute where
  kind : AttributeKind := .reader
  names : List String
  visibility : Visibility := .everyone
  signatures : List Signature := []
deriving DecidableEq, Repr, Inhabited

/-- The ways in which one module takes in another. -/
inductive MixinKind where
  | included
  | extended
  | classMethods
deriving DecidableEq, Repr, Inhabited

/-- The word that declares a mixin. -/
def MixinKind.word : MixinKind → String
  | included => "include"
  | extended => "extend"
  | classMethods => "mixes_in_class_methods"

/-- The kind of mixin that a word declares. -/
def MixinKind.ofWord? : String → Option MixinKind
  | "include" => some included
  | "extend" => some extended
  | "mixes_in_class_methods" => some classMethods
  | _ => none

/-- Whether a field of a typed struct can be written. -/
inductive FieldKind where
  | const
  | prop
deriving DecidableEq, Repr, Inhabited

/-- The word that declares a field. -/
def FieldKind.word : FieldKind → String
  | const => "const"
  | prop => "prop"

/-- The kind of field that a word declares. -/
def FieldKind.ofWord? : String → Option FieldKind
  | "const" => some const
  | "prop" => some prop
  | _ => none

/-- A field of a typed struct. -/
structure Field where
  kind : FieldKind := .const
  name : String
  type : String
  /-- The default value as written. -/
  default : Option String := none
deriving DecidableEq, Repr, Inhabited

/-- The names of the two sides of a conflict. -/
structure Labels where
  left : String
  right : String
deriving DecidableEq, Repr, Inhabited

/-- The header of a declaration that others live in. -/
inductive Scope where
  | moduleOf (name : String)
  | classOf (name : String) (superclass : Option String)
  | structOf (name : String) (members : List String) (keywordInit : Bool)
  /-- The singleton class of the scope around it. -/
  | singleton
deriving DecidableEq, Repr, Inhabited

/-- A declaration that stands by itself. -/
inductive Leaf where
  | const (name value : String)
  | method (method : Method)
  | attr (attr : Attribute)
  | mixin (kind : MixinKind) (names : List String)
  /-- A word with an exclamation mark, which is not part of the name. -/
  | helper (name : String)
  | requiresAncestor (name : String)
  | typeMember (name value : String)
  /-- Any other call, with its arguments as written. -/
  | send (method : String) (args : List String)
  | field (field : Field)
  | enums (names : List String)
deriving DecidableEq, Repr, Inhabited

/-- What a node is. -/
inductive Kind where
  /-- Nodes held together: a file, or one side of a conflict. -/
  | group
  | scope (scope : Scope)
  | leaf (leaf : Leaf)
  /-- Two groups, of which only one can stand. -/
  | conflict (labels : Labels)
  /-- Two headers for one body, which the left one carries. -/
  | scopeConflict (labels : Labels)
deriving DecidableEq, Repr, Inhabited

/-! ## Classes of nodes -/

namespace Kind

/-- Whether other declarations live in a node of this kind. -/
def isScope : Kind → Bool
  | scope _ => true
  | _ => false

/-- Whether a node of this kind sets two sides against each other. -/
def isConflict : Kind → Bool
  | conflict _ | scopeConflict _ => true
  | _ => false

/-- Whether a node of this kind may have children. -/
def isContainer : Kind → Bool
  | leaf _ => false
  | _ => true

end Kind

/-! ## The words for kinds -/

/-- The noun for a scope. -/
def Scope.noun : Scope → String
  | moduleOf _ => "module"
  | classOf .. => "class"
  | structOf .. => "struct"
  | singleton => "singleton class"

/-- The noun for a leaf. -/
def Leaf.noun : Leaf → String
  | const .. => "const"
  | method _ => "method"
  | attr _ => "attr"
  | mixin .. => "mixin"
  | helper _ => "helper"
  | requiresAncestor _ => "requires_ancestor"
  | typeMember .. => "type member"
  | send .. => "send"
  | field _ => "T::Struct field"
  | enums _ => "enums block"

/-- The noun for a node. -/
def Kind.noun : Kind → String
  | group => "tree"
  | scope s => s.noun
  | leaf l => l.noun
  | conflict _ => "conflict"
  | scopeConflict _ => "scope conflict"

/-! ## Qualified names -/

/-- What separates the parts of a qualified name. -/
def pathSeparator : String := "::"

/-- A scope path and the name of a member. The empty path is the top level, where a name stands
alone unless it is the name of an instance member. -/
def joinPath (path separator name : String) : String :=
  if path.isEmpty && separator == pathSeparator then name else path ++ separator ++ name

/-- The qualified name of a scope called `name` in the scope `path`. A name that starts with the
separator is qualified as it stands. -/
def qualify (path name : String) : String :=
  match name.toList with
  | ':' :: ':' :: rest => String.ofList rest
  | _ => joinPath path pathSeparator name

/-- The name that a scope contributes to qualified names. -/
def Scope.name : Scope → String
  | moduleOf name => name
  | classOf name _ => name
  | structOf name _ _ => name
  | singleton => "<self>"

/-- The name that a node contributes to qualified names. -/
def Kind.scopeName? : Kind → Option String
  | scope s => some s.name
  | _ => none

/-- The path of the children of a node in the scope `path`: only scopes add to it. -/
def Kind.within (path : String) : Kind → String
  | scope s => qualify path s.name
  | _ => path

/-- The names under which a leaf in the scope `path` can be found. A declaration of several
names has a key for each, and what can be written has a second key for that. -/
def Leaf.keys (path : String) : Leaf → List String
  | const name _ => [joinPath path pathSeparator name]
  | typeMember name _ => [joinPath path pathSeparator name]
  | method m => [joinPath path (if m.isSingleton then pathSeparator else "#") m.name]
  | attr a => a.names.flatMap fun name =>
      let reader := joinPath path "#" name
      match a.kind with
      | .reader => [reader]
      | .writer => [reader ++ "="]
      | .accessor => [reader, reader ++ "="]
  | mixin kind names => names.map fun name => path ++ "." ++ kind.word ++ "(" ++ name ++ ")"
  | helper name => [path ++ "." ++ name ++ "!"]
  | requiresAncestor name => [path ++ ".requires_ancestor(" ++ name ++ ")"]
  | send name _ => [path ++ "." ++ name]
  | field f =>
      let reader := joinPath path "#" f.name
      match f.kind with
      | .const => [reader]
      | .prop => [reader, reader ++ "="]
  | enums _ => [path ++ ".enums"]

/-- The names under which a node in the scope `path` can be found. -/
def Kind.keys (path : String) : Kind → List String
  | scope s => [qualify path s.name]
  | leaf l => l.keys path
  | _ => []

end StubMerge
