import StubMerge.Declaration.Kind

/-!
# Outlines

An `Outline` is a declaration tree as a value: an entry and the outlines below it. It is what a
text is read into, what is printed, and what a merge takes as input. A `Forest` shows its trees
as outlines too, so every question that does not ask for node numbers is asked of outlines.
-/

namespace StubMerge

/-- The part of a file that a declaration was read from. Lines count from one, columns count
bytes from zero. -/
structure Location where
  file : Option String := none
  beginLine : Nat
  beginColumn : Nat
  endLine : Nat
  endColumn : Nat
deriving DecidableEq, Repr, Inhabited

/-- A location in one line. -/
def Location.text (l : Location) : String :=
  (match l.file with
    | some file => file ++ ":"
    | none => "")
  ++ toString l.beginLine ++ ":" ++ toString l.beginColumn ++ "-"
  ++ toString l.endLine ++ ":" ++ toString l.endColumn

/-- What a node carries apart from its place in a tree. -/
structure Entry where
  kind : Kind := .group
  /-- The comments above the declaration, a line each, without their mark. -/
  comments : List String := []
  location : Option Location := none
deriving DecidableEq, Repr, Inhabited

/-- A declaration tree. -/
inductive Outline where
  | node (entry : Entry) (children : List Outline)
deriving Repr, Inhabited

namespace Outline

/-- The entry at the top. -/
def entry : Outline → Entry
  | node e _ => e

/-- The outlines below the top. -/
def children : Outline → List Outline
  | node _ cs => cs

/-- The same outline with `comments` behind those of the top. -/
def addComments (comments : List String) : Outline → Outline
  | node e cs => node { e with comments := e.comments ++ comments } cs

mutual
/-- The entries from the top down, parents before children, each with its depth. -/
def preorder (depth : Nat) : Outline → List (Nat × Entry)
  | node e cs => (depth, e) :: preorderAll (depth + 1) cs
/-- The entries of several outlines, one after the other. -/
def preorderAll (depth : Nat) : List Outline → List (Nat × Entry)
  | [] => []
  | c :: cs => c.preorder depth ++ preorderAll depth cs
end

end Outline

end StubMerge
