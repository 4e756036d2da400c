import StubMerge.Declaration.Outline

/-!
# Conflict records

A merge writes down every pair of declarations that do not agree.
-/

namespace StubMerge

/-- Two declarations of one name that do not agree. -/
structure Conflict where
  labels : Labels
  /-- The name that both declare. -/
  description : String
  /-- The noun for the later declaration. -/
  noun : String
  leftLocation : Option Location
  rightLocation : Option Location
deriving DecidableEq, Repr, Inhabited

/-- What is said about a conflict. -/
def Conflict.message (c : Conflict) : String :=
  "Conflicting definitions for `" ++ c.description ++ "`"

end StubMerge
