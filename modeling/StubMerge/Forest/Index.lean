import StubMerge.Data.AppendNew
import StubMerge.Forest.Basic

/-!
# The index of a forest

An `Index` finds nodes by the names they go by. It is a list of registrations, the latest
first: a name with the node that was registered under it.
-/

namespace StubMerge

/-- Which nodes were registered under which names. -/
structure Index where
  /-- Registrations, the latest first. -/
  entries : List (String × NodeId) := []
deriving DecidableEq, Repr, Inhabited

namespace Index

/-- The index with a node registered under each of the names, in order. -/
def register (index : Index) (keys : List String) (id : NodeId) : Index :=
  ⟨(keys.map fun key => (key, id)).reverse ++ index.entries⟩

/-- The nodes registered under a name, the latest first. -/
def latest (index : Index) (key : String) : List NodeId :=
  (index.entries.filter fun e => e.1 == key).map Prod.snd

/-- The nodes registered under a name, in order. -/
def get (index : Index) (key : String) : List NodeId := (index.latest key).reverse

/-- The node last registered under a name. -/
def lookup? (index : Index) (key : String) : Option NodeId := (index.latest key).head?

/-- The nodes registered under any of the names: name by name, for each the latest first, and
none twice. -/
def candidates (index : Index) (keys : List String) : List NodeId :=
  [].appendNew (keys.flatMap index.latest)

end Index

/-- Registers a node under the names it goes by in its forest. -/
def Forest.register (f : Forest) (index : Index) (id : NodeId) : Index :=
  index.register (f.indexKeys id) id

end StubMerge
