import StubMerge.Declaration.Outline

/-!
# Forests of numbered nodes

A `Forest` is a table of nodes. Nodes are numbered in the order in which they are made, and
node `0`, the *root*, is there from the start. Each node knows its parent and its children, so
one link is written down twice; the edits keep the two in step. A node without a parent is the
top of a tree of its own: it stays in the table, but the root does not reach it.

This module holds the table, reading and writing of single nodes, and the walks along links.
A walk takes at most as many steps as there are nodes, which is enough in a forest.
-/

namespace StubMerge

/-- The number of a node. -/
abbrev NodeId := Nat

/-- A node: what it carries, and its links. -/
structure Node where
  entry : Entry := {}
  parent : Option NodeId := none
  children : List NodeId := []
deriving DecidableEq, Repr, Inhabited

/-- A table of nodes. -/
structure Forest where
  nodes : Array Node
deriving DecidableEq, Repr, Inhabited

namespace Forest

/-- The root. -/
def root : NodeId := 0

/-- The forest with nothing but a root. -/
def empty : Forest := ⟨#[{}]⟩

/-- How many nodes were made. -/
def size (f : Forest) : Nat := f.nodes.size

/-! ## Single nodes -/

/-- The node with a number. -/
def node (f : Forest) (id : NodeId) : Node := f.nodes[id]?.getD {}

/-- What a node carries. -/
def entry (f : Forest) (id : NodeId) : Entry := (f.node id).entry

/-- What a node is. -/
def kind (f : Forest) (id : NodeId) : Kind := (f.entry id).kind

/-- The parent of a node. -/
def parent (f : Forest) (id : NodeId) : Option NodeId := (f.node id).parent

/-- The children of a node, in order. -/
def children (f : Forest) (id : NodeId) : List NodeId := (f.node id).children

/-- The place of a node among the children of its parent. -/
def position? (f : Forest) (id : NodeId) : Option Nat :=
  (f.parent id).bind fun p => (f.children p).idxOf? id

/-- The forest with one node changed. -/
def modify (f : Forest) (id : NodeId) (change : Node → Node) : Forest :=
  ⟨f.nodes.modify id change⟩

/-- The forest with another entry at a node. -/
def setEntry (f : Forest) (id : NodeId) (entry : Entry) : Forest :=
  f.modify id fun n => { n with entry }

/-- The forest with another kind at a node. -/
def setKind (f : Forest) (id : NodeId) (kind : Kind) : Forest :=
  f.setEntry id { f.entry id with kind }

/-- The forest with other comments at a node. -/
def setComments (f : Forest) (id : NodeId) (comments : List String) : Forest :=
  f.setEntry id { f.entry id with comments }

/-- The forest with another location at a node. -/
def setLocation (f : Forest) (id : NodeId) (location : Option Location) : Forest :=
  f.setEntry id { f.entry id with location }

/-- The forest with another parent of a node. -/
def setParent (f : Forest) (id : NodeId) (parent : Option NodeId) : Forest :=
  f.modify id fun n => { n with parent }

/-- The forest with other children of a node. -/
def setChildren (f : Forest) (id : NodeId) (children : List NodeId) : Forest :=
  f.modify id fun n => { n with children }

/-- A new node without links, and its number. -/
def alloc (f : Forest) (entry : Entry) : Forest × NodeId := (⟨f.nodes.push { entry }⟩, f.size)

theorem node_modify_same {f : Forest} {id : NodeId} (h : id < f.size) (change : Node → Node) :
    (f.modify id change).node id = change (f.node id) := by
  have h' : id < f.nodes.size := h
  simp [modify, node, h', Array.getElem_modify]

theorem node_modify_other (f : Forest) {id other : NodeId} (h : other ≠ id)
    (change : Node → Node) : (f.modify id change).node other = f.node other := by
  simp [modify, node, Array.getElem?_modify, Ne.symm h]

@[simp] theorem size_modify (f : Forest) (id : NodeId) (change : Node → Node) :
    (f.modify id change).size = f.size := by simp [modify, size]

theorem node_alloc_same (f : Forest) (entry : Entry) :
    (f.alloc entry).1.node (f.alloc entry).2 = { entry } := by
  simp [alloc, node, size]

theorem node_alloc_other (f : Forest) (entry : Entry) {id : NodeId} (h : id < f.size) :
    (f.alloc entry).1.node id = f.node id := by
  have h' : id < f.nodes.size := h
  simp [alloc, node, Array.getElem?_push, Nat.ne_of_lt h']

@[simp] theorem size_alloc (f : Forest) (entry : Entry) :
    (f.alloc entry).1.size = f.size + 1 := by simp [alloc, size]

/-! ## Upwards -/

/-- The nodes from `id` upwards, at most `steps` of them. -/
def upwards (f : Forest) : Nat → Option NodeId → List NodeId
  | 0, _ => []
  | _, none => []
  | steps + 1, some id => id :: f.upwards steps (f.parent id)

/-- The nodes above a node, nearest first. -/
def ancestors (f : Forest) (id : NodeId) : List NodeId := f.upwards f.size (f.parent id)

/-- The nearest scope above a node. -/
def enclosingScope? (f : Forest) (id : NodeId) : Option NodeId :=
  (f.ancestors id).find? fun a => (f.kind a).isScope

/-- The qualified name of the scope that a node lives in; empty at the top level. Nodes that are
no scopes add nothing to it. -/
def scopePath (f : Forest) (id : NodeId) : String :=
  (f.ancestors id).foldr (fun a path => (f.kind a).within path) ""

/-- The qualified name of a scope. -/
def qualifiedName? (f : Forest) (id : NodeId) : Option String :=
  (f.kind id).scopeName?.map (qualify (f.scopePath id))

/-- The names under which a node can be found in another tree. -/
def indexKeys (f : Forest) (id : NodeId) : List String := (f.kind id).keys (f.scopePath id)

/-! ## Downwards -/

/-- Takes nodes from a stack and puts their children on it, at most `steps` times. -/
def walk (f : Forest) : Nat → List NodeId → List NodeId
  | 0, _ => []
  | _, [] => []
  | steps + 1, id :: stack => id :: f.walk steps (f.children id ++ stack)

/-- The nodes below a node, parents before children. -/
def descendants (f : Forest) (id : NodeId) : List NodeId := f.walk f.size (f.children id)

/-- How many nodes the root reaches, itself apart. -/
def nodeCount (f : Forest) : Nat := (f.descendants root).length

/-- How many conflicts the root reaches. -/
def conflictCount (f : Forest) : Nat :=
  (f.descendants root).countP fun id => (f.kind id).isConflict

/-- The tree at a node as an outline, down to a depth. -/
def outlineTo (f : Forest) : Nat → NodeId → Outline
  | 0, id => .node (f.entry id) []
  | depth + 1, id => .node (f.entry id) ((f.children id).map (f.outlineTo depth))

/-- The tree at a node as an outline. -/
def outline (f : Forest) (id : NodeId) : Outline := f.outlineTo f.size id

/-! ## Making trees of outlines -/

/-- Puts a node behind the children of another. Only for nodes that are new. -/
def link (f : Forest) (parent child : NodeId) : Forest :=
  (f.setChildren parent (f.children parent ++ [child])).setParent child (some parent)

mutual
/-- Makes a tree of an outline, parents before children. Its top has no parent. -/
def graft (f : Forest) : Outline → Forest × NodeId
  | .node entry cs =>
    let made := f.alloc entry
    (graftAll made.1 made.2 cs, made.2)
/-- Makes trees of outlines and puts them behind the children of `parent`. -/
def graftAll (f : Forest) (parent : NodeId) : List Outline → Forest
  | [] => f
  | c :: cs =>
    let made := f.graft c
    graftAll (made.1.link parent made.2) parent cs
end

/-- Copies a node without its children from one forest to another. -/
def copyHeader (f source : Forest) (id : NodeId) : Forest × NodeId := f.alloc (source.entry id)

/-- Copies the tree at a node from one forest to another. -/
def copySubtree (f source : Forest) (id : NodeId) : Forest × NodeId := f.graft (source.outline id)

end Forest

end StubMerge
