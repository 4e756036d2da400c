import StubMerge.Forest.Index
import StubMerge.Merge.Agreement
import StubMerge.Merge.Conflict
import StubMerge.Merge.Settle

/-!
# Merging

A `Merger` takes outlines one after the other. The first is copied as it is. Each later one is
gone through declaration by declaration and matched against all that is there: declarations
that agree are folded into one, new ones are put into the scope they belong to, and those that
do not agree are set against each other in a conflict.

A declaration is matched by the names it goes by. Of the nodes found under them the latest that
agrees is taken, or else the latest; scopes that are open at the moment are left out, so nothing
is ever merged into a scope that it is part of.
-/

namespace StubMerge

/-- An outline to be merged: a file with the path of the scope that it lives in. -/
structure Source where
  root : Outline
  path : String := ""

/-- What the root of a forest reaches, as an outline to be merged. -/
def Forest.source (f : Forest) : Source :=
  { root := f.outline root, path := (f.kind root).within (f.scopePath root) }

/-- A merge under way. -/
structure Merger where
  labels : Labels
  output : Forest := .empty
  index : Index := {}
  conflicts : Array Conflict := #[]
  /-- Whether an outline was taken in. -/
  started : Bool := false

namespace Merger

/-! ## Finding -/

/-- The innermost open scope; the root if there is none. -/
def currentScope (scopes : List NodeId) : NodeId := scopes.headD Forest.root

/-- The node that a declaration is matched with. -/
def previous? (m : Merger) (scopes : List NodeId) (keys : List String) (kind : Kind) :
    Option NodeId :=
  let found := (m.index.candidates keys).filter fun id => !scopes.contains id
  (found.find? fun id => (m.output.kind id).agrees kind).or found.head?

/-- The other header of the conflict between headers whose left header is `id`. -/
def otherHeader? (f : Forest) (id : NodeId) : Option NodeId :=
  (f.parent id).bind fun conflict =>
    match f.kind conflict, f.children conflict with
    | .scopeConflict _, [left, right] => if left == id then some right else none
    | _, _ => none

/-- The right side of the conflict whose left side is `inner`, among nodes from `inner` upwards.
Groups are looked through; scopes are not, so that a member of a scope stays in it. -/
def rightAbove? (f : Forest) (inner : NodeId) : List NodeId → Option NodeId
  | [] => none
  | a :: above =>
    match f.kind a with
    | .group => rightAbove? f a above
    | .conflict _ =>
      match f.children a with
      | [left, right] => if left == inner then some right else none
      | _ => none
    | _ => none

/-- The right side of the conflict whose left side holds a node. -/
def rightSide? (f : Forest) (id : NodeId) : Option NodeId := rightAbove? f id (f.ancestors id)

/-! ## Writing -/

/-- Writes down that a declaration does not agree with a node. -/
def record (m : Merger) (keys : List String) (entry : Entry) (previous : NodeId) : Merger :=
  { m with
    conflicts := m.conflicts.push
      { labels := m.labels
        description := keys.headD entry.kind.noun
        noun := entry.kind.noun
        leftLocation := (m.output.entry previous).location
        rightLocation := entry.location } }

/-- Registers a node and all below it. -/
def registerTree (m : Merger) (id : NodeId) : Merger :=
  { m with index := (id :: m.output.descendants id).foldl m.output.register m.index }

/-- Copies an outline into a scope. The copy is returned. -/
def copyInto (m : Merger) (scope : NodeId) (o : Outline) : Except EditError (Merger × NodeId) := do
  let made := m.output.graft o
  let f ← made.1.attach scope made.2
  return ({ m with output := f }, made.2)

/-- Sets a node without a parent against a node that is there. If that stands on the left of a
conflict already, the new one joins the right; otherwise a new conflict takes its place. A scope
whose header is in conflict is taken as a whole. -/
def oppose (m : Merger) (previous copy : NodeId) : Except EditError Merger := do
  let f := m.output
  let target := if (otherHeader? f previous).isSome then (f.parent previous).getD previous
    else previous
  match rightSide? f target with
  | some right => return { m with output := ← f.attach right copy }
  | none =>
    let (f, conflict) := f.alloc { kind := .conflict m.labels }
    let (f, left) := f.alloc {}
    let (f, right) := f.alloc {}
    let f ← f.replace target conflict
    let f ← f.attach conflict left
    let f ← f.attach conflict right
    let f ← f.attach left target
    return { m with output := ← f.attach right copy }

/-- Sets a header against the header of a scope that is there. -/
def opposeHeader (m : Merger) (previous : NodeId) (entry : Entry) : Except EditError Merger := do
  let (f, conflict) := m.output.alloc { kind := .scopeConflict m.labels }
  let f ← f.replace previous conflict
  let f ← f.attach conflict previous
  let (f, right) := f.alloc entry
  return { m with output := ← f.attach conflict right }

/-! ## Scopes -/

/-- Puts a scope header that is new into the innermost open scope. -/
def newScope (m : Merger) (scopes : List NodeId) (entry : Entry) :
    Except EditError (Merger × NodeId) := do
  let (f, header) := m.output.alloc entry
  let f ← f.attach (currentScope scopes) header
  return ({ m with output := f, index := f.register m.index header }, header)

/-- Sets a scope header against a leaf of the same name. -/
def scopeAgainstLeaf (m : Merger) (keys : List String) (entry : Entry) (previous : NodeId) :
    Except EditError (Merger × NodeId) := do
  let m := m.record keys entry previous
  let (f, header) := m.output.alloc entry
  let m ← { m with output := f }.oppose previous header
  return ({ m with index := m.output.register m.index header }, header)

/-- Merges a scope header into a scope that is there. -/
def scopeIntoScope (m : Merger) (keys : List String) (entry : Entry) (previous : NodeId) :
    Except EditError Merger :=
  let f := m.output
  let folded : Merger := { m with output := f.unionComments previous entry.comments }
  let agrees := (f.kind previous).agrees entry.kind
  match otherHeader? f previous with
  | some right =>
    if agrees || (f.kind right).agrees entry.kind then .ok folded
    else .ok (m.record keys entry previous)
  | none =>
    if agrees then .ok folded else (m.record keys entry previous).opposeHeader previous entry

/-- Opens a scope: the node that its body goes into is returned. -/
def openScope (m : Merger) (scopes : List NodeId) (path : String) (entry : Entry) :
    Except EditError (Merger × NodeId) := do
  let keys := entry.kind.keys path
  match m.previous? scopes keys entry.kind with
  | none => m.newScope scopes entry
  | some previous =>
    if (m.output.kind previous).isScope then
      return (← m.scopeIntoScope keys entry previous, previous)
    else m.scopeAgainstLeaf keys entry previous

/-! ## Leaves -/

/-- Merges a leaf, with all that is below it. -/
def addLeaf (m : Merger) (scopes : List NodeId) (path : String) (o : Outline) :
    Except EditError Merger := do
  let entry := o.entry
  let keys := entry.kind.keys path
  match m.previous? scopes keys entry.kind with
  | none =>
    let (m, copy) ← m.copyInto (currentScope scopes) o
    return m.registerTree copy
  | some previous =>
    let kind := m.output.kind previous
    if kind.agrees entry.kind then
      let f := m.output.setKind previous (kind.fold entry.kind)
      return { m with output := f.unionComments previous entry.comments }
    else
      let m := m.record keys entry previous
      let (f, copy) := m.output.graft o
      { m with output := f }.oppose previous copy

/-! ## Whole outlines -/

mutual
/-- Merges an outline into the innermost open scope. `path` is the scope path of the outline in
its own file. Conflicts of the outline are copied: there is nothing to match them with. -/
def visit (m : Merger) (scopes : List NodeId) (path : String) : Outline → Except EditError Merger
  | .node entry cs =>
    match entry.kind with
    | .group =>
      let f := m.output.unionComments (currentScope scopes) entry.comments
      visitAll { m with output := f } scopes path cs
    | .conflict _ | .scopeConflict _ => do
      let (m, _) ← m.copyInto (currentScope scopes) (.node entry cs)
      return m
    | .scope _ => do
      let (m, scope) ← m.openScope scopes path entry
      visitAll m (scope :: scopes) (entry.kind.within path) cs
    | .leaf _ => m.addLeaf scopes path (.node entry cs)
/-- Merges outlines, one after the other. -/
def visitAll (m : Merger) (scopes : List NodeId) (path : String) :
    List Outline → Except EditError Merger
  | [] => .ok m
  | c :: cs => do
    let m ← m.visit scopes path c
    m.visitAll scopes path cs
end

/-- Copies outlines behind what the root holds. -/
def copyAll (m : Merger) : List Outline → Except EditError Merger
  | [] => .ok m
  | c :: cs => do
    let (m, copy) ← m.copyInto Forest.root c
    (m.registerTree copy).copyAll cs

/-- Takes in an outline. -/
def add (m : Merger) (s : Source) : Except EditError Merger :=
  let f := m.output.unionComments Forest.root s.root.entry.comments
  let ready : Merger := { m with output := f, started := true }
  if m.started then ready.visitAll [] s.path s.root.children else ready.copyAll s.root.children

/-- What a merge comes to. -/
structure Result where
  forest : Forest
  conflicts : List Conflict

/-- Ends a merge: neighbouring conflicts are coalesced. -/
def finish (m : Merger) : Except EditError Result :=
  match m.output.coalesce with
  | .ok forest => .ok { forest, conflicts := m.conflicts.toList }
  | .error stopped => .error stopped.error

end Merger

/-- Merges two outlines. -/
def merge (labels : Labels) (left right : Source) : Except EditError Merger.Result := do
  let m ← Merger.add { labels } left
  let m ← m.add right
  m.finish

end StubMerge
