import StubMerge.Forest.Edit

/-!
# Settling conflicts

Two things are done to the conflicts of a forest. *Coalescing* puts neighbouring conflicts with
the same labels into one, left sides behind left sides and right sides behind right sides.
*Resolving* puts one side of every conflict in its place: of a conflict between groups what the
group holds, of a conflict between headers the header with the body that they share.

Both work on the links of the forest, and both can meet a conflict that has not two sides. Then
they stop, and what they have done so far stays done.
-/

namespace StubMerge

/-- The side of a conflict that is kept. -/
inductive Side where
  | left
  | right
deriving DecidableEq, Repr, Inhabited

/-- The one of two things that a side stands for. -/
def Side.pick {α : Type} : Side → α → α → α
  | left, l, _ => l
  | right, _, r => r

/-- A series of edits that failed, with the forest as the edits before left it. -/
structure Stopped where
  error : EditError
  forest : Forest
deriving DecidableEq, Repr, Inhabited

namespace Forest

/-- An edit as part of a series. -/
def attempt (f : Forest) (edited : Except EditError Forest) : Except Stopped Forest :=
  edited.mapError fun error => { error, forest := f }

/-- The two sides of a conflict. -/
def sides (f : Forest) (conflict : NodeId) : Except EditError (NodeId × NodeId) :=
  match f.children conflict with
  | [left, right] => .ok (left, right)
  | _ => .error (.malformed conflict (f.kind conflict))

/-- The two sides of a conflict, as part of a series of edits. -/
def sidesOrStop (f : Forest) (conflict : NodeId) : Except Stopped (NodeId × NodeId) :=
  (f.sides conflict).mapError fun error => { error, forest := f }

/-! ## Coalescing -/

/-- Puts the sides of one conflict behind those of another and takes it out. -/
def absorb (f : Forest) (head other : NodeId) : Except Stopped Forest := do
  let (headLeft, headRight) ← f.sidesOrStop head
  let (left, right) ← f.sidesOrStop other
  let f ← f.attempt (f.moveChildren left headLeft)
  let f ← f.attempt (f.moveChildren right headRight)
  return f.detach other

/-- Goes over neighbours and lets each conflict absorb those behind it. `head` is the conflict
that the last node was or was absorbed by. -/
def coalesceRun (f : Forest) (head : Option NodeId) : List NodeId → Except Stopped Forest
  | [] => .ok f
  | id :: later =>
    match f.kind id with
    | .conflict _ =>
      match head.filter fun h => f.kind h == f.kind id with
      | some h => do
        let f ← f.absorb h id
        f.coalesceRun (some h) later
      | none => f.coalesceRun (some id) later
    | _ => f.coalesceRun none later

/-- Coalesces the children of a node, then those of each child, down to a depth. -/
def coalesceTo (f : Forest) : Nat → NodeId → Except Stopped Forest
  | 0, _ => .ok f
  | depth + 1, id => do
    let f ← f.coalesceRun none (f.children id)
    (f.children id).foldlM (fun f child =>
      if (f.kind child).isContainer then f.coalesceTo depth child else .ok f) f

/-- Coalesces all conflicts that the root reaches. -/
def coalesce (f : Forest) : Except Stopped Forest := f.coalesceTo f.size root

/-! ## Resolving -/

/-- Moves nodes to a place among the children of another, one behind the other. -/
def splice (f : Forest) (container position : Nat) : List NodeId → Except Stopped Forest
  | [] => .ok f
  | id :: later => do
    let g := f.detach id
    let g ← g.attempt (g.insert container position id)
    g.splice container (position + 1) later

/-- Puts what one side of a conflict between groups holds in its place. -/
def resolveGroups (f : Forest) (side : Side) (container position conflict : NodeId) :
    Except Stopped Forest := do
  let (left, right) ← f.sidesOrStop conflict
  let kept := side.pick left right
  let f := f.detach conflict
  f.splice container position (f.children kept)

/-- Puts one header of a conflict between headers in its place, with the body. -/
def resolveHeaders (f : Forest) (side : Side) (conflict : NodeId) : Except Stopped Forest := do
  let (left, right) ← f.sidesOrStop conflict
  let f := (f.detach left).detach right
  let f ← match side with
    | .left => .ok f
    | .right => f.attempt (f.moveChildren left right)
  f.attempt (f.replace conflict (side.pick left right))

/-- Resolves the children of a node from a place on, in at most `steps` steps. What takes the
place of a conflict is looked at again, so conflicts inside conflicts are resolved too. -/
def resolveFrom (f : Forest) (side : Side) :
    Nat → (container : NodeId) → (position : Nat) → Except Stopped Forest
  | 0, _, _ => .ok f
  | steps + 1, container, position =>
    match (f.children container)[position]? with
    | none => .ok f
    | some id =>
      match f.kind id with
      | .conflict _ => do
        let f ← f.resolveGroups side container position id
        f.resolveFrom side steps container position
      | .scopeConflict _ => do
        let f ← f.resolveHeaders side id
        f.resolveFrom side steps container position
      | .leaf _ => f.resolveFrom side steps container (position + 1)
      | .group | .scope _ => do
        let f ← f.resolveFrom side steps id 0
        f.resolveFrom side steps container (position + 1)

/-- Resolves all conflicts that the root reaches to one side. -/
def resolve (f : Forest) (side : Side) : Except Stopped Forest :=
  f.resolveFrom side (f.size + 1) root 0

end Forest

end StubMerge
