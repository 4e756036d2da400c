import StubMerge.Data.AppendNew
import StubMerge.Forest.Basic

/-!
# Edits of a forest

An edit changes links. Before it writes anything it checks that the result is a forest again:
only containers get children, a node that has a parent gets no other one, and no node comes to
stand below itself. An edit that fails leaves the forest as it was.
-/

namespace StubMerge

/-- Why an edit cannot be made. -/
inductive EditError where
  | orphan (node : NodeId)
  | alreadyAttached (node parent : NodeId)
  | notAContainer (node : NodeId)
  /-- A node is missing among the children of its own parent. -/
  | corrupted (node parent : NodeId)
  | cycle (node : NodeId)
  /-- A conflict has not exactly two sides. -/
  | malformed (node : NodeId) (kind : Kind)
deriving DecidableEq, Repr, Inhabited

namespace EditError

/-- How messages name a node. -/
def shown (id : NodeId) : String := "#" ++ toString id

/-- What is said about an error. -/
def message : EditError → String
  | orphan node => "node " ++ shown node ++ " has no parent"
  | alreadyAttached node parent =>
    "node " ++ shown node ++ " is already attached to " ++ shown parent
  | notAContainer node => "node " ++ shown node ++ " cannot hold children"
  | corrupted node parent =>
    "node " ++ shown node ++ " is missing from the children of its parent " ++ shown parent
  | cycle node => "attaching " ++ shown node ++ " would make it its own ancestor"
  | malformed node kind =>
    kind.noun ++ " node " ++ shown node ++ " does not have the expected shape"

end EditError

namespace Forest

/-- Whether `id` is `other` or stands above it. -/
def isAtOrAbove (f : Forest) (id other : NodeId) : Bool :=
  id == other || (f.ancestors other).contains id

/-- Puts a node without a parent among the children of another, at a place or at the end. -/
def insert (f : Forest) (parent : NodeId) (position : Nat) (child : NodeId) :
    Except EditError Forest :=
  if !(f.kind parent).isContainer then .error (.notAContainer parent)
  else match f.parent child with
    | some current => .error (.alreadyAttached child current)
    | none =>
      if f.isAtOrAbove child parent then .error (.cycle child)
      else
        let siblings := f.children parent
        let place := min position siblings.length
        .ok ((f.setChildren parent (siblings.insertIdx place child)).setParent child (some parent))

/-- Puts a node without a parent behind the children of another. -/
def attach (f : Forest) (parent child : NodeId) : Except EditError Forest :=
  f.insert parent (f.children parent).length child

/-- Makes a node and puts it behind the children of another. The node is made even if it cannot
be put there. -/
def push (f : Forest) (parent : NodeId) (entry : Entry) : Forest × Except EditError NodeId :=
  let made := f.alloc entry
  match made.1.attach parent made.2 with
  | .ok g => (g, .ok made.2)
  | .error e => (made.1, .error e)

/-- Takes a node from its parent, if it has one. -/
def detach (f : Forest) (id : NodeId) : Forest :=
  match f.parent id with
  | none => f
  | some p =>
    let f := f.setParent id none
    f.setChildren p ((f.children p).filter (· != id))

/-- Puts `new` where `old` is, and `old` nowhere. -/
def replace (f : Forest) (old new : NodeId) : Except EditError Forest :=
  match f.parent old with
  | none => .error (.orphan old)
  | some p =>
    match f.parent new with
    | some current => .error (.alreadyAttached new current)
    | none =>
      if f.isAtOrAbove new p then .error (.cycle new)
      else match f.position? old with
        | none => .error (.corrupted old p)
        | some place =>
          .ok (((f.setChildren p ((f.children p).set place new)).setParent new (some p)).setParent
            old none)

/-- Puts the children of `source` behind those of `target`. -/
def moveChildren (f : Forest) (source target : NodeId) : Except EditError Forest :=
  if !(f.kind target).isContainer then .error (.notAContainer target)
  else if (f.ancestors target).contains source then .error (.cycle source)
  else
    let moved := f.children source
    let f := f.setChildren source []
    let f := moved.foldl (fun f child => f.setParent child (some target)) f
    .ok (f.setChildren target (f.children target ++ moved))

/-- The comments of `comments` that a node does not carry yet are put behind those it has. -/
def unionComments (f : Forest) (id : NodeId) (comments : List String) : Forest :=
  f.setComments id ((f.entry id).comments.appendNew comments)

/-! ## Edits that succeed -/

variable {f g : Forest}

theorem insert_eq_ok {p c : NodeId} {position : Nat} (h : f.insert p position c = .ok g) :
    (f.kind p).isContainer = true ∧ f.parent c = none ∧ f.isAtOrAbove c p = false ∧
      g = (f.setChildren p ((f.children p).insertIdx (min position (f.children p).length)
        c)).setParent c (some p) := by
  unfold insert at h
  split at h
  · cases h
  · next hkind =>
    split at h
    · cases h
    · next hnone =>
      split at h
      · cases h
      · next hcycle =>
        exact ⟨by simpa using hkind, hnone, by simpa using hcycle, (Except.ok.inj h).symm⟩

/-- The new node stands between the nodes that the old one stood between. -/
theorem replace_eq_ok {old new : NodeId} (h : f.replace old new = .ok g) :
    ∃ p xs ys, f.parent old = some p ∧ f.parent new = none ∧ f.isAtOrAbove new p = false ∧
      f.children p = xs ++ old :: ys ∧
      g = ((f.setChildren p (xs ++ new :: ys)).setParent new (some p)).setParent old none := by
  unfold replace at h
  split at h
  · cases h
  · next p hold =>
    split at h
    · cases h
    · next hnew =>
      split at h
      · cases h
      · next hcycle =>
        split at h
        · cases h
        · next place hplace =>
          rw [position?, hold, Option.bind_some, List.idxOf?_eq_some_iff] at hplace
          obtain ⟨hlt, hget, -⟩ := hplace
          refine ⟨p, (f.children p).take place, (f.children p).drop (place + 1), hold, hnew,
            by simpa using hcycle, ?_, ?_⟩
          · rw [← hget, List.getElem_cons_drop, List.take_append_drop]
          · rw [← Except.ok.inj h, List.set_eq_take_append_cons_drop, if_pos hlt]

theorem moveChildren_eq_ok {source target : NodeId} (h : f.moveChildren source target = .ok g) :
    (f.kind target).isContainer = true ∧ (f.ancestors target).contains source = false ∧
      ∃ k, k = (f.children source).foldl (fun f child => f.setParent child (some target))
        (f.setChildren source []) ∧
      g = k.setChildren target (k.children target ++ f.children source) := by
  unfold moveChildren at h
  split at h
  · cases h
  · next hkind =>
    split at h
    · cases h
    · next hcycle =>
      exact ⟨by simpa using hkind, by simpa using hcycle, _, rfl, (Except.ok.inj h).symm⟩

end Forest

end StubMerge
