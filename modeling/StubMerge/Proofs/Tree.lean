import Mathlib.Algebra.Order.Group.Multiset
import Mathlib.Data.Multiset.Bind
import Mathlib.Tactic.Abel
import StubMerge.Forest.Basic

/-!
# Numbered trees

A `Forest` keeps its trees in a table. A `Tree` is one of these trees as a value: an outline in
which every node carries its number. All that is proved about merges is proved about trees, and
`Proofs/Table` says when a table holds one.

**Rows.** `Tree.rows` lists the rows of the table that a tree stands for. It is a multiset, so
that the rows of a tree split into those of its parts in any order.

**Frames.** A node of a tree is singled out by taking the tree apart: `s.under K` is the tree
that has `s` below the frames `K`, the nearest first. A frame is a node with one child missing.
Every list that is read off a tree from left to right falls into a part before `s`, the part of
`s` itself, and a part behind it, and the outer parts depend on `K` alone. So what an edit at `s`
does to the whole is what it does to `s`.
-/

namespace StubMerge

/-- A tree of a forest, with the numbers of its nodes. -/
inductive Tree where
  | node (id : NodeId) (entry : Entry) (children : List Tree)
deriving Inhabited

/-- A row of the table of a forest. -/
abbrev Row := NodeId × Node

namespace Tree

/-- The number at the top. -/
def id : Tree → NodeId
  | node i _ _ => i

/-- The entry at the top. -/
def entry : Tree → Entry
  | node _ e _ => e

/-- What the top is. -/
def kind (t : Tree) : Kind := t.entry.kind

/-- The trees below the top. -/
def children : Tree → List Tree
  | node _ _ cs => cs

@[simp] theorem id_node (i : NodeId) (e : Entry) (cs : List Tree) : (node i e cs).id = i := rfl

@[simp] theorem entry_node (i : NodeId) (e : Entry) (cs : List Tree) :
    (node i e cs).entry = e := rfl

@[simp] theorem kind_node (i : NodeId) (e : Entry) (cs : List Tree) :
    (node i e cs).kind = e.kind := rfl

@[simp] theorem children_node (i : NodeId) (e : Entry) (cs : List Tree) :
    (node i e cs).children = cs := rfl

/-- Induction over trees: what holds of a tree if it holds of all its children holds of all
trees. -/
theorem induct {P : Tree → Prop}
    (step : ∀ i e cs, (∀ c ∈ cs, P c) → P (node i e cs)) : ∀ t, P t
  | node i e cs => step i e cs fun c _ => induct step c

/-! ## Numbers -/

mutual
/-- The numbers of a tree, parents before children. -/
def ids : Tree → List NodeId
  | node i _ cs => i :: idsAll cs
/-- The numbers of several trees. -/
def idsAll : List Tree → List NodeId
  | [] => []
  | c :: cs => c.ids ++ idsAll cs
end

@[simp] theorem idsAll_append (cs ds : List Tree) : idsAll (cs ++ ds) = idsAll cs ++ idsAll ds := by
  induction cs with
  | nil => rfl
  | cons c cs ih => simp [idsAll, ih]

theorem ids_eq (t : Tree) : t.ids = t.id :: idsAll t.children := by
  cases t; rfl

theorem id_mem_ids (t : Tree) : t.id ∈ t.ids := by
  simp [ids_eq]

theorem mem_idsAll {i : NodeId} {cs : List Tree} : i ∈ idsAll cs ↔ ∃ c ∈ cs, i ∈ c.ids := by
  induction cs with
  | nil => simp [idsAll]
  | cons c cs ih => simp [idsAll, ih]

/-! ## Rows -/

mutual
/-- The rows that a tree stands for, if its top has the given parent. -/
def rows (parent : Option NodeId) : Tree → Multiset Row
  | node i e cs =>
    {(i, { entry := e, parent := parent, children := cs.map id })} + rowsAll (some i) cs
/-- The rows of several trees with one parent. -/
def rowsAll (parent : Option NodeId) : List Tree → Multiset Row
  | [] => 0
  | c :: cs => c.rows parent + rowsAll parent cs
end

@[simp] theorem rowsAll_append (parent : Option NodeId) (cs ds : List Tree) :
    rowsAll parent (cs ++ ds) = rowsAll parent cs + rowsAll parent ds := by
  induction cs with
  | nil => simp [rowsAll]
  | cons c cs ih => simp [rowsAll, ih, add_assoc]

/-- The rows of a tree are numbered by its numbers. -/
theorem map_fst_rows (t : Tree) (parent : Option NodeId) :
    (t.rows parent).map Prod.fst = (t.ids : Multiset NodeId) := by
  induction t using induct generalizing parent with
  | step i e cs ih =>
    have hcs : ∀ ds, (∀ d ∈ ds, d ∈ cs) →
        (rowsAll (some i) ds).map Prod.fst = (idsAll ds : Multiset NodeId) := by
      intro ds
      induction ds with
      | nil => simp [rowsAll, idsAll]
      | cons d ds ihd =>
        intro hd
        rw [rowsAll, Multiset.map_add, ih d (hd d (by simp)), ihd fun x hx => hd x (by simp [hx]),
          idsAll, Multiset.coe_add]
    rw [rows, Multiset.map_add, hcs cs fun _ h => h, ids, Multiset.map_singleton,
      Multiset.singleton_add, Multiset.cons_coe]

theorem map_fst_rowsAll (cs : List Tree) (parent : Option NodeId) :
    (rowsAll parent cs).map Prod.fst = (idsAll cs : Multiset NodeId) := by
  induction cs with
  | nil => simp [rowsAll, idsAll]
  | cons c cs ih => rw [rowsAll, Multiset.map_add, map_fst_rows, ih, idsAll, Multiset.coe_add]

end Tree

/-! ## Frames -/

/-- A node with one child missing. -/
structure Frame where
  id : NodeId
  entry : Entry
  /-- The children before the missing one. -/
  before : List Tree
  /-- The children behind the missing one. -/
  after : List Tree

/-- The frames above a node, the nearest first. -/
abbrev Frames := List Frame

/-- The node with a tree as its missing child. -/
def Frame.fill (k : Frame) (t : Tree) : Tree := .node k.id k.entry (k.before ++ t :: k.after)

/-- The tree that has `t` below the frames. -/
def Tree.under (t : Tree) : Frames → Tree
  | [] => t
  | k :: K => (k.fill t).under K

namespace Frames

/-- The node right above. -/
def parent (K : Frames) : Option NodeId := K.head?.map Frame.id

/-- The numbers before the missing tree. -/
def idsBefore : Frames → List NodeId
  | [] => []
  | k :: K => idsBefore K ++ k.id :: Tree.idsAll k.before

/-- The numbers behind the missing tree. -/
def idsAfter : Frames → List NodeId
  | [] => []
  | k :: K => Tree.idsAll k.after ++ idsAfter K

/-- The rows of all nodes but those of the missing tree, which has the number `i`. -/
def rows : Frames → (i : NodeId) → Multiset Row
  | [], _ => 0
  | k :: K, i =>
    {(k.id, { entry := k.entry, parent := parent K,
              children := k.before.map Tree.id ++ i :: k.after.map Tree.id })}
      + Tree.rowsAll (some k.id) k.before + Tree.rowsAll (some k.id) k.after + rows K k.id

@[simp] theorem parent_nil : parent [] = none := rfl

@[simp] theorem parent_cons (k : Frame) (K : Frames) : parent (k :: K) = some k.id := rfl

end Frames

namespace Tree

@[simp] theorem under_nil (t : Tree) : t.under [] = t := rfl

theorem under_cons (t : Tree) (k : Frame) (K : Frames) :
    t.under (k :: K) = (k.fill t).under K := rfl

theorem under_append (t : Tree) (K K' : Frames) : t.under (K ++ K') = (t.under K).under K' := by
  induction K generalizing t with
  | nil => rfl
  | cons k K ih => exact ih (k.fill t)

theorem ids_under (t : Tree) (K : Frames) :
    (t.under K).ids = Frames.idsBefore K ++ t.ids ++ Frames.idsAfter K := by
  induction K generalizing t with
  | nil => simp [under, Frames.idsBefore, Frames.idsAfter]
  | cons k K ih => simp [under, ih, Frame.fill, ids, idsAll, Frames.idsBefore, Frames.idsAfter]

theorem rows_under (t : Tree) (K : Frames) :
    (t.under K).rows none = Frames.rows K t.id + t.rows (Frames.parent K) := by
  induction K generalizing t with
  | nil => simp [under, Frames.rows]
  | cons k K ih =>
    rw [under, ih, Frames.rows]
    simp only [Frame.fill, rows, id_node, List.map_append, List.map_cons, rowsAll_append, rowsAll,
      Frames.parent_cons]
    abel

/-- Every node of a tree can be singled out. -/
theorem exists_under {t : Tree} {i : NodeId} (h : i ∈ t.ids) :
    ∃ (K : Frames) (s : Tree), t = s.under K ∧ s.id = i := by
  induction t using induct with
  | step j e cs ih =>
    rw [ids] at h
    rcases List.mem_cons.1 h with rfl | h
    · exact ⟨[], node i e cs, rfl, rfl⟩
    · obtain ⟨c, hc, hi⟩ := mem_idsAll.1 h
      obtain ⟨K, s, rfl, hs⟩ := ih c hc hi
      obtain ⟨before, after, rfl⟩ := List.append_of_mem hc
      exact ⟨K ++ [⟨j, e, before, after⟩], s, by rw [under_append]; rfl, hs⟩

end Tree

/-! ## Trees of outlines -/

namespace Outline

mutual
/-- How many nodes an outline has. -/
def count : Outline → Nat
  | node _ cs => countAll cs + 1
/-- How many nodes several outlines have. -/
def countAll : List Outline → Nat
  | [] => 0
  | c :: cs => c.count + countAll cs
end

mutual
/-- The outline with numbers from `n` on, parents before children. -/
def number (n : NodeId) : Outline → Tree
  | node e cs => .node n e (numberAll (n + 1) cs)
/-- Several outlines with numbers from `n` on. -/
def numberAll (n : NodeId) : List Outline → List Tree
  | [] => []
  | c :: cs => c.number n :: numberAll (n + c.count) cs
end

@[simp] theorem id_number (n : NodeId) (o : Outline) : (o.number n).id = n := by
  cases o; rfl

@[simp] theorem entry_number (n : NodeId) (o : Outline) : (o.number n).entry = o.entry := by
  cases o; rfl

mutual
theorem ids_number (n : NodeId) : ∀ o : Outline, (o.number n).ids = List.range' n o.count
  | node e cs => by
    rw [number, Tree.ids, count, List.range'_succ, idsAll_numberAll (n + 1) cs]
theorem idsAll_numberAll (n : NodeId) :
    ∀ cs : List Outline, Tree.idsAll (numberAll n cs) = List.range' n (countAll cs)
  | [] => rfl
  | c :: cs => by
    rw [numberAll, Tree.idsAll, countAll, ids_number n c, idsAll_numberAll (n + c.count) cs,
      List.range'_append_1]
end

end Outline

namespace Tree

mutual
/-- The tree without its numbers. -/
def outline : Tree → Outline
  | node _ e cs => .node e (outlineAll cs)
/-- Several trees without their numbers. -/
def outlineAll : List Tree → List Outline
  | [] => []
  | c :: cs => c.outline :: outlineAll cs
end

theorem outlineAll_eq_map (cs : List Tree) : outlineAll cs = cs.map outline := by
  induction cs with
  | nil => rfl
  | cons c cs ih => rw [outlineAll, ih, List.map_cons]

mutual
theorem outline_number (n : NodeId) : ∀ o : Outline, (o.number n).outline = o
  | .node e cs => by rw [Outline.number, outline, outlineAll_numberAll (n + 1) cs]
theorem outlineAll_numberAll (n : NodeId) :
    ∀ cs : List Outline, outlineAll (Outline.numberAll n cs) = cs
  | [] => rfl
  | c :: cs => by
    rw [Outline.numberAll, outlineAll, outline_number n c, outlineAll_numberAll (n + c.count) cs]
end

end Tree

end StubMerge
