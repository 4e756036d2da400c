import StubMerge.Proofs.Viewing

/-!
# The walk downwards is the recursive one

`Forest.walk` keeps a stack: it takes the topmost node and puts the children of that node in its
place. What it is for is said by recursion: below a node stand its children, each with what stands
below it, one child after the other.

**Theorem (`descendants_preorder`).** In a forest the stack runs empty, and what was taken from it is
what the recursion gives, which has no other solution. So every node with `i` above it is listed
once, before all that is below it, and siblings in the order in which their parent lists them.

The stack is compared with trees as values. A tree on top of a stack is taken before the rest of the
stack is looked at (`Empties.tree`). The nodes of a subtree stand in one piece in the list of the
whole (`isInfix_descendants`), and from that comes all that is said about order.
-/

namespace StubMerge

theorem Tree.idsAll_eq_flatMap (cs : List Tree) : idsAll cs = cs.flatMap ids := by
  induction cs with
  | nil => rfl
  | cons c cs ih => rw [idsAll, ih, List.flatMap_cons]

namespace Forest

variable {f : Forest} {i j p : NodeId}

/-- A stack runs empty if its topmost node is exchanged for the children of that node as long as
there is one, and `out` are the nodes that were taken. -/
inductive Empties (f : Forest) : List NodeId → List NodeId → Prop
  | done : Empties f [] []
  | take {i : NodeId} {stack out : List NodeId} :
      Empties f (f.children i ++ stack) out → Empties f (i :: stack) (i :: out)

/-- `below` lists for every node its children, each with what `below` lists for it behind it. -/
def IsPreorder (f : Forest) (below : NodeId → List NodeId) : Prop :=
  ∀ i, below i = (f.children i).flatMap fun c => c :: below c

/-- `out` lists the nodes below `i` in order. -/
structure ListsBelow (f : Forest) (i : NodeId) (out : List NodeId) : Prop where
  mem_iff : ∀ j, j ∈ out ↔ i ∈ f.ancestors j
  nodup : out.Nodup
  /-- A node comes before all that is below it. -/
  parents_first : ∀ a b, a ∈ out → a ∈ f.ancestors b → [a, b].Sublist out
  /-- Siblings come in the order of their parent. -/
  siblings : ∀ p, p = i ∨ p ∈ out → (f.children p).Sublist out

/-! ## The stack -/

namespace Empties

/-- A tree on top of the stack is taken as a whole. -/
theorem tree {t : Tree} (h : f.Draws t) {stack out : List NodeId} (hs : f.Empties stack out) :
    f.Empties (t.id :: stack) (t.ids ++ out) := by
  induction t using Tree.induct generalizing stack out with
  | step i e cs ih =>
    obtain ⟨-, hchildren, hcs⟩ := h
    have hrow : ∀ ds, (∀ d ∈ ds, d ∈ cs) →
        f.Empties (ds.map Tree.id ++ stack) (Tree.idsAll ds ++ out) := by
      intro ds
      induction ds with
      | nil => exact fun _ => hs
      | cons d ds ihds =>
        intro hds
        rw [Tree.idsAll, List.append_assoc]
        have hd := hds d (by simp)
        exact ih d hd (hcs d hd) (ihds fun x hx => hds x (by simp [hx]))
    exact .take (hchildren ▸ hrow cs fun _ hd => hd)

theorem trees {ts : List Tree} (h : ∀ t ∈ ts, f.Draws t) :
    f.Empties (ts.map Tree.id) (Tree.idsAll ts) := by
  induction ts with
  | nil => exact .done
  | cons t ts ih => exact tree (h t (by simp)) (ih fun u hu => h u (by simp [hu]))

end Empties

/-! ## The recursion -/

/-- Where a table shows a subtree, what is below its top is read off. -/
theorem Shows.descendants_of_under {s t : Tree} {K K' : Frames} {ts : List Tree}
    (h : f.Shows (t.under K :: ts)) (ht : t = s.under K') :
    f.descendants s.id = Tree.idsAll s.children := by
  rw [ht, ← Tree.under_append] at h
  exact h.descendants_eq

theorem descendants_of_size_le (hi : f.size ≤ i) : f.children i = [] ∧ f.descendants i = [] := by
  have hnil : f.children i = [] := by rw [children, node_of_size_le hi]
  refine ⟨hnil, ?_⟩
  rw [descendants, hnil]
  cases f.size <;> rfl

namespace IsForest

theorem ids_tree (h : f.IsForest) (i : NodeId) : (f.tree i).ids = i :: f.descendants i := by
  rw [Tree.ids_eq, h.descendants_eq, tree, id_treeTo]

/-- No node is below itself, and none is listed twice below another. -/
theorem nodup_cons_descendants (h : f.IsForest) (i : NodeId) : (i :: f.descendants i).Nodup := by
  rcases Nat.lt_or_ge i f.size with hi | hi
  · obtain ⟨K, ts, hshows, -⟩ := h.exists_shows hi
    have hnodup := hshows.nodup_ids
    rw [Tree.ids_under, h.ids_tree] at hnodup
    exact hnodup.of_append_left.of_append_right
  · rw [(descendants_of_size_le hi).2]
    exact List.nodup_singleton i

theorem empties_descendants (h : f.IsForest) (i : NodeId) :
    f.Empties (f.children i) (f.descendants i) := by
  have hdraws : f.Draws (f.tree i) := h.draws_treeTo (Nat.le_add_right _ _)
  have hchildren : f.children i = (f.tree i).children.map Tree.id := by
    rw [← hdraws.children_eq, tree, id_treeTo]
  rw [h.descendants_eq, hchildren]
  exact .trees fun c hc => hdraws.of_mem hc

theorem isPreorder_descendants (h : f.IsForest) : f.IsPreorder f.descendants := by
  intro i
  rcases Nat.lt_or_ge i f.size with hi | hi
  · obtain ⟨K, ts, hshows, -⟩ := h.exists_shows hi
    have hid : (f.tree i).id = i := f.id_treeTo _ i
    have hchildren := hshows.children_eq
    have hbelow := hshows.descendants_eq
    rw [hid] at hchildren hbelow
    rw [hbelow, hchildren, Tree.idsAll_eq_flatMap, List.flatMap_map]
    refine List.flatMap_congr fun c hc => ?_
    obtain ⟨before, after, hsplit⟩ := List.append_of_mem hc
    have htree : f.tree i = c.under [⟨i, f.entry i, before, after⟩] := by
      rw [tree_eq, hsplit]
      rfl
    rw [Tree.ids_eq, hshows.descendants_of_under htree]
  · obtain ⟨hnil, hbelow⟩ := descendants_of_size_le hi
    rw [hbelow, hnil, List.flatMap_nil]

/-- The recursion has one solution only, since a child is deeper than its parent. -/
theorem eq_descendants (h : f.IsForest) {below : NodeId → List NodeId}
    (hbelow : f.IsPreorder below) : below = f.descendants := by
  funext i
  induction hn : f.size - (f.ancestors i).length using Nat.strongRecOn generalizing i with
  | ind n ih =>
    rw [hbelow i, h.isPreorder_descendants i]
    refine List.flatMap_congr fun c hc => ?_
    obtain ⟨hlt, hlevel⟩ := h.length_ancestors_lt hc
    rw [ih (f.size - (f.ancestors c).length) (by omega) c rfl]

/-! ## Order -/

/-- What is at or below a node stands in one piece among what is below a node above it. -/
theorem isInfix_descendants (h : f.IsForest) (hp : p ∈ f.descendants i) :
    (p :: f.descendants p) <:+: f.descendants i := by
  rcases Nat.lt_or_ge i f.size with hi | hi
  · obtain ⟨K, ts, hshows, -⟩ := h.exists_shows hi
    obtain ⟨K', s, htree, rfl⟩ : ∃ (K' : Frames) (s : Tree), f.tree i = s.under K' ∧ s.id = p :=
      Tree.exists_under (h.ids_tree i ▸ List.mem_cons_of_mem _ hp)
    have hinfix : (s.id :: f.descendants s.id) <:+: i :: f.descendants i := by
      rw [hshows.descendants_of_under htree, ← Tree.ids_eq, ← h.ids_tree, htree, Tree.ids_under]
      exact List.infix_append _ _ _
    refine (List.infix_cons_iff.1 hinfix).resolve_left fun hstart => ?_
    -- The node itself is not below itself.
    obtain rfl : s.id = i := (List.cons_prefix_cons.1 hstart).1
    exact (List.nodup_cons.1 (h.nodup_cons_descendants s.id)).1 hp
  · rw [(descendants_of_size_le hi).2] at hp
    cases hp

theorem children_sublist_descendants (h : f.IsForest) (i : NodeId) :
    (f.children i).Sublist (f.descendants i) := by
  rw [h.isPreorder_descendants i]
  induction f.children i with
  | nil => exact List.nil_sublist _
  | cons c cs ih =>
    rw [List.flatMap_cons, List.cons_append]
    exact (ih.trans (List.sublist_append_right _ _)).cons_cons c

theorem mem_descendants (h : f.IsForest) : j ∈ f.descendants i ↔ i ∈ f.ancestors j := by
  rw [h.mem_ancestors_iff]
  constructor
  · intro hj
    exact h.above_of_atOrBelow_children ((h.nodup_walk _ (h.apart_children i)).2 j hj)
  · intro hij
    induction hij with
    | single hp => exact (h.children_sublist_descendants i).subset ((h.linked i _).2 hp)
    | @tail b c _ hp ih =>
      have hc := (h.children_sublist_descendants b).subset ((h.linked b c).2 hp)
      exact (h.isInfix_descendants ih).subset (List.mem_cons_of_mem _ hc)

theorem listsBelow_descendants (h : f.IsForest) (i : NodeId) :
    f.ListsBelow i (f.descendants i) where
  mem_iff _ := h.mem_descendants
  nodup := (h.nodup_cons_descendants i).of_cons
  parents_first a b ha hab := by
    have hb : [b].Sublist (f.descendants a) := List.singleton_sublist.2 (h.mem_descendants.2 hab)
    exact (hb.cons_cons a).trans (h.isInfix_descendants ha).sublist
  siblings p hp := by
    rcases hp with rfl | hp
    · exact h.children_sublist_descendants p
    · exact ((h.children_sublist_descendants p).trans (List.sublist_cons_self _ _)).trans
        (h.isInfix_descendants hp).sublist

/-- As many nodes are counted as have the root above them. -/
theorem nodeCount_eq (h : f.IsForest) :
    f.nodeCount = (List.range f.size).countP fun j => (f.ancestors j).contains root := by
  have hlist := h.listsBelow_descendants root
  rw [nodeCount, List.countP_eq_length_filter]
  refine ((List.perm_ext_iff_of_nodup hlist.nodup (List.nodup_range.filter _)).2 fun j => ?_).length_eq
  rw [hlist.mem_iff, List.mem_filter, List.mem_range, List.contains_iff_mem]
  refine (and_iff_right_of_imp fun hj => ?_).symm
  exact h.lt_of_mem_descendants (h.mem_descendants.2 hj)

end IsForest

/-- In a forest the stack of the walk downwards runs empty, and the walk is the recursive one: it
lists exactly the nodes with `i` above them, each once, before what is below it and siblings in
order. The nodes that are counted are those of the walk from the root. -/
theorem descendants_preorder (h : f.IsForest) (i : NodeId) :
    f.Empties (f.children i) (f.descendants i) ∧
      (∀ below, f.IsPreorder below ↔ below = f.descendants) ∧
      f.ListsBelow i (f.descendants i) ∧
      f.nodeCount = (f.descendants root).length ∧
      f.nodeCount = (List.range f.size).countP fun j => (f.ancestors j).contains root :=
  ⟨h.empties_descendants i,
    fun _ => ⟨h.eq_descendants, fun hbelow => hbelow ▸ h.isPreorder_descendants⟩,
    h.listsBelow_descendants i, rfl, h.nodeCount_eq⟩

/-- Three nodes in a module, which lists them in another order than they were made in. -/
theorem rebuiltStreet_preorder :
    rebuiltStreet.IsForest ∧ rebuiltStreet.descendants root = [1, 3, 4, 2] ∧
      rebuiltStreet.Empties (rebuiltStreet.children root) [1, 3, 4, 2] ∧
      rebuiltStreet.ListsBelow root [1, 3, 4, 2] ∧ rebuiltStreet.nodeCount = 4 := by
  have hforest := rebuiltStreet_made.isForest
  have hlist : rebuiltStreet.descendants root = [1, 3, 4, 2] := by decide
  obtain ⟨hempties, -, hbelow, hcount, -⟩ := descendants_preorder hforest root
  rw [hlist] at hempties hbelow hcount
  exact ⟨hforest, hlist, hempties, hbelow, hcount⟩

end Forest

end StubMerge
