import StubMerge.Proofs.Incremental
import StubMerge.Proofs.Traversal

/-!
# A deep copy is the same tree beside the old ones

A copy is made node by node: a node is made, its children are copied one after the other, and each
is linked as soon as it is there. Meanwhile the table grows.

**Theorem (`copySubtree_isomorphic`).** Between forests, or within one, the copy of a tree is a tree
of its own with the same list of nodes. Its nodes are the new ones and no others, numbered in the
order of that list, so that it is known which node is a copy of which (`copyOf`); entries, children
and parents correspond. No node that was there before has changed.

The rows of the old trees and those of the copy stand side by side in the table (`Shows.graft`), and
the copy has the outline of the original. A tree is known by its outline and its numbers, so the copy
is the original with other numbers.
-/

namespace StubMerge

/-- Different items are numbered by their places. -/
theorem map_add_idxOf {xs : List NodeId} (h : xs.Nodup) (first : Nat) :
    (xs.map fun x => first + xs.idxOf x) = List.range' first xs.length := by
  refine List.ext_getElem (by simp) fun k hk hk' => ?_
  rw [List.getElem_map, List.getElem_range', h.idxOf_getElem, Nat.one_mul]

theorem Tree.renameAll_eq_map (σ : NodeId → NodeId) (cs : List Tree) :
    renameAll σ cs = cs.map (rename σ) := by
  induction cs with
  | nil => rfl
  | cons c cs ih => rw [renameAll, ih, List.map_cons]

namespace Forest

variable {f g source : Forest} {n : NodeId}

/-- The tree at a node as a list, parents before children: how far each node is below the top, and
what it carries. -/
def dump (f : Forest) (i : NodeId) : List (Nat × Entry) :=
  (i :: f.descendants i).map fun j => ((f.ancestors j).length - (f.ancestors i).length, f.entry j)

/-- The copy of a node, if the tree at `n` is copied and its copy is numbered from `first` on. -/
def copyOf (source : Forest) (n first : NodeId) (j : NodeId) : NodeId :=
  first + (n :: source.descendants n).idxOf j

/-- `g` is `f` with a copy of the tree that `source` has at `n`, and `top` is the top of the copy. -/
structure DeepCopy (source : Forest) (n : NodeId) (f g : Forest) (top : NodeId) : Prop where
  fresh : top = f.size
  detached : g.parent top = none
  dump_eq : g.dump top = source.dump n
  /-- The nodes of the copy are the new ones, in order. -/
  numbers : top :: g.descendants top = List.range' f.size (g.size - f.size)
  entries : ∀ j ∈ n :: source.descendants n,
    g.entry (source.copyOf n f.size j) = source.entry j
  children : ∀ j ∈ n :: source.descendants n,
    g.children (source.copyOf n f.size j) = (source.children j).map (source.copyOf n f.size)
  parents : ∀ j ∈ source.descendants n,
    g.parent (source.copyOf n f.size j) = (source.parent j).map (source.copyOf n f.size)
  unchanged : ∀ j < f.size, g.node j = f.node j

/-! ## What a tree looks like as a list -/

/-- The list of a tree is that of its outline. `base` is the depth that is counted from. -/
theorem Shows.map_ids_eq {s : Tree} {K : Frames} {ts : List Tree} (h : f.Shows (s.under K :: ts))
    {base : Nat} (hbase : base ≤ K.length) :
    (s.ids.map fun j => ((f.ancestors j).length - base, f.entry j)) =
      s.outline.preorder (K.length - base) := by
  induction s using Tree.induct generalizing K with
  | step i e cs ih =>
    have htop : f.ancestors i = K.map Frame.id := h.ancestors_eq
    have hentry : f.entry i = e := h.entry_eq
    -- The children behind those that are done already.
    have hrow : ∀ before after, cs = before ++ after →
        ((Tree.idsAll after).map fun j => ((f.ancestors j).length - base, f.entry j)) =
          Outline.preorderAll (K.length - base + 1) (Tree.outlineAll after) := by
      intro before after
      induction after generalizing before with
      | nil => exact fun _ => rfl
      | cons c after ihrow =>
        intro hsplit
        have hchild : f.Shows (c.under (⟨i, e, before, after⟩ :: K) :: ts) := by
          rw [hsplit] at h
          exact h
        have hc := ih c (by simp [hsplit]) hchild (by simp only [List.length_cons]; omega)
        have hlevel : (⟨i, e, before, after⟩ :: K : Frames).length - base = K.length - base + 1 := by
          simp only [List.length_cons]
          omega
        rw [hlevel] at hc
        rw [Tree.idsAll, List.map_append, hc, ihrow (before ++ [c]) (by simp [hsplit]),
          Tree.outlineAll, Outline.preorderAll]
    rw [Tree.ids, List.map_cons, hrow [] cs rfl, Tree.outline, Outline.preorder, htop, hentry,
      List.length_map]

/-- Listing the nodes below a node gives what its outline gives. -/
theorem Shows.dump_eq {s : Tree} {K : Frames} {ts : List Tree} (h : f.Shows (s.under K :: ts)) :
    f.dump s.id = s.outline.preorder 0 := by
  have hlist := h.map_ids_eq le_rfl
  rwa [Nat.sub_self, Tree.ids_eq, ← h.descendants_eq, ← K.length_map (f := Frame.id),
    ← h.ancestors_eq] at hlist

/-! ## The copy -/

/-- Where one table has a tree and another has it with other numbers, entries and children
correspond. -/
theorem Draws.rename {t : Tree} {σ : NodeId → NodeId} (hf : f.Draws t) (hg : g.Draws (t.rename σ)) :
    ∀ j ∈ t.ids, g.entry (σ j) = f.entry j ∧ g.children (σ j) = (f.children j).map σ := by
  induction t using Tree.induct with
  | step i e cs ih =>
    obtain ⟨hentry, hchildren, hcs⟩ := hf
    rw [Tree.rename] at hg
    obtain ⟨hentry', hchildren', hcs'⟩ := hg
    intro j hj
    rcases List.mem_cons.1 hj with rfl | hj
    · exact ⟨hentry'.trans hentry.symm, by rw [hchildren', hchildren, Tree.map_id_renameAll]⟩
    · obtain ⟨c, hc, hjc⟩ := Tree.mem_idsAll.1 hj
      refine ih c hc (hcs c hc) (hcs' _ ?_) j hjc
      rw [Tree.renameAll_eq_map]
      exact List.mem_map_of_mem hc

/-- Trees that two tables show have the same rows in both. -/
theorem Shows.node_eq_of_mem {t : Tree} {ts : List Tree} (hf : f.Shows ts)
    (hg : g.Shows (t :: ts)) {j : NodeId} (hj : j ∈ Tree.idsAll ts) : g.node j = f.node j := by
  have hrow : j ∈ (Tree.rowsAll none ts).map Prod.fst := by rwa [Tree.map_fst_rowsAll]
  obtain ⟨r, hr, rfl⟩ := Multiset.mem_map.1 hrow
  rw [node, node, Holds.get hf r hr, Holds.get hg.tail r hr]

/-- The numbers of the copies run on in the order of the nodes that are copied. -/
theorem IsForest.map_copyOf (hs : source.IsForest) (n first : NodeId) :
    (n :: source.descendants n).map (source.copyOf n first) =
      List.range' first (n :: source.descendants n).length :=
  map_add_idxOf (hs.nodup_cons_descendants n) first

/-- The outline of a tree, numbered anew, is that tree with the numbers of its copy. -/
theorem IsForest.number_outline (hs : source.IsForest) (hn : n < source.size) (first : NodeId) :
    (source.outline n).number first = (source.tree n).rename (source.copyOf n first) := by
  obtain ⟨K, ts, hsource, -⟩ := hs.exists_shows hn
  have houtline : source.outline n = (source.tree n).outline := by
    rw [← hsource.outline_eq, tree, id_treeTo]
  refine Tree.eq_rename _ _ ?_ ?_
  · rw [Tree.outline_number, houtline]
  · rw [Outline.ids_number, hs.ids_tree, hs.map_copyOf, ← hs.ids_tree, houtline, Tree.length_ids]

/-- A copy of the tree at a node of a forest is the same tree beside all that was there. -/
theorem copySubtree_isomorphic (hs : source.IsForest) (hf : f.IsForest) (hn : n < source.size) :
    DeepCopy source n f (f.copySubtree source n).1 (f.copySubtree source n).2 := by
  obtain ⟨K, ts, hsource, -⟩ := hs.exists_shows hn
  have hid : (source.tree n).id = n := source.id_treeTo _ n
  have hforest := (hf.graft (source.outline n)).1
  obtain ⟨hshows, htop, hsize⟩ := hf.shows_trees.graft (source.outline n)
  rw [copySubtree, htop]
  generalize (f.graft (source.outline n)).1 = g at *
  have hview : g.Shows (((source.outline n).number f.size).under [] :: f.trees) := hshows
  have hmatch := hsource.draws_under.rename (hs.number_outline hn f.size ▸ hview.draws_under)
  rw [hs.ids_tree] at hmatch
  have hdumped := hsource.dump_eq
  rw [← hsource.outline_eq, hid] at hdumped
  have hdump := hview.dump_eq
  have hbelow := hview.descendants_eq
  have hparent := hview.parent_eq
  rw [Outline.id_number] at hdump hbelow hparent
  refine ⟨rfl, hparent, ?_, ?_, fun j hj => (hmatch j hj).1, fun j hj => (hmatch j hj).2,
    fun j hj => ?_, fun j hj => ?_⟩
  · rw [hdump, hdumped, Tree.outline_number]
  · have hnumbers := Outline.ids_number f.size (source.outline n)
    rw [Tree.ids_eq, Outline.id_number] at hnumbers
    rw [hbelow, hnumbers, hsize, Nat.add_sub_cancel_left]
  · -- A parent lists its child, and the copies correspond.
    obtain ⟨p, hp, hnp⟩ := above_iff.1 (hs.mem_ancestors_iff.1 (hs.mem_descendants.1 hj))
    have hpmem : p ∈ n :: source.descendants n :=
      List.mem_cons.2 (hnp.imp Eq.symm fun habove =>
        hs.mem_descendants.2 (hs.mem_ancestors_iff.2 habove))
    rw [hp, Option.map_some]
    refine (hforest.linked _ _).1 ?_
    rw [(hmatch p hpmem).2]
    exact List.mem_map_of_mem ((hs.linked p j).2 hp)
  · exact hf.shows_trees.node_eq_of_mem hshows (hf.mem_idsAll_trees hj)

/-- A module with three nodes in it is copied within its own forest. -/
theorem rebuiltStreet_copied :
    rebuiltStreet.IsForest ∧ 1 < rebuiltStreet.size ∧
      rebuiltStreet.descendants 1 = [3, 4, 2] ∧
      DeepCopy rebuiltStreet 1 rebuiltStreet (rebuiltStreet.copySubtree rebuiltStreet 1).1 5 ∧
      (rebuiltStreet.copySubtree rebuiltStreet 1).1.descendants 5 = [6, 7, 8] := by
  have hforest := rebuiltStreet_made.isForest
  have hcopy := copySubtree_isomorphic hforest hforest (show 1 < rebuiltStreet.size by decide)
  exact ⟨hforest, by decide, by decide, hcopy, by decide⟩

end Forest

end StubMerge
