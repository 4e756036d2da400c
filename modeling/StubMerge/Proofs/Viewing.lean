import StubMerge.Proofs.Histories
import StubMerge.Proofs.Shape

/-!
# A forest shows its trees

What is known of edits is known of tables that show trees (`Forest.Shows`). Here it is shown that
every forest does: if links are written down twice alike, no node is listed twice and none stands
above itself, then the nodes without a parent are the tops of trees that have every node of the
table in them, each once (`IsForest.exists_shows`).

`Forest.tree` is the tree at a node as a value. It goes down as many levels as there are nodes,
which is deep enough in a forest, since every level that it goes down is one more node above.
-/

namespace StubMerge

theorem Tree.mem_rowsAll {parent : Option NodeId} {cs : List Tree} {r : Row} :
    r ∈ rowsAll parent cs ↔ ∃ c ∈ cs, r ∈ c.rows parent := by
  induction cs with
  | nil => simp [rowsAll]
  | cons c cs ih => simp [rowsAll, ih]

namespace Forest

/-- The tree at a node with the numbers of its nodes, down to a depth. -/
def treeTo (f : Forest) : Nat → NodeId → Tree
  | 0, id => .node id (f.entry id) []
  | depth + 1, id => .node id (f.entry id) ((f.children id).map (f.treeTo depth))

/-- The tree at a node with the numbers of its nodes. -/
def tree (f : Forest) (id : NodeId) : Tree := f.treeTo f.size id

variable {f : Forest} {i : NodeId}

@[simp] theorem id_treeTo (f : Forest) (n : Nat) (i : NodeId) : (f.treeTo n i).id = i := by
  cases n <;> rfl

@[simp] theorem entry_treeTo (f : Forest) (n : Nat) (i : NodeId) :
    (f.treeTo n i).entry = f.entry i := by
  cases n <;> rfl

theorem tree_eq (f : Forest) (i : NodeId) :
    f.tree i = .node i (f.entry i) (f.tree i).children := by
  have hid : (f.tree i).id = i := f.id_treeTo _ i
  have hentry : (f.tree i).entry = f.entry i := f.entry_treeTo _ i
  generalize f.tree i = t at *
  obtain ⟨j, e, cs⟩ := t
  rw [← hentry, ← hid]
  rfl

theorem tree_of_children_eq_nil (h : f.children i = []) : f.tree i = .node i (f.entry i) [] := by
  rw [tree]
  cases f.size with
  | zero => rfl
  | succ n => rw [treeTo, h, List.map_nil]

theorem map_id_treeTo (f : Forest) (n : Nat) (ids : List NodeId) :
    (ids.map (f.treeTo n)).map Tree.id = ids := by
  rw [List.map_map]
  exact (List.map_congr_left fun i _ => f.id_treeTo n i).trans (List.map_id _)

/-- A table that shows a tree has it at its top. -/
theorem Draws.treeTo_eq {t : Tree} (h : f.Draws t) {n : Nat} (hn : t.ids.length ≤ n + 1) :
    f.treeTo n t.id = t := by
  induction n generalizing t with
  | zero =>
    obtain ⟨he, hc, hcs⟩ := h
    rename_i i e cs
    cases cs with
    | nil => simp [treeTo, he]
    | cons c cs => simp [Tree.ids, Tree.idsAll, Tree.ids_eq] at hn
  | succ n ih =>
    obtain ⟨he, hc, hcs⟩ := h
    rename_i i e cs
    have hmap : (cs.map Tree.id).map (f.treeTo n) = cs := by
      rw [List.map_map]
      refine (List.map_congr_left fun c hcm => ih (hcs c hcm) ?_).trans (List.map_id _)
      have hlen := length_ids_le_idsAll hcm
      simp only [Tree.ids, List.length_cons] at hn
      omega
    rw [Tree.id_node, treeTo, he, hc, hmap]

theorem Shows.tree_eq {s : Tree} {K : Frames} {ts : List Tree} (h : f.Shows (s.under K :: ts)) :
    f.tree s.id = s := by
  refine h.draws_under.treeTo_eq ?_
  have hlength := h.length_ids_le
  simp only [Tree.ids_under, List.length_append] at hlength
  omega

namespace Draws

variable {t : Tree}

theorem of_mem (h : f.Draws t) {c : Tree} (hc : c ∈ t.children) : f.Draws c := by
  cases h with
  | node _ _ hcs => exact hcs c hc

theorem of_under {s : Tree} {K : Frames} (h : f.Draws (s.under K)) : f.Draws s := by
  induction K generalizing s with
  | nil => exact h
  | cons k K ih => exact (ih h).of_mem (by simp [Frame.fill])

theorem kind_eq (h : f.Draws t) : f.kind t.id = t.kind := by
  obtain ⟨he, -, -⟩ := h
  rw [Tree.id_node, kind, he, Tree.kind_node]

theorem children_eq (h : f.Draws t) : f.children t.id = t.children.map Tree.id := by
  obtain ⟨-, hc, -⟩ := h
  exact hc

/-- What holds at every node that a tree has in a table holds everywhere in the tree. -/
theorem everywhere {P : Kind → List Tree → Prop} (h : f.Draws t)
    (hP : ∀ s, f.Draws s → s.id ∈ t.ids → P s.kind s.children) : t.Everywhere P := by
  induction t using Tree.induct with
  | step i e cs ih =>
    refine .node (hP _ h (Tree.id_mem_ids _)) fun c hc => ih c hc (h.of_mem hc) fun s hs hmem => ?_
    exact hP s hs (List.mem_cons_of_mem _ (Tree.mem_idsAll.2 ⟨c, hc, hmem⟩))

/-- What holds everywhere in a tree holds at every node that it has in a table. -/
theorem exists_at {P : Kind → List Tree → Prop} (h : f.Draws t) (ht : t.Everywhere P)
    (hi : i ∈ t.ids) : ∃ s, s.id = i ∧ f.Draws s ∧ s.Everywhere P := by
  obtain ⟨K, s, rfl, rfl⟩ := Tree.exists_under hi
  exact ⟨s, rfl, h.of_under, ht.of_under⟩

end Draws

/-! ## The trees of a forest -/

/-- The nodes without a parent. -/
def tops (f : Forest) : List NodeId := (List.range f.size).filter fun i => (f.parent i).isNone

/-- The trees of a forest. -/
def trees (f : Forest) : List Tree := f.tops.map f.tree

theorem nodes_of_lt (hi : i < f.size) : f.nodes[i]? = some (f.node i) := by
  have hi' : i < f.nodes.size := hi
  simp [node, hi']

theorem mem_tops : i ∈ f.tops ↔ i < f.size ∧ f.parent i = none := by
  simp [tops]

namespace IsForest

/-- A tree that goes down far enough agrees with the table. -/
theorem draws_treeTo (h : f.IsForest) {n : Nat} (hn : f.size ≤ n + (f.ancestors i).length) :
    f.Draws (f.treeTo n i) := by
  induction n generalizing i with
  | zero => exact .node rfl (h.children_eq_nil (by omega)) (by simp)
  | succ n ih =>
    refine .node rfl (f.map_id_treeTo n _).symm fun c hc => ?_
    obtain ⟨j, hj, rfl⟩ := List.mem_map.1 hc
    have hlevel := (h.length_ancestors_lt hj).2
    exact ih (by omega)

/-- The rows of a tree that goes down far enough stand in the table. -/
theorem rows_treeTo (h : f.IsForest) {n : Nat} (hi : i < f.size) {r : Row}
    (hn : f.size ≤ n + (f.ancestors i).length) (hr : r ∈ (f.treeTo n i).rows (f.parent i)) :
    f.nodes[r.1]? = some r.2 := by
  induction n generalizing i with
  | zero =>
    have hnil : (f.node i).children = [] := h.children_eq_nil (by omega)
    rw [treeTo, Tree.rows, Tree.rowsAll, add_zero, Multiset.mem_singleton] at hr
    rw [hr, nodes_of_lt hi, entry, parent, List.map_nil, ← hnil]
  | succ n ih =>
    rw [treeTo, Tree.rows, map_id_treeTo, Multiset.mem_add, Multiset.mem_singleton] at hr
    rcases hr with rfl | hr
    · exact nodes_of_lt hi
    · obtain ⟨t, ht, hr⟩ := Tree.mem_rowsAll.1 hr
      obtain ⟨c, hc, rfl⟩ := List.mem_map.1 ht
      have hlevel := (h.length_ancestors_lt hc).2
      rw [← (h.linked i c).1 hc] at hr
      exact ih (h.mem_lt_size hc) (by omega) hr

theorem draws_trees (h : f.IsForest) : ∀ t ∈ f.trees, f.Draws t := by
  intro t ht
  obtain ⟨i, -, rfl⟩ := List.mem_map.1 ht
  exact h.draws_treeTo (Nat.le_add_right _ _)

theorem apart_tops (f : Forest) : f.Apart f.tops := by
  refine ⟨List.nodup_range.filter _, fun a _ b hb hab => ?_⟩
  obtain ⟨p, hp, -⟩ := above_iff.1 hab
  rw [(mem_tops.1 hb).2] at hp
  cases hp

/-- A forest shows its trees. -/
theorem shows_trees (h : f.IsForest) : f.Shows f.trees where
  nodup := by
    have hids : f.trees.map Tree.id = f.tops := f.map_id_treeTo _ _
    rw [Tree.map_fst_rowsAll, Multiset.coe_nodup, ← Draws.walk_eq h.draws_trees le_rfl, hids]
    exact (h.nodup_walk _ (apart_tops f)).1
  get r hr := by
    obtain ⟨t, ht, hr⟩ := Tree.mem_rowsAll.1 hr
    obtain ⟨i, hi, rfl⟩ := List.mem_map.1 ht
    obtain ⟨hlt, hnone⟩ := mem_tops.1 hi
    rw [← hnone] at hr
    exact h.rows_treeTo hlt (Nat.le_add_right _ _) hr

/-- One of the trees comes first. -/
theorem exists_shows_cons (h : f.IsForest) {t : Tree} (ht : t ∈ f.trees) :
    ∃ ts, f.Shows (t :: ts) ∧ ∀ j ∈ Tree.idsAll f.trees, j ∈ t.ids ∨ j ∈ Tree.idsAll ts := by
  obtain ⟨before, after, hsplit⟩ := List.append_of_mem ht
  refine ⟨before ++ after, h.shows_trees.reorder ?_, fun j hj => ?_⟩
  · rw [hsplit]
    simp only [Tree.rowsAll, Tree.rowsAll_append]
    abel
  · rw [hsplit, Tree.idsAll_append, Tree.idsAll] at hj
    rw [Tree.idsAll_append]
    simp only [List.mem_append] at hj ⊢
    tauto

/-- Every node is in one of the trees. -/
theorem mem_idsAll_trees (h : f.IsForest) (hi : i < f.size) : i ∈ Tree.idsAll f.trees := by
  obtain ⟨depth, hdepth⟩ := h.layered
  induction hd : depth i using Nat.strongRecOn generalizing i with
  | ind d ih =>
    cases hp : f.parent i with
    | none =>
      have hin : (f.tree i).id ∈ (f.tree i).ids := (f.tree i).id_mem_ids
      rw [tree, id_treeTo] at hin
      exact Tree.mem_idsAll.2 ⟨f.tree i, List.mem_map_of_mem (mem_tops.2 ⟨hi, hp⟩), hin⟩
    | some p =>
      -- The parent is in one of the trees, and its children are listed there.
      have hmem := ih (depth p) (hd ▸ hdepth p i hp) (h.lt_size hp).1 rfl
      obtain ⟨t, ht, hpt⟩ := Tree.mem_idsAll.1 hmem
      obtain ⟨ts, hshows, -⟩ := h.exists_shows_cons ht
      obtain ⟨K, s, rfl, rfl⟩ := Tree.exists_under hpt
      have hchild : i ∈ s.children.map Tree.id := by
        rw [← hshows.children_eq]
        exact (h.linked _ i).2 hp
      obtain ⟨c, hc, rfl⟩ := List.mem_map.1 hchild
      have hin : c.id ∈ s.ids := by
        rw [Tree.ids_eq]
        exact List.mem_cons_of_mem _ (Tree.mem_idsAll.2 ⟨c, hc, c.id_mem_ids⟩)
      refine Tree.mem_idsAll.2 ⟨_, ht, ?_⟩
      rw [Tree.ids_under]
      exact List.mem_append_left _ (List.mem_append_right _ hin)

/-- In a forest every node can be singled out, with all other nodes around it. -/
theorem exists_shows (h : f.IsForest) (hi : i < f.size) : ∃ (K : Frames) (ts : List Tree),
    f.Shows ((f.tree i).under K :: ts) ∧
      ∀ j < f.size, j ∈ ((f.tree i).under K).ids ∨ j ∈ Tree.idsAll ts := by
  obtain ⟨t, ht, hit⟩ := Tree.mem_idsAll.1 (h.mem_idsAll_trees hi)
  obtain ⟨ts, hshows, hall⟩ := h.exists_shows_cons ht
  obtain ⟨K, s, rfl, rfl⟩ := Tree.exists_under hit
  rw [hshows.tree_eq]
  exact ⟨K, ts, hshows, fun j hj => hall j (h.mem_idsAll_trees hj)⟩

/-- The nodes below a node are those of its tree. -/
theorem descendants_eq (h : f.IsForest) (i : NodeId) :
    f.descendants i = Tree.idsAll (f.tree i).children := by
  by_cases hi : i < f.size
  · obtain ⟨K, ts, hshows, -⟩ := h.exists_shows hi
    rw [tree_eq] at hshows
    exact hshows.descendants_eq
  · have hnil : f.children i = [] := by rw [children, node_of_size_le (Nat.le_of_not_lt hi)]
    rw [descendants, hnil, tree_of_children_eq_nil hnil]
    cases f.size <;> rfl

end IsForest

/-- Two tables that show the same around a node agree on all that is not below it. -/
theorem Shows.node_eq_of_outside {g : Forest} {s t : Tree} {K : Frames} {ts us : List Tree}
    {j : NodeId} (hf : f.Shows (s.under K :: ts)) (hg : g.Shows (t.under K :: (us ++ ts)))
    (hid : t.id = s.id) (hin : j ∈ (s.under K).ids ∨ j ∈ Tree.idsAll ts) (hj : j ∉ s.ids) :
    g.node j = f.node j := by
  -- The rows that both tables have, and one of them is that of the node.
  have hrow : j ∈ (Frames.rows K s.id + Tree.rowsAll none ts).map Prod.fst := by
    rw [Multiset.map_add, Multiset.mem_add, Tree.map_fst_rowsAll]
    refine hin.imp (fun hmem => ?_) id
    have hsplit := Tree.map_fst_rows (s.under K) none
    rw [Tree.rows_under, Multiset.map_add, Tree.map_fst_rows] at hsplit
    have hmem' : j ∈ ((s.under K).ids : Multiset NodeId) := hmem
    rw [← hsplit, Multiset.mem_add] at hmem'
    exact hmem'.resolve_right hj
  obtain ⟨r, hr, rfl⟩ := Multiset.mem_map.1 hrow
  have hrf : f.nodes[r.1]? = some r.2 := by
    refine Holds.get hf r ?_
    rw [Tree.rowsAll, Tree.rows_under]
    rcases Multiset.mem_add.1 hr with hr | hr <;> simp [hr]
  have hrg : g.nodes[r.1]? = some r.2 := by
    refine Holds.get hg r ?_
    rw [Tree.rowsAll, Tree.rows_under, Tree.rowsAll_append, hid]
    rcases Multiset.mem_add.1 hr with hr | hr <;> simp [hr]
  rw [node, node, hrf, hrg]

end Forest

end StubMerge
