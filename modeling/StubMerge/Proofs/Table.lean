import StubMerge.Forest.Edit
import StubMerge.Proofs.Tree

/-!
# Trees in a table

`f.Shows ts` says that the table of `f` holds the trees `ts`: every row of theirs is in it, no
number is used twice, and the tops have no parent. The table may hold more; what is not shown is
not spoken of.

The rows of a table are treated like the cells of a heap. `Forest.Holds` is a statement about
some rows, a change of one row keeps all others, and each edit is specified by the rows that it
touches. From that come the lemmas on whole trees: attaching, replacing, detaching and moving do
to the trees what their names say, and the checks of an edit pass because the numbers of a tree
are distinct. The walks (`ancestors`, `descendants`, `outline`) read off what is shown.
-/

namespace StubMerge

namespace Forest

variable {f : Forest}

/-! ## Rows -/

/-- The rows stand in the table, and no number stands twice. -/
structure Holds (f : Forest) (R : Multiset Row) : Prop where
  nodup : (R.map Prod.fst).Nodup
  get : ∀ r ∈ R, f.nodes[r.1]? = some r.2

theorem Holds.left {R S : Multiset Row} (h : f.Holds (R + S)) : f.Holds R where
  nodup := by
    have h' := h.nodup
    rw [Multiset.map_add] at h'
    exact (Multiset.nodup_add.1 h').1
  get r hr := h.get r (Multiset.mem_add.2 (.inl hr))

theorem Holds.right {R S : Multiset Row} (h : f.Holds (R + S)) : f.Holds S :=
  Holds.left (add_comm R S ▸ h)

theorem Holds.congr {R S : Multiset Row} (h : f.Holds R) (e : R = S) : f.Holds S := e ▸ h

theorem Holds.node_eq {i : NodeId} {n : Node} {R : Multiset Row} (h : f.Holds ({(i, n)} + R)) :
    f.node i = n := by
  simp [node, h.get (i, n) (by simp)]

theorem Holds.lt_size {i : NodeId} {n : Node} {R : Multiset Row} (h : f.Holds ({(i, n)} + R)) :
    i < f.size := by
  have hi := h.get (i, n) (by simp)
  exact (Array.getElem?_eq_some_iff.1 hi).1

theorem Holds.not_mem {i : NodeId} {n : Node} {R : Multiset Row} (h : f.Holds ({(i, n)} + R)) :
    i ∉ R.map Prod.fst := by
  have h' := h.nodup
  rw [Multiset.map_add, Multiset.map_singleton, Multiset.singleton_add] at h'
  exact (Multiset.nodup_cons.1 h').1

/-- A change of one row keeps all others. -/
theorem Holds.modify {i : NodeId} {n : Node} {R : Multiset Row} (h : f.Holds ({(i, n)} + R))
    (change : Node → Node) : (f.modify i change).Holds ({(i, change n)} + R) where
  nodup := by
    have h' := h.nodup
    rwa [Multiset.map_add, Multiset.map_singleton] at h' ⊢
  get r hr := by
    rcases Multiset.mem_add.1 hr with hr | hr
    · obtain rfl := Multiset.mem_singleton.1 hr
      have hi := h.get (i, n) (by simp)
      simp [Forest.modify, Array.getElem?_modify, hi]
    · have hne : i ≠ r.1 := fun e => h.not_mem (e ▸ Multiset.mem_map_of_mem Prod.fst hr)
      rw [Forest.modify, Array.getElem?_modify, if_neg hne]
      exact h.get r (Multiset.mem_add.2 (.inr hr))

/-- A new row has a number that no other row has. -/
theorem Holds.alloc {R : Multiset Row} (h : f.Holds R) (e : Entry) :
    (f.alloc e).1.Holds ({(f.size, { entry := e })} + R) where
  nodup := by
    rw [Multiset.map_add, Multiset.map_singleton, Multiset.singleton_add, Multiset.nodup_cons]
    refine ⟨fun hm => ?_, h.nodup⟩
    obtain ⟨r, hr, he⟩ := Multiset.mem_map.1 hm
    have hlt := (Array.getElem?_eq_some_iff.1 (h.get r hr)).1
    exact absurd he (Nat.ne_of_lt hlt)
  get r hr := by
    rcases Multiset.mem_add.1 hr with hr | hr
    · obtain rfl := Multiset.mem_singleton.1 hr
      simp [Forest.alloc, size]
    · have hr' := h.get r hr
      have hlt : r.1 < f.nodes.size := (Array.getElem?_eq_some_iff.1 hr').1
      simpa [Forest.alloc, Array.getElem?_push, Nat.ne_of_lt hlt] using hr'

theorem Holds.setChildren {i : NodeId} {n : Node} {R : Multiset Row}
    (h : f.Holds ({(i, n)} + R)) (cs : List NodeId) :
    (f.setChildren i cs).Holds ({(i, { n with children := cs })} + R) :=
  h.modify _

theorem Holds.setParent {i : NodeId} {n : Node} {R : Multiset Row}
    (h : f.Holds ({(i, n)} + R)) (p : Option NodeId) :
    (f.setParent i p).Holds ({(i, { n with parent := p })} + R) :=
  h.modify _

@[simp] theorem snd_alloc (f : Forest) (e : Entry) : (f.alloc e).2 = f.size := rfl

@[simp] theorem size_setChildren (f : Forest) (i : NodeId) (cs : List NodeId) :
    (f.setChildren i cs).size = f.size := size_modify ..

@[simp] theorem size_setParent (f : Forest) (i : NodeId) (p : Option NodeId) :
    (f.setParent i p).size = f.size := size_modify ..

@[simp] theorem size_setEntry (f : Forest) (i : NodeId) (e : Entry) :
    (f.setEntry i e).size = f.size := size_modify ..

/-! ## Trees -/

/-- The table holds the trees, and nothing stands above them. -/
def Shows (f : Forest) (ts : List Tree) : Prop := f.Holds (Tree.rowsAll none ts)

theorem shows_cons {t : Tree} {ts : List Tree} :
    f.Shows (t :: ts) ↔ f.Holds (t.rows none + Tree.rowsAll none ts) := Iff.rfl

theorem Shows.tail {t : Tree} {ts : List Tree} (h : f.Shows (t :: ts)) : f.Shows ts :=
  Holds.right (shows_cons.1 h)

/-- The order of the trees says nothing. -/
theorem Shows.reorder {ts us : List Tree} (h : f.Shows ts)
    (e : Tree.rowsAll none ts = Tree.rowsAll none us) : f.Shows us := Holds.congr h e

theorem Shows.swap {s t : Tree} {ts : List Tree} (h : f.Shows (s :: t :: ts)) :
    f.Shows (t :: s :: ts) :=
  h.reorder (add_left_comm _ _ _)

/-- The rows of a node that is singled out. -/
theorem rowsAll_under (i : NodeId) (e : Entry) (cs : List Tree) (K : Frames) (ts : List Tree) :
    Tree.rowsAll none ((Tree.node i e cs).under K :: ts) =
      {(i, { entry := e, parent := Frames.parent K, children := cs.map Tree.id })}
        + (Tree.rowsAll (some i) cs + Frames.rows K i + Tree.rowsAll none ts) := by
  rw [Tree.rowsAll, Tree.rows_under, Tree.rows, Tree.id_node]
  abel

theorem Shows.nodup {ts : List Tree} (h : f.Shows ts) : (Tree.idsAll ts).Nodup := by
  have h' := Holds.nodup h
  rwa [Tree.map_fst_rowsAll, Multiset.coe_nodup] at h'

theorem Shows.nodup_ids {t : Tree} {ts : List Tree} (h : f.Shows (t :: ts)) : t.ids.Nodup := by
  have h' := h.nodup
  rw [Tree.idsAll] at h'
  exact h'.of_append_left

/-- Different trees have no number in common. -/
theorem Shows.disjoint {s t : Tree} {ts : List Tree} (h : f.Shows (s :: t :: ts)) {i : NodeId}
    (hs : i ∈ s.ids) : i ∉ t.ids := by
  have h' := h.nodup
  rw [Tree.idsAll, Tree.idsAll] at h'
  exact fun ht => List.disjoint_of_nodup_append h' hs (List.mem_append_left _ ht)

theorem Shows.node_eq {i : NodeId} {e : Entry} {cs : List Tree} {K : Frames} {ts : List Tree}
    (h : f.Shows ((Tree.node i e cs).under K :: ts)) :
    f.node i = { entry := e, parent := Frames.parent K, children := cs.map Tree.id } := by
  unfold Shows at h
  rw [rowsAll_under] at h
  exact h.node_eq

theorem Shows.lt_size {t : Tree} {ts : List Tree} (h : f.Shows (t :: ts)) {i : NodeId}
    (hi : i ∈ t.ids) : i < f.size := by
  obtain ⟨K, ⟨j, e, cs⟩, rfl, rfl⟩ := Tree.exists_under hi
  unfold Shows at h
  rw [rowsAll_under] at h
  exact h.lt_size

section Node

variable {s : Tree} {K : Frames} {ts : List Tree}

theorem Shows.entry_eq (h : f.Shows (s.under K :: ts)) : f.entry s.id = s.entry := by
  obtain ⟨i, e, cs⟩ := s
  rw [entry, Tree.id_node, h.node_eq, Tree.entry_node]

theorem Shows.kind_eq (h : f.Shows (s.under K :: ts)) : f.kind s.id = s.kind := by
  rw [kind, h.entry_eq, Tree.kind]

theorem Shows.parent_eq (h : f.Shows (s.under K :: ts)) : f.parent s.id = Frames.parent K := by
  obtain ⟨i, e, cs⟩ := s
  rw [parent, Tree.id_node, h.node_eq]

theorem Shows.children_eq (h : f.Shows (s.under K :: ts)) :
    f.children s.id = s.children.map Tree.id := by
  obtain ⟨i, e, cs⟩ := s
  rw [children, Tree.id_node, h.node_eq, Tree.children_node]

end Node

/-- A tree has no more nodes than the table. -/
theorem Shows.length_ids_le {t : Tree} {ts : List Tree} (h : f.Shows (t :: ts)) :
    t.ids.length ≤ f.size := by
  have hsub : t.ids ⊆ List.range f.size := fun i hi => List.mem_range.2 (h.lt_size hi)
  simpa using (h.nodup_ids.subperm hsub).length_le

/-! ## Walks -/

theorem Shows.upwards_eq {s : Tree} {K : Frames} {ts : List Tree}
    (h : f.Shows (s.under K :: ts)) {n : Nat} (hn : K.length ≤ n) :
    f.upwards n (Frames.parent K) = K.map Frame.id := by
  induction K generalizing s n with
  | nil => cases n <;> rfl
  | cons k K ih =>
    obtain ⟨n, rfl⟩ : ∃ m, n = m + 1 := ⟨n - 1, by simp only [List.length_cons] at hn; omega⟩
    have h' : f.Shows ((k.fill s).under K :: ts) := h
    have hp : f.parent k.id = Frames.parent K := h'.parent_eq
    rw [Frames.parent_cons, upwards, hp, ih h' (by simpa using hn), List.map_cons]

theorem length_frames_le (K : Frames) : K.length ≤ (Frames.idsBefore K).length := by
  induction K with
  | nil => rfl
  | cons k K ih =>
    simp only [Frames.idsBefore, List.length_append, List.length_cons]
    omega

theorem length_frames_lt (s : Tree) (K : Frames) : K.length < (s.under K).ids.length := by
  have hK := length_frames_le K
  rw [Tree.ids_under, Tree.ids_eq]
  simp only [List.length_append, List.length_cons]
  omega

/-- The nodes above a node are its frames. -/
theorem Shows.ancestors_eq {s : Tree} {K : Frames} {ts : List Tree}
    (h : f.Shows (s.under K :: ts)) : f.ancestors s.id = K.map Frame.id := by
  have hlen : K.length ≤ f.size := ((length_frames_lt s K).trans_le h.length_ids_le).le
  rw [ancestors, h.parent_eq, h.upwards_eq hlen]

/-- The table agrees with a tree on entries and children, whatever stands above it. -/
inductive Draws (f : Forest) : Tree → Prop
  | node {i : NodeId} {e : Entry} {cs : List Tree} :
      f.entry i = e → f.children i = cs.map Tree.id → (∀ c ∈ cs, Draws f c) →
      Draws f (.node i e cs)

theorem Shows.draws_under {s : Tree} {K : Frames} {ts : List Tree}
    (h : f.Shows (s.under K :: ts)) : f.Draws s := by
  induction s using Tree.induct generalizing K with
  | step i e cs ih =>
    refine .node h.entry_eq h.children_eq fun c hc => ?_
    obtain ⟨before, after, rfl⟩ := List.append_of_mem hc
    exact ih c (by simp) (K := ⟨i, e, before, after⟩ :: K) h

theorem Draws.walk_eq {ts : List Tree} (h : ∀ t ∈ ts, f.Draws t) {n : Nat}
    (hn : (Tree.idsAll ts).length ≤ n) : f.walk n (ts.map Tree.id) = Tree.idsAll ts := by
  induction n generalizing ts with
  | zero =>
    cases ts with
    | nil => rfl
    | cons t ts => simp [Tree.idsAll, Tree.ids_eq] at hn
  | succ n ih =>
    cases ts with
    | nil => rfl
    | cons t ts =>
      obtain ⟨he, hc, hcs⟩ := h t (by simp)
      rename_i i e cs
      rw [List.map_cons, Tree.id_node, walk, hc, ← List.map_append, ih]
      · simp [Tree.idsAll, Tree.ids]
      · intro c hc
        rcases List.mem_append.1 hc with hc | hc
        · exact hcs c hc
        · exact h c (by simp [hc])
      · simp [Tree.idsAll, Tree.ids] at hn ⊢
        omega

/-- The nodes below a node, parents before children. -/
theorem Shows.descendants_eq {s : Tree} {K : Frames} {ts : List Tree}
    (h : f.Shows (s.under K :: ts)) : f.descendants s.id = Tree.idsAll s.children := by
  obtain ⟨he, hc, hcs⟩ := h.draws_under
  rename_i i e cs
  have hlen : (Tree.idsAll cs).length ≤ f.size := by
    have h' := h.length_ids_le
    simp [Tree.ids_under, Tree.ids] at h'
    omega
  rw [descendants, Tree.id_node, hc, Draws.walk_eq hcs hlen, Tree.children_node]

theorem length_ids_le_idsAll {c : Tree} {cs : List Tree} (hc : c ∈ cs) :
    c.ids.length ≤ (Tree.idsAll cs).length := by
  obtain ⟨before, after, rfl⟩ := List.append_of_mem hc
  simp only [Tree.idsAll_append, Tree.idsAll, List.length_append]
  omega

theorem Draws.outlineTo_eq {t : Tree} (h : f.Draws t) {n : Nat} (hn : t.ids.length ≤ n + 1) :
    f.outlineTo n t.id = t.outline := by
  induction n generalizing t with
  | zero =>
    obtain ⟨he, hc, hcs⟩ := h
    rename_i i e cs
    cases cs with
    | nil => simp [outlineTo, Tree.outline, Tree.outlineAll, he]
    | cons c cs => simp [Tree.ids, Tree.idsAll, Tree.ids_eq] at hn
  | succ n ih =>
    obtain ⟨he, hc, hcs⟩ := h
    rename_i i e cs
    have hmap : (cs.map Tree.id).map (f.outlineTo n) = Tree.outlineAll cs := by
      rw [Tree.outlineAll_eq_map, List.map_map]
      refine List.map_congr_left fun c hcm => ih (hcs c hcm) ?_
      have hlen := length_ids_le_idsAll hcm
      simp [Tree.ids] at hn
      omega
    rw [Tree.id_node, outlineTo, he, hc, hmap, Tree.outline]

/-- The outline of a node that is shown is its tree without numbers. -/
theorem Shows.outline_eq {s : Tree} {K : Frames} {ts : List Tree}
    (h : f.Shows (s.under K :: ts)) : f.outline s.id = s.outline := by
  refine h.draws_under.outlineTo_eq ?_
  have h' := h.length_ids_le
  simp [Tree.ids_under] at h'
  omega

end Forest

end StubMerge
