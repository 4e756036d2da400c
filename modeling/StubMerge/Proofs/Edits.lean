import StubMerge.Proofs.Table

/-!
# What edits do to trees

Every edit that a merge makes is made where it can succeed: the node that is put somewhere is the
top of a tree of its own, so it stands neither above nor below the place where it is put. The
lemmas say that the edit succeeds there and which trees the table shows afterwards. A tree that
an edit takes off comes to stand first in the list.
-/

namespace StubMerge

theorem bind_of_ok {ε α β : Type} {x : Except ε α} {a : α} (h : x = .ok a)
    (k : α → Except ε β) : (x >>= k) = k a := by
  rw [h]
  rfl

theorem exists_of_bind_eq_ok {ε α β : Type} {x : Except ε α} {k : α → Except ε β} {b : β}
    (h : (x >>= k) = .ok b) : ∃ a, x = .ok a ∧ k a = .ok b := by
  cases x with
  | error e => cases h
  | ok a => exact ⟨a, rfl, h⟩

namespace Forest

variable {f : Forest}

/-! ## Putting a tree below a node -/

/-- Writing a top into the children of a node, and the node above the top. -/
theorem Shows.place {c : Tree} {i : NodeId} {e : Entry} {xs ys : List Tree} {K : Frames}
    {ts : List Tree} (h : f.Shows (c :: (Tree.node i e (xs ++ ys)).under K :: ts)) :
    ((f.setChildren i (xs.map Tree.id ++ c.id :: ys.map Tree.id)).setParent c.id
      (some i)).Shows ((Tree.node i e (xs ++ c :: ys)).under K :: ts) := by
  obtain ⟨j, d, ds⟩ := c
  unfold Shows at *
  rw [Tree.rowsAll, rowsAll_under, Tree.rows, add_left_comm] at h
  have h₁ := h.setChildren (xs.map Tree.id ++ j :: ys.map Tree.id)
  rw [add_left_comm, add_assoc] at h₁
  have h₂ := h₁.setParent (some i)
  rw [rowsAll_under]
  refine h₂.congr ?_
  simp only [Tree.rowsAll_append, Tree.rowsAll, Tree.rows, List.map_append, List.map_cons,
    Tree.id_node]
  abel

/-- A node that is new is put behind the children of another. -/
theorem Shows.link {c : Tree} {i : NodeId} {e : Entry} {cs : List Tree} {K : Frames}
    {ts : List Tree} (h : f.Shows (c :: (Tree.node i e cs).under K :: ts)) :
    (f.link i c.id).Shows ((Tree.node i e (cs ++ [c])).under K :: ts) := by
  have hc : f.children i = cs.map Tree.id := h.tail.children_eq
  have h' : f.Shows (c :: (Tree.node i e (cs ++ [])).under K :: ts) := by rwa [List.append_nil]
  rw [Forest.link, hc]
  exact h'.place

theorem map_id_subset_ids (s : Tree) (K : Frames) : K.map Frame.id ⊆ (s.under K).ids := by
  induction K generalizing s with
  | nil => simp
  | cons k K ih =>
    intro i hi
    rcases List.mem_cons.1 hi with rfl | hi
    · rw [Tree.under, Tree.ids_under]
      simp [Frame.fill, Tree.ids]
    · exact ih (k.fill s) hi

/-- The top of one tree stands neither at nor above a node of another. -/
theorem Shows.isAtOrAbove_eq {c s : Tree} {K : Frames} {ts : List Tree}
    (h : f.Shows (c :: s.under K :: ts)) : f.isAtOrAbove c.id s.id = false := by
  have hc : c.id ∉ (s.under K).ids := h.disjoint c.id_mem_ids
  have hne : c.id ≠ s.id := by
    rintro he
    exact hc (by rw [he, Tree.ids_under]; simp [s.id_mem_ids])
  have hK : c.id ∉ K.map Frame.id := fun hm => hc (map_id_subset_ids s K hm)
  rw [isAtOrAbove, h.tail.ancestors_eq]
  simp only [List.contains_eq_mem, Bool.or_eq_false_iff, beq_eq_false_iff_ne,
    decide_eq_false_iff_not]
  exact ⟨hne, hK⟩

theorem insertIdx_length_left (xs ys : List NodeId) (i : NodeId) :
    (xs ++ ys).insertIdx xs.length i = xs ++ i :: ys := by
  induction xs with
  | nil => rfl
  | cons x xs ih => simp [ih]

/-- A tree can be put at any place among the children of a container. -/
theorem Shows.insert {c : Tree} {i : NodeId} {e : Entry} {xs ys : List Tree} {K : Frames}
    {ts : List Tree} (h : f.Shows (c :: (Tree.node i e (xs ++ ys)).under K :: ts))
    (he : e.kind.isContainer = true) :
    ∃ g, f.insert i xs.length c.id = .ok g ∧ g.size = f.size ∧
      g.Shows ((Tree.node i e (xs ++ c :: ys)).under K :: ts) := by
  have hkind : f.kind i = e.kind := h.tail.kind_eq
  have hparent : f.parent c.id = none := Shows.parent_eq (K := []) h
  have hcycle : f.isAtOrAbove c.id i = false := h.isAtOrAbove_eq
  have hc : f.children i = xs.map Tree.id ++ ys.map Tree.id := by
    rw [← List.map_append]; exact h.tail.children_eq
  have hplace : min xs.length (xs.map Tree.id ++ ys.map Tree.id).length
      = (xs.map Tree.id).length := by simp
  refine ⟨_, ?_, ?_, h.place⟩
  · rw [Forest.insert, hkind, he, hparent, hc]
    simp only [hcycle, Bool.not_true, Bool.false_eq_true, if_false, hplace]
    rw [insertIdx_length_left]
  · simp

theorem Shows.attach {c : Tree} {i : NodeId} {e : Entry} {cs : List Tree} {K : Frames}
    {ts : List Tree} (h : f.Shows (c :: (Tree.node i e cs).under K :: ts))
    (he : e.kind.isContainer = true) :
    ∃ g, f.attach i c.id = .ok g ∧ g.size = f.size ∧
      g.Shows ((Tree.node i e (cs ++ [c])).under K :: ts) := by
  have hc : (f.children i).length = cs.length := by
    rw [show f.children i = cs.map Tree.id from h.tail.children_eq, List.length_map]
  have h' : f.Shows (c :: (Tree.node i e (cs ++ [])).under K :: ts) := by rwa [List.append_nil]
  rw [Forest.attach, hc]
  exact h'.insert he

/-! ## New trees -/

theorem shows_empty : empty.Shows [.node root {} []] := by
  constructor
  · simp [Tree.rowsAll, Tree.rows]
  · simp [Tree.rowsAll, Tree.rows, empty, root]

theorem Shows.alloc {ts : List Tree} (h : f.Shows ts) (e : Entry) :
    (f.alloc e).1.Shows (.node f.size e [] :: ts) := by
  unfold Shows at *
  simpa [Tree.rowsAll, Tree.rows] using h.alloc e

mutual
/-- A copy of an outline has consecutive numbers, parents before children. -/
theorem Shows.graft {f : Forest} {ts : List Tree} (h : f.Shows ts) :
    ∀ o : Outline, (f.graft o).1.Shows (o.number f.size :: ts) ∧ (f.graft o).2 = f.size ∧
      (f.graft o).1.size = f.size + o.count
  | .node e cs => by
    obtain ⟨hs, hsize⟩ := Shows.graftAll (h.alloc e) cs
    have halloc : (f.alloc e).1.size = f.size + 1 := size_alloc f e
    refine ⟨?_, rfl, ?_⟩
    · rw [Forest.graft, Outline.number, ← halloc]
      exact hs
    · rw [Forest.graft, Outline.count]
      show (Forest.graftAll (f.alloc e).1 f.size cs).size = _
      rw [hsize, halloc]
      omega
theorem Shows.graftAll {f : Forest} {i : NodeId} {e : Entry} {done : List Tree}
    {ts : List Tree} (h : f.Shows (.node i e done :: ts)) :
    ∀ cs : List Outline,
      (f.graftAll i cs).Shows (.node i e (done ++ Outline.numberAll f.size cs) :: ts) ∧
        (f.graftAll i cs).size = f.size + Outline.countAll cs
  | [] => by simpa [Forest.graftAll, Outline.numberAll, Outline.countAll] using h
  | c :: cs => by
    obtain ⟨hc, hid, hsize⟩ := Shows.graft h c
    have hlink : ((f.graft c).1.link i f.size).Shows
        (.node i e (done ++ [c.number f.size]) :: ts) := by
      have hl := Shows.link (K := []) hc
      rwa [Outline.id_number] at hl
    obtain ⟨hs, hsize'⟩ := Shows.graftAll hlink cs
    have hl : ((f.graft c).1.link i f.size).size = f.size + c.count := by
      simp [Forest.link, hsize]
    rw [hl] at hs hsize'
    rw [Forest.graftAll, Outline.numberAll, Outline.countAll]
    simp only [hid]
    refine ⟨by simpa using hs, ?_⟩
    rw [hsize']
    omega
end

/-! ## Numbers above and beside a node -/

theorem map_id_subset_idsAll (cs : List Tree) : cs.map Tree.id ⊆ Tree.idsAll cs := by
  intro i hi
  obtain ⟨c, hc, rfl⟩ := List.mem_map.1 hi
  exact Tree.mem_idsAll.2 ⟨c, hc, c.id_mem_ids⟩

section Beside

variable {s : Tree} {k : Frame} {K : Frames} {ts : List Tree} {j : NodeId}

/-- The numbers of a tree are neither that of the node right above nor those beside the tree. -/
theorem Shows.not_mem_frame (h : f.Shows (s.under (k :: K) :: ts)) (hj : j ∈ s.ids) :
    j ≠ k.id ∧ j ∉ Tree.idsAll k.before ∧ j ∉ Tree.idsAll k.after := by
  have h' := h.nodup_ids
  rw [Tree.under_cons, Tree.ids_under, Frame.fill, Tree.ids, Tree.idsAll_append,
    Tree.idsAll] at h'
  obtain ⟨htop, h₁⟩ := List.nodup_cons.1 h'.of_append_left.of_append_right
  refine ⟨?_, fun hb => ?_, fun ha => ?_⟩
  · rintro rfl
    exact htop (by simp [hj])
  · exact List.disjoint_of_nodup_append h₁ hb (List.mem_append_left _ hj)
  · exact List.disjoint_of_nodup_append h₁.of_append_right hj ha

/-- The numbers of a tree are not those above it. -/
theorem Shows.not_mem_frames (h : f.Shows (s.under K :: ts)) (hj : j ∈ s.ids) :
    j ∉ K.map Frame.id := by
  induction K generalizing s with
  | nil => simp
  | cons k K ih =>
    have hK : j ∉ K.map Frame.id :=
      ih (s := k.fill s) h (by simp [Frame.fill, Tree.ids, Tree.idsAll, hj])
    rw [List.map_cons, List.mem_cons]
    exact not_or.2 ⟨(h.not_mem_frame hj).1, hK⟩

/-- A node is not among its own siblings. -/
theorem Shows.not_mem_siblings (h : f.Shows (s.under (k :: K) :: ts)) :
    s.id ∉ k.before.map Tree.id ∧ s.id ∉ k.after.map Tree.id := by
  obtain ⟨-, hb, ha⟩ := h.not_mem_frame s.id_mem_ids
  exact ⟨fun hm => hb (map_id_subset_idsAll _ hm), fun hm => ha (map_id_subset_idsAll _ hm)⟩

end Beside

/-! ## Moving the children of a node -/

/-- Trees with one parent are given another. -/
theorem Holds.setParents {p q : Option NodeId} {R : Multiset Row} (cs : List Tree)
    (h : f.Holds (Tree.rowsAll p cs + R)) :
    ((cs.map Tree.id).foldl (fun f child => f.setParent child q) f).Holds
      (Tree.rowsAll q cs + R) := by
  induction cs generalizing f R with
  | nil => simpa [Tree.rowsAll] using h
  | cons c cs ih =>
    obtain ⟨i, e, ds⟩ := c
    rw [List.map_cons, List.foldl_cons, Tree.id_node]
    have h₁ : f.Holds ({(i, { entry := e, parent := p, children := ds.map Tree.id })} +
        (Tree.rowsAll p cs + (Tree.rowsAll (some i) ds + R))) :=
      h.congr (by simp only [Tree.rowsAll, Tree.rows]; abel)
    have h₂ := (h₁.setParent q).congr (add_left_comm _ _ _)
    refine (ih h₂).congr ?_
    simp only [Tree.rowsAll, Tree.rows]
    abel

/-- The children of one row are put behind those of another. -/
theorem Holds.moveChildren {a b : NodeId} {d e : Entry} {p q : Option NodeId} {as : List NodeId}
    {bs : List Tree} {R : Multiset Row}
    (h : f.Holds ({(b, ⟨e, q, bs.map Tree.id⟩)} +
      ({(a, ⟨d, p, as⟩)} + (Tree.rowsAll (some b) bs + R))))
    (hd : d.kind.isContainer = true) (hb : b ∉ f.ancestors a) :
    ∃ g, f.moveChildren b a = .ok g ∧
      g.Holds ({(b, ⟨e, q, []⟩)} +
        ({(a, ⟨d, p, as ++ bs.map Tree.id⟩)} + (Tree.rowsAll (some a) bs + R))) := by
  have hkind : f.kind a = d.kind := by
    rw [kind, entry, (h.congr (add_left_comm _ _ _)).node_eq]
  have hmoved : f.children b = bs.map Tree.id := by rw [children, h.node_eq]
  have h₁ := (h.setChildren []).congr (S := Tree.rowsAll (some b) bs +
    ({(a, ⟨d, p, as⟩)} + ({(b, ⟨e, q, []⟩)} + R))) (by abel)
  have h₂ := (h₁.setParents bs (q := some a)).congr (S := {(a, ⟨d, p, as⟩)} +
    ({(b, ⟨e, q, []⟩)} + (Tree.rowsAll (some a) bs + R))) (by abel)
  refine ⟨_, ?_, (h₂.setChildren (as ++ bs.map Tree.id)).congr (add_left_comm _ _ _)⟩
  have hrow := h₂.node_eq
  rw [Forest.moveChildren, hkind, hd, hmoved]
  simp only [Bool.not_true, Bool.false_eq_true, if_false, List.contains_eq_mem, hb, decide_false]
  rw [show ∀ g : Forest, g.children a = (g.node a).children from fun _ => rfl, hrow]

/-- The children of one top are put behind those of another. -/
theorem Shows.moveChildren {a b : NodeId} {d e : Entry} {as bs : List Tree} {ts : List Tree}
    (h : f.Shows (.node b e bs :: .node a d as :: ts)) (hd : d.kind.isContainer = true) :
    ∃ g, f.moveChildren b a = .ok g ∧ g.Shows (.node b e [] :: .node a d (as ++ bs) :: ts) := by
  have hanc : f.ancestors a = [] := Shows.ancestors_eq (s := .node a d as) (K := []) h.tail
  unfold Shows at *
  have h' := h.congr (S := {(b, ⟨e, none, bs.map Tree.id⟩)} + ({(a, ⟨d, none, as.map Tree.id⟩)} +
    (Tree.rowsAll (some b) bs + (Tree.rowsAll (some a) as + Tree.rowsAll none ts))))
    (by simp only [Tree.rowsAll, Tree.rows]; abel)
  obtain ⟨g, hg, hrows⟩ := h'.moveChildren hd (by simp [hanc])
  refine ⟨g, hg, hrows.congr ?_⟩
  simp only [Tree.rowsAll, Tree.rows, Tree.rowsAll_append, List.map_append, List.map_nil]
  abel

/-- The children of a node are put behind those of a node that is a child of the neighbour. -/
theorem Shows.moveChildren_neighbour {i h o a b : NodeId} {e eh eo d eb : Entry}
    {xs ys us vs us' vs' as bs : List Tree} {K : Frames} {ts : List Tree}
    (hs : f.Shows ((Tree.node i e (xs ++ .node h eh (us ++ .node a d as :: vs) ::
      .node o eo (us' ++ .node b eb bs :: vs') :: ys)).under K :: ts))
    (hd : d.kind.isContainer = true) :
    ∃ g, f.moveChildren b a = .ok g ∧
      g.Shows ((Tree.node i e (xs ++ .node h eh (us ++ .node a d (as ++ bs) :: vs) ::
        .node o eo (us' ++ .node b eb [] :: vs') :: ys)).under K :: ts) := by
  have hviewA : f.Shows ((Tree.node a d as).under (⟨h, eh, us, vs⟩ ::
      ⟨i, e, xs, .node o eo (us' ++ .node b eb bs :: vs') :: ys⟩ :: K) :: ts) := hs
  have hviewB : f.Shows ((Tree.node o eo (us' ++ .node b eb bs :: vs')).under
      (⟨i, e, xs ++ [.node h eh (us ++ .node a d as :: vs)], ys⟩ :: K) :: ts) := by
    rwa [Tree.under, Frame.fill, List.append_assoc]
  have hb : b ∈ (Tree.node o eo (us' ++ .node b eb bs :: vs')).ids := by
    simp [Tree.ids, Tree.idsAll]
  -- Above the target are the head of the neighbours and what is above both.
  have hanc : b ∉ f.ancestors a := by
    rw [show f.ancestors a = _ from hviewA.ancestors_eq]
    obtain ⟨-, hbefore, -⟩ := hviewB.not_mem_frame hb
    have hframes := hviewB.not_mem_frames hb
    simp only [Tree.idsAll_append, Tree.idsAll, Tree.ids, List.map_cons, List.mem_append,
      List.mem_cons, not_or] at hbefore hframes ⊢
    exact ⟨hbefore.2.1.1, hframes.1, hframes.2⟩
  unfold Shows at hs ⊢
  rw [rowsAll_under] at hs ⊢
  simp only [Tree.rowsAll, Tree.rows, Tree.rowsAll_append, List.map_append, List.map_cons,
    Tree.id_node] at hs ⊢
  -- The rows that stay as they are: those of the three nodes above, and all trees but one.
  let R : Multiset Row :=
    {(i, ⟨e, Frames.parent K, xs.map Tree.id ++ h :: o :: ys.map Tree.id⟩)} +
    {(h, ⟨eh, some i, us.map Tree.id ++ a :: vs.map Tree.id⟩)} +
    {(o, ⟨eo, some i, us'.map Tree.id ++ b :: vs'.map Tree.id⟩)} +
    (Tree.rowsAll (some i) xs + Tree.rowsAll (some i) ys + Tree.rowsAll (some h) us +
      Tree.rowsAll (some h) vs + Tree.rowsAll (some o) us' + Tree.rowsAll (some o) vs' +
      Tree.rowsAll (some a) as + Frames.rows K i + Tree.rowsAll none ts)
  have hsplit : f.Holds ({(b, ⟨eb, some o, bs.map Tree.id⟩)} +
      ({(a, ⟨d, some h, as.map Tree.id⟩)} + (Tree.rowsAll (some b) bs + R))) :=
    hs.congr (by simp only [R]; abel)
  obtain ⟨g, hg, hrows⟩ := hsplit.moveChildren hd hanc
  refine ⟨g, hg, hrows.congr ?_⟩
  simp only [R, List.map_nil]
  abel

/-! ## Changing what a node carries -/

theorem Shows.setEntry {i : NodeId} {e : Entry} {cs : List Tree} {K : Frames} {ts : List Tree}
    (h : f.Shows ((Tree.node i e cs).under K :: ts)) (d : Entry) :
    (f.setEntry i d).Shows ((Tree.node i d cs).under K :: ts) := by
  unfold Shows at *
  rw [rowsAll_under] at h ⊢
  exact h.modify _

theorem Shows.setKind {i : NodeId} {e : Entry} {cs : List Tree} {K : Frames} {ts : List Tree}
    (h : f.Shows ((Tree.node i e cs).under K :: ts)) (k : Kind) :
    (f.setKind i k).Shows ((Tree.node i { e with kind := k } cs).under K :: ts) := by
  have he : f.entry i = e := h.entry_eq
  rw [Forest.setKind, he]
  exact h.setEntry _

theorem Shows.unionComments {i : NodeId} {e : Entry} {cs : List Tree} {K : Frames}
    {ts : List Tree} (h : f.Shows ((Tree.node i e cs).under K :: ts)) (xs : List String) :
    (f.unionComments i xs).Shows
      ((Tree.node i { e with comments := e.comments.appendNew xs } cs).under K :: ts) := by
  have he : f.entry i = e := h.entry_eq
  rw [Forest.unionComments, setComments, he]
  exact h.setEntry _

/-! ## Putting one tree in the place of another -/

theorem Shows.position?_eq {s : Tree} {k : Frame} {K : Frames} {ts : List Tree}
    (h : f.Shows (s.under (k :: K) :: ts)) : f.position? s.id = some k.before.length := by
  have hc : f.children k.id = k.before.map Tree.id ++ s.id :: k.after.map Tree.id := by
    have h' : f.children (k.fill s).id = (k.fill s).children.map Tree.id :=
      Shows.children_eq (K := K) h
    simpa [Frame.fill] using h'
  rw [position?, h.parent_eq, Frames.parent_cons, Option.bind_some, hc,
    List.idxOf?_eq_some_iff]
  have hb := h.not_mem_siblings.1
  refine ⟨by simp, by simp, fun j hj => ?_⟩
  rw [List.getElem_append_left (by simpa using hj)]
  exact fun he => hb (he ▸ List.getElem_mem _)

/-- A tree can be put in the place of a node below the top, whose own tree is taken off. -/
theorem Shows.replace {c s : Tree} {k : Frame} {K : Frames} {ts : List Tree}
    (h : f.Shows (c :: s.under (k :: K) :: ts)) :
    ∃ g, f.replace s.id c.id = .ok g ∧ g.size = f.size ∧
      g.Shows (s :: c.under (k :: K) :: ts) := by
  have hparent : f.parent s.id = some k.id := h.tail.parent_eq
  have hfree : f.parent c.id = none := Shows.parent_eq (K := []) h
  have hcycle : f.isAtOrAbove c.id k.id = false := Shows.isAtOrAbove_eq (s := k.fill s) h
  have hpos := h.tail.position?_eq
  have hc : f.children k.id = k.before.map Tree.id ++ s.id :: k.after.map Tree.id := by
    have h' : f.children (k.fill s).id = (k.fill s).children.map Tree.id :=
      Shows.children_eq (K := K) h.tail
    simpa [Frame.fill] using h'
  have hset : (f.children k.id).set k.before.length c.id
      = k.before.map Tree.id ++ c.id :: k.after.map Tree.id := by
    rw [hc, List.set_append_right _ _ (by simp)]
    simp
  refine ⟨((f.setChildren k.id (k.before.map Tree.id ++ c.id :: k.after.map Tree.id)).setParent
    c.id (some k.id)).setParent s.id none, ?_, ?_, ?_⟩
  · rw [Forest.replace, hparent]
    simp only [hfree, hcycle, hpos, hset, Bool.false_eq_true, if_false]
  · simp
  · obtain ⟨i, e, cs⟩ := s
    obtain ⟨j, d, ds⟩ := c
    unfold Shows at *
    simp only [Tree.rowsAll, Tree.rows_under, Tree.rows, Frames.rows, Tree.id_node,
      Frames.parent_cons] at h ⊢
    -- The row of the frame, that of the new node and that of the old one change, in this order.
    have hframe : ∀ a b c d x y z w : Multiset Row,
        a + b + (c + x + y + z + (d + w) + Tree.rowsAll none ts) =
          c + (a + b + x + y + z + d + w + Tree.rowsAll none ts) := by
      intros; abel
    have hnew : ∀ a b c d x y z w : Multiset Row,
        c + (a + b + x + y + z + d + w + Tree.rowsAll none ts) =
          a + (b + c + x + y + z + d + w + Tree.rowsAll none ts) := by
      intros; abel
    have hold : ∀ a b c d x y z w : Multiset Row,
        a + (b + c + x + y + z + d + w + Tree.rowsAll none ts) =
          d + (a + b + c + x + y + z + w + Tree.rowsAll none ts) := by
      intros; abel
    rw [hframe] at h
    have h₁ := h.setChildren (k.before.map Tree.id ++ j :: k.after.map Tree.id)
    rw [hnew] at h₁
    have h₂ := h₁.setParent (some k.id)
    rw [hold] at h₂
    refine (h₂.setParent none).congr ?_
    abel

/-! ## Taking a tree off -/

theorem filter_ne_of_not_mem {i : NodeId} {xs : List NodeId} (h : i ∉ xs) :
    xs.filter (· != i) = xs :=
  List.filter_eq_self.2 fun x hx => by
    simpa using fun he : x = i => h (he ▸ hx)

theorem Shows.detach {s : Tree} {k : Frame} {K : Frames} {ts : List Tree}
    (h : f.Shows (s.under (k :: K) :: ts)) :
    (f.detach s.id).Shows
      (s :: (Tree.node k.id k.entry (k.before ++ k.after)).under K :: ts) := by
  have hparent : f.parent s.id = some k.id := h.parent_eq
  obtain ⟨hb, ha⟩ := h.not_mem_siblings
  obtain ⟨i, e, cs⟩ := s
  rw [Tree.id_node] at hparent hb ha
  have hne : k.id ≠ i := (h.not_mem_frame (Tree.id_mem_ids _)).1.symm
  have hc : (f.setParent i none).children k.id
      = k.before.map Tree.id ++ i :: k.after.map Tree.id := by
    have h' : f.children (k.fill (.node i e cs)).id =
        (k.fill (.node i e cs)).children.map Tree.id := Shows.children_eq (K := K) h
    rw [Forest.children, Forest.setParent, node_modify_other f hne]
    simpa [Frame.fill, Forest.children] using h'
  rw [Forest.detach, Tree.id_node, hparent]
  simp only [hc, List.filter_append, filter_ne_of_not_mem hb]
  rw [List.filter_cons_of_neg (by simp), filter_ne_of_not_mem ha]
  unfold Shows at *
  simp only [Tree.rowsAll, Tree.rows_under, Tree.rows, Frames.rows, Tree.id_node,
    Frames.parent_cons] at h ⊢
  -- First the row of the node changes, then that of the frame.
  have hnode : ∀ a c d x y z : Multiset Row,
      c + x + y + z + (a + d) + Tree.rowsAll none ts =
        a + (c + x + y + z + d + Tree.rowsAll none ts) := by
    intros; abel
  have hframe : ∀ a c d x y z : Multiset Row,
      a + (c + x + y + z + d + Tree.rowsAll none ts) =
        c + (a + x + y + z + d + Tree.rowsAll none ts) := by
    intros; abel
  rw [hnode] at h
  have h₁ := h.setParent none
  rw [hframe] at h₁
  refine (h₁.setChildren (k.before.map Tree.id ++ k.after.map Tree.id)).congr ?_
  simp only [Tree.rowsAll_append, List.map_append]
  abel

@[simp] theorem size_detach (f : Forest) (i : NodeId) : (f.detach i).size = f.size := by
  rw [Forest.detach]
  split <;> simp

end Forest

end StubMerge
