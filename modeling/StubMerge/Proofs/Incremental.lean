import StubMerge.Proofs.Counting
import StubMerge.Proofs.Identity
import StubMerge.Proofs.Reaching
import StubMerge.Proofs.Renumbering

/-!
# Merging step by step

Three outlines can be taken in one after the other, or the result of merging the first two can be
merged with the third. If the first two agree and no name is used twice in their merge, both ways
come to the same.

Before the third outline is taken in, the two merges have the same tree, with other numbers: one
has them in the order in which nodes came up, the other in the order of the tree. Neither has any
node besides (`Forest.Shows.ids_perm_range`), so one output is the other with its nodes renamed
(`Forest.exists_renames`). Each name leads to one node at most, and so the order in which nodes were
registered does not matter (`Merger.Stands.index_renames`). From there on both take the same steps
(`Merger.Renames.add`).
-/

namespace StubMerge

/-! ## Trees with other numbers -/

namespace Tree

variable {σ : NodeId → NodeId}

mutual
/-- A tree with other numbers. -/
def rename (σ : NodeId → NodeId) : Tree → Tree
  | node i e cs => node (σ i) e (renameAll σ cs)
/-- Several trees with other numbers. -/
def renameAll (σ : NodeId → NodeId) : List Tree → List Tree
  | [] => []
  | c :: cs => c.rename σ :: renameAll σ cs
end

theorem id_rename (t : Tree) : (t.rename σ).id = σ t.id := by
  cases t
  rfl

theorem map_id_renameAll (cs : List Tree) : (renameAll σ cs).map id = (cs.map id).map σ := by
  induction cs with
  | nil => rfl
  | cons c cs ih => rw [renameAll, List.map_cons, ih, id_rename, List.map_cons, List.map_cons]

mutual
theorem rows_rename : ∀ (t : Tree) (p : Option NodeId),
    (t.rename σ).rows (p.map σ) = (t.rows p).map fun r => (σ r.1, r.2.rename σ)
  | node i e cs, p => by
    rw [rename, rows, rows, Multiset.map_add, Multiset.map_singleton, map_id_renameAll]
    exact congrArg _ (rowsAll_renameAll cs (some i))
theorem rowsAll_renameAll : ∀ (cs : List Tree) (p : Option NodeId),
    rowsAll (p.map σ) (renameAll σ cs) = (rowsAll p cs).map fun r => (σ r.1, r.2.rename σ)
  | [], p => rfl
  | c :: cs, p => by
    rw [renameAll, rowsAll, rowsAll, Multiset.map_add, rows_rename c p, rowsAll_renameAll cs p]
end

mutual
theorem length_ids : ∀ t : Tree, t.ids.length = t.outline.count
  | node i e cs => by rw [ids, outline, Outline.count, List.length_cons, length_idsAll cs]
theorem length_idsAll : ∀ cs : List Tree, (idsAll cs).length = Outline.countAll (outlineAll cs)
  | [] => rfl
  | c :: cs => by
    rw [idsAll, outlineAll, Outline.countAll, List.length_append, length_ids c, length_idsAll cs]
end

mutual
/-- Trees with the same outline differ in their numbers only. -/
theorem eq_rename : ∀ (t u : Tree), u.outline = t.outline → u.ids = t.ids.map σ → u = t.rename σ
  | node i e cs, node j d ds, ho, hids => by
    rw [outline, outline] at ho
    rw [ids, ids, List.map_cons] at hids
    obtain ⟨rfl, hbody⟩ := Outline.node.inj ho
    obtain ⟨rfl, hrest⟩ := List.cons.inj hids
    rw [rename, eq_renameAll cs ds hbody hrest]
theorem eq_renameAll : ∀ (cs ds : List Tree), outlineAll ds = outlineAll cs →
    idsAll ds = (idsAll cs).map σ → ds = renameAll σ cs
  | [], [], _, _ => rfl
  | [], d :: ds, ho, _ => by cases ho
  | c :: cs, [], ho, _ => by cases ho
  | c :: cs, d :: ds, ho, hids => by
    obtain ⟨hhead, htail⟩ := List.cons.inj ho
    rw [idsAll, idsAll, List.map_append] at hids
    have hlength : d.ids.length = (c.ids.map σ).length := by
      rw [List.length_map, length_ids, length_ids, hhead]
    obtain ⟨hids₁, hids₂⟩ := List.append_inj hids hlength
    rw [renameAll, ← eq_rename c d hhead hids₁, ← eq_renameAll cs ds htail hids₂]
end

end Tree

/-- Numbers can be exchanged for others one by one. -/
theorem exists_map_eq {xs ys : List NodeId} (hxs : xs.Nodup) (hlength : ys.length = xs.length) :
    ∃ σ : NodeId → NodeId, xs.map σ = ys ∧ ∀ i ∉ xs, σ i = i := by
  induction xs generalizing ys with
  | nil =>
    obtain rfl := List.length_eq_zero_iff.1 hlength
    exact ⟨id, rfl, fun _ _ => rfl⟩
  | cons x xs ih =>
    obtain ⟨y, ys, rfl⟩ := List.exists_cons_of_length_eq_add_one hlength
    obtain ⟨hx, hxs⟩ := List.nodup_cons.1 hxs
    obtain ⟨σ, hσ, hfixed⟩ := ih hxs (Nat.succ.inj hlength)
    refine ⟨Function.update σ x y, ?_, ?_⟩
    · rw [List.map_cons, Function.update_self, ← hσ]
      refine congrArg (y :: ·) (List.map_congr_left ?_)
      intro i hi
      exact Function.update_of_ne (fun heq : i = x => hx (heq ▸ hi)) y σ
    · intro i hi
      rw [Function.update_of_ne (fun heq => hi (by simp [heq]))]
      exact hfixed i (fun hmem => hi (List.mem_cons_of_mem x hmem))

namespace Forest

variable {f g : Forest} {t u : Tree}

/-- Two forests with nothing but one tree each, of the same outline, are the same up to names. -/
theorem exists_renames (hf : f.Shows [t]) (hg : g.Shows [u]) (ht : t.id = root) (hu : u.id = root)
    (hperm : t.ids.Perm (List.range f.size)) (hperm' : u.ids.Perm (List.range g.size))
    (ho : u.outline = t.outline) : ∃ σ, f.Renames σ g ∧ u.ids = t.ids.map σ := by
  have hlength : u.ids.length = t.ids.length := by rw [Tree.length_ids, Tree.length_ids, ho]
  have hsize : g.size = f.size := by
    rw [← List.length_range (n := g.size), ← hperm'.length_eq, hlength, hperm.length_eq,
      List.length_range]
  obtain ⟨σ, hσ, hfixed⟩ := exists_map_eq hf.nodup_ids hlength
  have hmem : ∀ i, i ∈ t.ids ↔ i < f.size := fun i => by rw [hperm.mem_iff, List.mem_range]
  have hmem' : ∀ i, i ∈ u.ids ↔ i < f.size := fun i => by
    rw [hperm'.mem_iff, List.mem_range, hsize]
  have hfixed' : ∀ i, f.size ≤ i → σ i = i := fun i hi =>
    hfixed i fun hin => Nat.not_lt.2 hi ((hmem i).1 hin)
  have hlt : ∀ i, i < f.size → σ i < f.size := by
    intro i hi
    rw [← hmem', ← hσ]
    exact List.mem_map_of_mem ((hmem i).2 hi)
  refine ⟨σ, ⟨?_, ?_, hsize, hfixed', ?_⟩, hσ.symm⟩
  · -- Numbers in use stay in use, and the others stay as they are.
    intro i j hij
    by_cases hi : i < f.size
    · by_cases hj : j < f.size
      · have hnodup : (t.ids.map σ).Nodup := hσ ▸ hg.nodup_ids
        exact List.inj_on_of_nodup_map hnodup ((hmem i).2 hi) ((hmem j).2 hj) hij
      · rw [hfixed' j (Nat.not_lt.1 hj)] at hij
        exact absurd (hij ▸ hlt i hi) hj
    · rw [hfixed' i (Nat.not_lt.1 hi)] at hij
      by_cases hj : j < f.size
      · exact absurd (hij ▸ hlt j hj) hi
      · rw [hij, hfixed' j (Nat.not_lt.1 hj)]
  · have hhead := congrArg List.head? hσ
    rw [Tree.ids_eq t, Tree.ids_eq u] at hhead
    simpa [ht, hu] using hhead
  · intro i
    by_cases hi : i < f.size
    · -- The row of the node is in the table of `f`, and renamed in that of `g`.
      have hrow : i ∈ (t.rows none).map Prod.fst := by
        rw [Tree.map_fst_rows]
        exact (hmem i).2 hi
      obtain ⟨r, hr, rfl⟩ := Multiset.mem_map.1 hrow
      have hu' : u = t.rename σ := Tree.eq_rename t u ho hσ.symm
      have hr' : (σ r.1, r.2.rename σ) ∈ u.rows none := by
        rw [hu']
        exact (Tree.rows_rename t none) ▸ Multiset.mem_map_of_mem _ hr
      have hget : f.nodes[r.1]? = some r.2 :=
        Holds.get hf r (by simpa [Tree.rowsAll] using hr)
      have hget' : g.nodes[σ r.1]? = some (r.2.rename σ) :=
        Holds.get hg (σ r.1, r.2.rename σ) (by simpa [Tree.rowsAll] using hr')
      rw [Forest.node, Forest.node, hget, hget']
      rfl
    · rw [hfixed' i (Nat.not_lt.1 hi), node_of_size_le (Nat.not_lt.1 hi),
        node_of_size_le (by rw [hsize]; exact Nat.not_lt.1 hi)]
      rfl

end Forest

/-! ## Trees without conflicts -/

namespace Tree

theorem conflicts_node_eq_zero {i : NodeId} {e : Entry} {cs : List Tree} :
    (node i e cs).conflicts = 0 ↔ e.kind.isConflict = false ∧ conflictsAll cs = 0 := by
  rw [conflicts]
  cases e.kind.isConflict <;> simp

mutual
/-- Without conflicts there is nothing that a place could be near to. -/
theorem quiet_placesAt : ∀ (t : Tree) (a : List Step), t.conflicts = 0 →
    a.head?.map Step.slot ≠ some (.side .right) → ∀ p ∈ t.placesAt .member a, p.Quiet
  | node i e cs, a, h, ha => by
    obtain ⟨hk, hcs⟩ := conflicts_node_eq_zero.1 h
    rw [placesAt]
    intro p hp
    rcases List.mem_cons.1 hp with rfl | hp
    · exact ⟨rfl, hk, ha⟩
    · exact quiet_placesAll cs _ true hk hcs (by simp) p hp
theorem quiet_placesAll : ∀ (cs : List Tree) (a : List Step) (first : Bool) {kind : Kind},
    kind.isConflict = false → conflictsAll cs = 0 →
    a.head?.map Step.slot ≠ some (.side .right) → ∀ p ∈ placesAll kind first a cs, p.Quiet
  | [], _, _, _, _, _, _ => by simp [placesAll]
  | c :: cs, a, first, kind, hk, h, ha => by
    obtain ⟨hc, hcs⟩ := Nat.add_eq_zero_iff.1 h
    rw [placesAll, Kind.slot_eq_member hk]
    intro p hp
    rcases List.mem_append.1 hp with hp | hp
    · exact quiet_placesAt c a hc ha p hp
    · exact quiet_placesAll cs a false hk hcs ha p hp
end

mutual
theorem isConflictFree_outline : ∀ t : Tree, t.Shaped → t.conflicts = 0 →
    t.outline.isConflictFree = true
  | node i e cs, hshaped, h => by
    obtain ⟨hk, hcs⟩ := conflicts_node_eq_zero.1 h
    rw [outline, Outline.isConflictFree_node]
    refine ⟨hk, ?_, areConflictFree_outlineAll cs (fun c hc => hshaped.of_mem hc) hcs⟩
    intro hcont
    obtain ⟨l, hl⟩ := Kind.exists_leaf hcont
    have hat : ShapeAt e.kind cs := hshaped.at_top
    rw [hl] at hat
    obtain rfl : cs = [] := hat
    rfl
theorem areConflictFree_outlineAll : ∀ cs : List Tree, (∀ c ∈ cs, c.Shaped) →
    conflictsAll cs = 0 → Outline.areConflictFree (outlineAll cs) = true
  | [], _, _ => rfl
  | c :: cs, hshaped, h => by
    obtain ⟨hc, hcs⟩ := Nat.add_eq_zero_iff.1 h
    rw [outlineAll, Outline.areConflictFree_cons]
    exact ⟨isConflictFree_outline c (hshaped c (by simp)) hc,
      areConflictFree_outlineAll cs (fun d hd => hshaped d (by simp [hd])) hcs⟩
end

/-- A change below the top leaves the entry of the top. -/
theorem entry_under {s s' : Tree} {K : Frames} (h : K = [] → s'.entry = s.entry) :
    (s'.under K).entry = (s.under K).entry := by
  induction K generalizing s s' with
  | nil => exact h rfl
  | cons k K ih =>
    have hfill : (k.fill s').entry = (k.fill s).entry := rfl
    exact ih fun _ => hfill

end Tree

namespace Merger

variable {m m' : Merger} {t t' u : Tree} {scopes : List NodeId} {keys : List String} {d : Entry}
  {i : NodeId}

/-! ## The root -/

theorem Sets.entry_eq {l : Labels} {n : NodeId} {p : Place} {c : Tree} (h : Sets l n p c t t')
    (ht : t.kind = .group) : t'.entry = t.entry := by
  cases h with
  | join => exact Tree.entry_under fun _ => rfl
  | @wrap K s _ _ hs _ _ =>
    refine Tree.entry_under ?_
    rintro rfl
    exact absurd ht hs

theorem AddsLeaf.entry_eq (h : AddsLeaf m scopes keys d t m' t') (ht : t.kind = .group) :
    t'.entry = t.entry := by
  cases h with
  | new => exact Tree.entry_under fun _ => rfl
  | @fold K i e m' _ _ hagree _ =>
    refine Tree.entry_under ?_
    rintro rfl
    rw [show e.kind = .group from ht] at hagree
    cases hagree
  | oppose _ _ _ _ _ hsets => exact hsets.entry_eq ht

theorem OpensScope.entry_eq (h : OpensScope m scopes keys d t m' t' i)
    (ht : t.kind = .group) : t'.entry = t.entry := by
  -- A scope is not the root.
  have hscope : ∀ {K : Frames} {j : NodeId} {e : Entry} {cs : List Tree},
      ((Tree.node j e cs).under K).kind = .group → e.kind.isScope = true → K ≠ [] := by
    rintro K j e cs hroot he rfl
    rw [show e.kind = .group from hroot] at he
    cases he
  cases h with
  | new => exact Tree.entry_under fun _ => rfl
  | oppose _ _ _ _ _ hsets => exact hsets.entry_eq ht
  | fold _ he _ _ => exact Tree.entry_under fun hK => absurd hK (hscope ht he)
  | foldOther => exact Tree.entry_under fun hK => absurd hK (List.cons_ne_nil _ _)
  | third => rfl
  | second _ _ he _ _ => exact Tree.entry_under fun hK => absurd hK (hscope ht he)

/-- The root has no location, and none of its comments twice. -/
structure Trimmed (t : Tree) : Prop where
  location : t.entry.location = none
  comments : t.entry.comments.Nodup

theorem Trimmed.of_entry_eq (h : Trimmed t) (heq : t'.entry = t.entry) : Trimmed t' :=
  ⟨heq ▸ h.location, heq ▸ h.comments⟩

theorem trimmed_firstTree (s : Source) : Trimmed (firstTree s) :=
  ⟨rfl, List.nodup_appendNew List.nodup_nil _⟩

/-- Both what is counted and what is trimmed stay so in every pass after the first. -/
theorem keeps_trimmed (base : String) (all : List Declaration) :
    Keeps base all fun m t _ _ => Counted m t ∧ Trimmed t where
  close h := h
  comments := by
    intro m i e cs K stack done xs hcurrent hm hi
    have hcount : Counted { m with output := m.output.unionComments i xs }
        ((Tree.node i (e.addComments xs) cs).under K) := by
      refine hi.1.of_same rfl ?_
      simp only [Tree.conflicts_under, Tree.conflicts]
      rfl
    refine ⟨hcount, ?_⟩
    cases K with
    | nil => exact ⟨hi.2.location, List.nodup_appendNew hi.2.comments xs⟩
    | cons k K => exact hi.2.of_entry_eq (Tree.entry_under fun hK => absurd hK (List.cons_ne_nil _ _))
  leaf _ he hm _ hi _ _ hcase :=
    ⟨hcase.counted he hi.1, hi.2.of_entry_eq (hcase.entry_eq hm.group)⟩
  scope _ he hm _ hi _ _ hcase :=
    ⟨hcase.counted he hi.1, hi.2.of_entry_eq (hcase.entry_eq hm.group)⟩

/-! ## The index -/

/-- Without conflicts the index lists every node under all its names. -/
theorem Stands.mem_latest (h : m.Stands t) (hquiet : ∀ p ∈ t.places, p.Quiet) {key : String} :
    i ∈ m.index.latest key ↔ i ∈ t.ids ∧ key ∈ m.output.indexKeys i := by
  have hentry : i ∈ m.index.latest key ↔ (key, i) ∈ m.index.entries := by simp [Index.latest]
  rw [hentry, h.index, ← Tree.map_id_places]
  constructor
  · rintro ⟨p, hp, -, rfl, hkey⟩
    exact ⟨List.mem_map_of_mem hp, by rwa [h.shows.indexKeys_of_mem hp]⟩
  · rintro ⟨hi, hkey⟩
    obtain ⟨p, hp, rfl⟩ := List.mem_map.1 hi
    rw [h.shows.indexKeys_of_mem hp] at hkey
    exact ⟨p, hp, (hquiet p hp).listed hkey, rfl, hkey⟩

/-- All that is found, once and in order, where there is one thing at most to be found. -/
theorem map_found {xs ys : List NodeId} {σ : NodeId → NodeId} (hxs : ∀ x ∈ xs, ∀ y ∈ xs, x = y)
    (hys : ∀ y, y ∈ ys ↔ ∃ x ∈ xs, σ x = y) :
    [].appendNew ys = ([].appendNew xs).map σ := by
  have hone : ∀ (x : NodeId) (zs : List NodeId), x ∈ zs → (∀ z ∈ zs, z = x) →
      [].appendNew zs = [x] := by
    intro x zs hmem hall
    obtain ⟨z, zs, rfl⟩ := List.exists_cons_of_ne_nil (List.ne_nil_of_mem hmem)
    obtain rfl := hall z (by simp)
    show [z].appendNew zs = [z]
    apply appendNew_eq_self
    intro y hy
    rw [hall y (List.mem_cons_of_mem z hy)]
    exact List.mem_singleton_self z
  cases xs with
  | nil =>
    obtain rfl : ys = [] := List.eq_nil_iff_forall_not_mem.2 fun y hy => by simpa using (hys y).1 hy
    rfl
  | cons x xs =>
    rw [hone x (x :: xs) (by simp) (fun z hz => hxs z hz x (by simp)),
      hone (σ x) ys ((hys _).2 ⟨x, by simp, rfl⟩)]
    · rfl
    · intro y hy
      obtain ⟨z, hz, rfl⟩ := (hys y).1 hy
      rw [hxs z hz x (by simp)]

/-- Where every name is used once, both indices find the same. -/
theorem Stands.index_renames {σ : NodeId → NodeId} (h : m.Stands t) (h' : m'.Stands u)
    (hquiet : ∀ p ∈ t.places, p.Quiet) (hquiet' : ∀ p ∈ u.places, p.Quiet)
    (hσ : m.output.Renames σ m'.output) (hids : u.ids = t.ids.map σ)
    (honce : ∀ i ∈ t.ids, ∀ j ∈ t.ids, ∀ key ∈ m.output.indexKeys i,
      key ∈ m.output.indexKeys j → i = j) :
    m.index.Renames σ m'.index := by
  intro key
  refine map_found ?_ ?_
  · intro i hi j hj
    obtain ⟨hi, hkeyi⟩ := (h.mem_latest hquiet).1 hi
    obtain ⟨hj, hkeyj⟩ := (h.mem_latest hquiet).1 hj
    exact honce i hi j hj key hkeyi hkeyj
  · intro j
    rw [h'.mem_latest hquiet', hids, List.mem_map]
    constructor
    · rintro ⟨⟨i, hi, rfl⟩, hkey⟩
      rw [hσ.indexKeys] at hkey
      exact ⟨i, (h.mem_latest hquiet).2 ⟨hi, hkey⟩, rfl⟩
    · rintro ⟨i, hi, rfl⟩
      obtain ⟨hi, hkey⟩ := (h.mem_latest hquiet).1 hi
      exact ⟨⟨i, hi, rfl⟩, by rwa [hσ.indexKeys]⟩

/-! ## The output as an outline -/

/-- The first pass over the outline of a trimmed tree copies all of it. -/
theorem outline_firstTree_eq {s : Source} (hs : s.root = t.outline) (hgroup : t.kind = .group)
    (htrim : Trimmed t) : (firstTree s).outline = t.outline := by
  obtain ⟨i, ⟨kind, comments, location⟩, cs⟩ := t
  obtain rfl : kind = .group := hgroup
  obtain ⟨rfl, hnodup⟩ : location = none ∧ comments.Nodup := ⟨htrim.location, htrim.comments⟩
  have hcomments : [].appendNew comments = comments :=
    List.appendNew_eq_append [] comments hnodup
  rw [firstTree, Tree.outline, Tree.outlineAll_numberAll, hs, Tree.outline, Outline.entry,
    Outline.children, Entry.addComments, hcomments]

/-- A merge without conflicts, in which every name is used once, is up to names the first pass over
its own output. -/
theorem exists_renames_add {s : Source} (hm : m.Stands t) (hcount : Counted m t)
    (htrim : Trimmed t) (hstarted : m.started = true) (hforest : m.output.IsForest)
    (hloose : m.output.Loose []) (hzero : t.conflicts = 0) (hs : s.root = t.outline)
    (honce : ∀ i ∈ t.ids, ∀ j ∈ t.ids, ∀ key ∈ m.output.indexKeys i,
      key ∈ m.output.indexKeys j → i = j) :
    ∃ σ m', ({ labels := m.labels } : Merger).add s = .ok m' ∧ m.Renames σ m' := by
  have hfree : s.root.isConflictFree = true := hs ▸ t.isConflictFree_outline hm.shaped hzero
  obtain ⟨m', hadd, hm', hlabels, hstarted', hconflicts⟩ := add_first m.labels hfree
  have hforest' : m'.output.IsForest := (Sound.start m.labels).add hadd |>.forest
  have hloose' : m'.output.Loose [] := loose_add Forest.Loose.empty s m' hadd
  obtain ⟨σ, hσ, hids⟩ := Forest.exists_renames hm.shows hm'.shows hm.top hm'.top
    (hm.shows.ids_perm_range hm.top hforest hloose)
    (hm'.shows.ids_perm_range hm'.top hforest' hloose') (outline_firstTree_eq hs hm.group htrim)
  have hquiet : ∀ p ∈ t.places, p.Quiet := t.quiet_placesAt [] hzero (by simp)
  refine ⟨σ, m', hadd, hlabels, hσ, ?_, ?_, hstarted'.trans hstarted.symm⟩
  · exact hm.index_renames hm' hquiet (quiet_firstTree hfree) hσ hids honce
  · rw [hconflicts, hcount.zero hzero]

end Merger

/-- No name is used twice below the root. -/
def Forest.NamesDiffer (f : Forest) : Prop :=
  ∀ i ∈ f.descendants root, ∀ j ∈ f.descendants root,
    ∀ key ∈ f.indexKeys i, key ∈ f.indexKeys j → i = j

instance (f : Forest) : Decidable f.NamesDiffer :=
  inferInstanceAs (Decidable (∀ i ∈ f.descendants Forest.root, ∀ j ∈ f.descendants Forest.root,
    ∀ key ∈ f.indexKeys i, key ∈ f.indexKeys j → i = j))

/-- The same of all nodes of the tree: the root goes by no name. -/
theorem Forest.Shows.eq_of_names {f : Forest} {t : Tree} (h : f.Shows [t]) (htop : t.id = root)
    (hgroup : t.kind = .group) (hnames : f.NamesDiffer) {i j : NodeId} (hi : i ∈ t.ids)
    (hj : j ∈ t.ids) {key : String} (hkeyi : key ∈ f.indexKeys i) (hkeyj : key ∈ f.indexKeys j) :
    i = j := by
  have hreached : root :: f.descendants root = t.ids := by
    rw [h.reached_eq htop, Tree.map_id_places]
  have hroot : f.indexKeys root = [] := by
    have hkind : f.kind root = .group := by
      rw [← htop, ← hgroup]
      exact Shows.kind_eq (K := []) h
    rw [indexKeys, hkind]
    rfl
  have hbelow : ∀ x ∈ t.ids, key ∈ f.indexKeys x → x ∈ f.descendants root := by
    intro x hx hkey
    rw [← hreached] at hx
    rcases List.mem_cons.1 hx with rfl | hx
    · rw [hroot] at hkey
      cases hkey
    · exact hx
  exact hnames i (hbelow i hi hkeyi) j (hbelow j hj hkeyj) key hkeyi hkeyj

/-- **Merging step by step.** If two outlines agree and no name is used twice in their merge, then
taking in a third one after them comes to the same as merging their merge with it: both ways come
to an end, with the same outline and the same conflicts. -/
theorem add_third_eq_merge_output (labels : Labels) {a b c : Source}
    (ha : a.root.isConflictFree = true) (hb : b.root.isConflictFree = true)
    (hc : c.root.isConflictFree = true) {res : Merger.Result} (hres : merge labels a b = .ok res)
    (hagree : res.conflicts = []) (hnames : res.forest.NamesDiffer) :
    ∃ m whole again, [a, b, c].foldlM Merger.add { labels } = .ok m ∧ m.finish = .ok whole ∧
      merge labels res.forest.source c = .ok again ∧
      again.forest.outline Forest.root = whole.forest.outline Forest.root ∧
      again.conflicts = whole.conflicts := by
  obtain ⟨m₁, hadd₁, hm₁, hlabels₁, hstarted₁, hconflicts₁⟩ := Merger.add_first labels ha
  have hfirst : Merger.Counted m₁ (Merger.firstTree a) ∧ Merger.Trimmed (Merger.firstTree a) := by
    refine ⟨⟨?_, fun _ => hconflicts₁⟩, Merger.trimmed_firstTree a⟩
    rw [Merger.conflicts_firstTree ha]
    exact Nat.zero_le _
  obtain ⟨m₂, t, hadd₂, hm₂, hlabels₂, hstarted₂, hcount, htrim⟩ :=
    (Merger.keeps_trimmed b.path b.declarations).add hb hm₁ hstarted₁ hfirst
  obtain ⟨g, t', hfinish, -, hshows, htop, hall⟩ := hm₂.finish
  have hmerge : merge labels a b = .ok ⟨g, m₂.conflicts.toList⟩ :=
    (bind_of_ok hadd₁ _).trans ((bind_of_ok hadd₂ _).trans hfinish)
  obtain rfl : res = ⟨g, m₂.conflicts.toList⟩ := Except.ok.inj (hres.symm.trans hmerge)
  -- Without records there are no conflicts, and nothing was absorbed.
  have hzero : t.conflicts = 0 := by
    have hsize : m₂.conflicts.size = 0 := by
      rw [← Array.length_toList, show m₂.conflicts.toList = [] from hagree, List.length_nil]
    exact Nat.le_zero.1 (hsize ▸ hcount.le)
  obtain rfl := hall.eq_of_quiet (Tree.conflicts_eq_zero.1 hzero)
  have hkeys : ∀ i ∈ t'.ids, g.indexKeys i = m₂.output.indexKeys i := by
    intro i hi
    rw [← Tree.map_id_places] at hi
    obtain ⟨p, hp, rfl⟩ := List.mem_map.1 hi
    rw [hshows.indexKeys_of_mem hp, hm₂.shows.indexKeys_of_mem hp]
  have hsource : (Forest.source g).root = t'.outline := by
    rw [Forest.source, ← htop]
    exact Forest.Shows.outline_eq (K := []) hshows
  have hsound : m₂.Sound [] := ((Merger.Sound.start labels).add hadd₁).add hadd₂
  have hloose : m₂.output.Loose [] :=
    Merger.loose_add (Merger.loose_add Forest.Loose.empty a m₁ hadd₁) b m₂ hadd₂
  obtain ⟨σ, m₂', hadd₂', hσ⟩ := Merger.exists_renames_add hm₂ hcount htrim hstarted₂ hsound.forest
    hloose hzero hsource fun i hi j hj key hkeyi hkeyj =>
      hshows.eq_of_names htop hm₂.group hnames hi hj (hkeys i hi ▸ hkeyi) (hkeys j hj ▸ hkeyj)
  -- From here on both take the same steps.
  obtain ⟨m, t₃, hadd, hm, -⟩ :=
    (Merger.keeps_trimmed c.path c.declarations).add hc hm₂ hstarted₂ ⟨hcount, htrim⟩
  obtain ⟨m', hadd', hσ'⟩ := (hσ.add hstarted₂ c).exists_ok hadd
  obtain ⟨g₃, t₃', hfinish₃, -⟩ := hm.finish
  obtain ⟨again, hfinish₃', hforest, hconflicts⟩ := hσ'.finish.exists_ok hfinish₃
  refine ⟨m, _, again, ?_, hfinish₃, ?_, ?_, hconflicts⟩
  · rw [List.foldlM_cons]
    refine (bind_of_ok hadd₁ _).trans ?_
    rw [List.foldlM_cons]
    refine (bind_of_ok hadd₂ _).trans ?_
    rw [List.foldlM_cons]
    exact (bind_of_ok hadd _).trans rfl
  · rw [hlabels₂, hlabels₁] at hadd₂'
    exact (bind_of_ok hadd₂' _).trans ((bind_of_ok hadd' _).trans hfinish₃')
  · have houtline := hforest.outline Forest.root
    rwa [hforest.root] at houtline

/-- What can be added to the old cars without a conflict: a signature, a method, a scope. -/
def washedCars : Outline :=
  .node {} [
    .node { kind := .scope (.moduleOf "Depot") } [],
    .node { kind := .scope (.classOf "Car" (some "Vehicle")) } [
      .node { kind := .leaf (.method { name := "wash" }) } [],
      .node { kind := .leaf (.method
        { name := "wheels", signatures := [{ result := some "Integer" }] }) } []]]

/-- The cars: the new ones are not in agreement with the others. -/
theorem add_newCars_eq_merge_output :
    ∃ res m whole again,
      merge ⟨"old", "new"⟩ { root := oldCars } { root := washedCars } = .ok res ∧
      res.conflicts = [] ∧ res.forest.NamesDiffer ∧
      [{ root := oldCars }, { root := washedCars }, { root := newCars }].foldlM Merger.add
        { labels := ⟨"old", "new"⟩ } = .ok m ∧ m.finish = .ok whole ∧
      merge ⟨"old", "new"⟩ res.forest.source { root := newCars } = .ok again ∧
      again.forest.outline Forest.root = whole.forest.outline Forest.root ∧
      again.conflicts = whole.conflicts := by
  have hcheck : (match merge ⟨"old", "new"⟩ { root := oldCars } { root := washedCars } with
      | .ok res => decide (res.conflicts = [] ∧ res.forest.NamesDiffer)
      | .error _ => false) = true := by
    decide +kernel
  cases hres : merge ⟨"old", "new"⟩ { root := oldCars } { root := washedCars } with
  | error e => simp [hres] at hcheck
  | ok res =>
    simp only [hres, decide_eq_true_eq] at hcheck
    obtain ⟨m, whole, again, hrest⟩ := add_third_eq_merge_output ⟨"old", "new"⟩
      (a := { root := oldCars }) (b := { root := washedCars }) (c := { root := newCars })
      (by decide) (by decide) (by decide) hres hcheck.1 hcheck.2
    exact ⟨res, m, whole, again, rfl, hcheck.1, hcheck.2, hrest⟩

end StubMerge
