import StubMerge.Proofs.Opposing

/-!
# A merge between two declarations

Between two declarations a merge is in a state that one tree describes: `m.Stands t`. The output
is the tree `t`, of the right shape, and the index lists exactly what it should list, under the
names that it goes by now. This module has the edits that lead from one such state to another:
comments are added, an entry grows, a copy of an outline is put into a scope, a tree is set
against a node.
-/

namespace StubMerge

/-- An entry with comments behind its own, as far as it does not have them. -/
def Entry.addComments (e : Entry) (xs : List String) : Entry :=
  { e with comments := e.comments.appendNew xs }

theorem Entry.growsTo_addComments (e : Entry) (xs : List String) :
    e.GrowsTo (e.addComments xs) :=
  ⟨.same _, List.isPrefix_appendNew _ _, rfl⟩

/-! ## Outlines without conflicts -/

namespace Outline

mutual
/-- Whether an outline can be merged: it has no conflicts, and only containers have anything
below them. -/
def isConflictFree : Outline → Bool
  | node e cs => !e.kind.isConflict && (e.kind.isContainer || cs.isEmpty) && areConflictFree cs
/-- Whether all outlines of a list can be merged. -/
def areConflictFree : List Outline → Bool
  | [] => true
  | c :: cs => c.isConflictFree && areConflictFree cs
end

theorem isConflictFree_node {e : Entry} {cs : List Outline} :
    (node e cs).isConflictFree = true ↔ e.kind.isConflict = false ∧
      (e.kind.isContainer = false → cs = []) ∧ areConflictFree cs = true := by
  rw [isConflictFree]
  cases e.kind.isContainer <;> simp [and_assoc]

theorem areConflictFree_cons {c : Outline} {cs : List Outline} :
    areConflictFree (c :: cs) = true ↔ c.isConflictFree = true ∧ areConflictFree cs = true := by
  rw [areConflictFree, Bool.and_eq_true]

mutual
theorem shaped_number : ∀ (o : Outline) (n : NodeId), o.isConflictFree = true →
    (o.number n).Shaped
  | node e cs, n, h => by
    obtain ⟨hk, hleaf, hcs⟩ := isConflictFree_node.1 h
    rw [number]
    refine .node ?_ (shaped_numberAll cs (n + 1) hcs)
    cases hkind : e.kind with
    | leaf l => rw [hleaf (by simp [hkind, Kind.isContainer])]; rfl
    | group | scope _ => trivial
    | conflict l | scopeConflict l => simp [hkind, Kind.isConflict] at hk
theorem shaped_numberAll : ∀ (os : List Outline) (n : NodeId), areConflictFree os = true →
    ∀ c ∈ numberAll n os, c.Shaped
  | [], _, _ => by simp [numberAll]
  | o :: os, n, h => by
    obtain ⟨ho, hos⟩ := areConflictFree_cons.1 h
    rw [numberAll]
    intro c hc
    rcases List.mem_cons.1 hc with rfl | hc
    · exact shaped_number o n ho
    · exact shaped_numberAll os _ hos c hc
end

end Outline

/-- A place that no conflict is near to: a member, and not in the right side of a conflict. -/
structure Place.Quiet (p : Place) : Prop where
  slot : p.slot = .member
  kind : p.kind.isConflict = false
  above : p.above.head?.map Step.slot ≠ some (.side .right)

/-- A quiet place that goes by some name is listed. -/
theorem Place.Quiet.listed {p : Place} (h : p.Quiet) {key : String} (hkey : key ∈ p.keys) :
    p.listed = true := by
  obtain ⟨hslot, -, habove⟩ := h
  unfold Place.keys at hkey
  unfold Place.listed
  cases hk : p.kind with
  | leaf l => simpa using habove
  | scope s => rw [hslot]; rfl
  | _ => simp [hk, Kind.keys] at hkey

namespace Outline

mutual
/-- In a copy of an outline without conflicts all places are quiet. -/
theorem quiet_number : ∀ (o : Outline) (n : NodeId) (a : List Step), o.isConflictFree = true →
    a.head?.map Step.slot ≠ some (.side .right) → ∀ p ∈ (o.number n).placesAt .member a, p.Quiet
  | node e cs, n, a, h, ha => by
    obtain ⟨hk, -, hcs⟩ := isConflictFree_node.1 h
    rw [number, Tree.placesAt]
    intro p hp
    rcases List.mem_cons.1 hp with rfl | hp
    · exact ⟨rfl, hk, ha⟩
    · exact quiet_numberAll cs (n + 1) _ true hk hcs (by simp) p hp
theorem quiet_numberAll : ∀ (os : List Outline) (n : NodeId) (a : List Step) (first : Bool)
    {kind : Kind}, kind.isConflict = false → areConflictFree os = true →
    a.head?.map Step.slot ≠ some (.side .right) →
    ∀ p ∈ Tree.placesAll kind first a (numberAll n os), p.Quiet
  | [], _, _, _, _, _, _, _ => by simp [numberAll, Tree.placesAll]
  | o :: os, n, a, first, kind, hk, h, ha => by
    obtain ⟨ho, hos⟩ := areConflictFree_cons.1 h
    rw [numberAll, Tree.placesAll, Kind.slot_eq_member hk]
    intro p hp
    rcases List.mem_append.1 hp with hp | hp
    · exact quiet_number o n a ho ha p hp
    · exact quiet_numberAll os _ a false hk hos ha p hp
end

end Outline

namespace Merger

/-! ## The state between two declarations -/

/-- The output of a merge is the tree `t`, and the index is up to date. -/
structure Stands (m : Merger) (t : Tree) : Prop where
  shows : m.output.Shows [t]
  top : t.id = Forest.root
  group : t.kind = .group
  shaped : t.Shaped
  index : ∀ key i, (key, i) ∈ m.index.entries ↔
    ∃ p ∈ t.places, p.listed = true ∧ p.id = i ∧ key ∈ p.keys

/-- The nodes are scopes of the tree that the index lists. -/
def Open (t : Tree) (scopes : List NodeId) : Prop :=
  ∀ i ∈ scopes, ∃ p ∈ t.places, p.id = i ∧ p.kind.isScope = true ∧ p.listed = true

variable {m m' : Merger} {t t' : Tree} {scopes : List NodeId}

/-- Open scopes stay what they are while the tree grows. -/
theorem Open.grown {N : List Place} (h : Open t scopes) (hg : Grown N t.places t'.places) :
    Open t' scopes := by
  intro i hi
  obtain ⟨p, hp, rfl, hs, hl⟩ := h i hi
  obtain ⟨q, hq, hk⟩ := hg.exists_kept hp
  exact ⟨q, hq, hk.id_eq, hk.kind.isScope_eq.trans hs, hk.listed_eq.trans hl⟩

/-- A copy of an outline can be put into every container. -/
theorem copyInto_spec {i : NodeId} {e : Entry} {cs : List Tree} {K : Frames}
    (h : m.output.Shows [(Tree.node i e cs).under K]) (hcont : e.kind.isContainer = true)
    (o : Outline) :
    ∃ f, m.copyInto i o = .ok ({ m with output := f }, m.output.size) ∧
      f.size = m.output.size + o.count ∧
      f.Shows [(Tree.node i e (cs ++ [o.number m.output.size])).under K] := by
  obtain ⟨hcopy, hid, hsize⟩ := h.graft o
  obtain ⟨f, hf, hfsize, hshows⟩ := hcopy.attach hcont
  rw [Outline.id_number] at hf
  refine ⟨f, ?_, hfsize.trans hsize, hshows⟩
  rw [Merger.copyInto]
  simp only [hid]
  exact (bind_of_ok hf _).trans rfl

namespace Stands

/-- When the tree grows, the index has to list what is new and no more. -/
theorem of_grown {N : List Place} (h : m.Stands t) (hg : Grown N t.places t'.places)
    (hshows : m'.output.Shows [t']) (htop : t'.id = t.id ∧ t'.kind = t.kind)
    (hshaped : t'.Shaped)
    (hindex : ∀ key i, (key, i) ∈ m'.index.entries ↔
      (key, i) ∈ m.index.entries ∨ ∃ q ∈ N, q.listed = true ∧ q.id = i ∧ key ∈ q.keys) :
    m'.Stands t' where
  shows := hshows
  top := htop.1.trans h.top
  group := htop.2.trans h.group
  shaped := hshaped
  index key i := by
    rw [hindex, h.index]
    constructor
    · rintro (⟨p, hp, hl, rfl, hkey⟩ | ⟨q, hq, hl, rfl, hkey⟩)
      · obtain ⟨q, hq, hk⟩ := hg.exists_kept hp
        exact ⟨q, hq, hk.listed_eq.trans hl, hk.id_eq, hk.keys_eq ▸ hkey⟩
      · exact ⟨q, hg.mem_of_new hq, hl, rfl, hkey⟩
    · rintro ⟨q, hq, hl, rfl, hkey⟩
      rcases hg.mem_cases hq with ⟨p, hp, hk⟩ | hn
      · exact .inl ⟨p, hp, hk.listed_eq ▸ hl, hk.id_eq.symm, hk.keys_eq ▸ hkey⟩
      · exact .inr ⟨q, hn, hl, rfl, hkey⟩

/-- Writing down a conflict changes neither output nor index. -/
theorem record (h : m.Stands t) (keys : List String) (d : Entry) (i : NodeId) :
    (m.record keys d i).Stands t :=
  ⟨h.shows, h.top, h.group, h.shaped, h.index⟩

/-- What is found by a name is listed. -/
theorem exists_previous (h : m.Stands t) {keys : List String} {kind : Kind} {i : NodeId}
    (hi : m.previous? scopes keys kind = some i) :
    ∃ p ∈ t.places, p.id = i ∧ p.listed = true := by
  obtain ⟨hcand, -, -⟩ := previous?_eq_some hi
  obtain ⟨key, -, hmem⟩ := Index.mem_candidates.1 hcand
  obtain ⟨p, hp, hl, hid, -⟩ := (h.index key i).1 hmem
  exact ⟨p, hp, hid, hl⟩

/-- What is found goes by one of the names that were asked for. -/
theorem shares_key (h : m.Stands t) {keys : List String} {kind : Kind} {p : Place}
    (hp : p ∈ t.places) (hi : m.previous? scopes keys kind = some p.id) :
    ∃ key ∈ keys, key ∈ p.keys := by
  obtain ⟨hcand, -, -⟩ := previous?_eq_some hi
  obtain ⟨key, hkey, hmem⟩ := Index.mem_candidates.1 hcand
  obtain ⟨q, hq, -, hid, hqk⟩ := (h.index key p.id).1 hmem
  refine ⟨key, hkey, ?_⟩
  rw [← h.shows.indexKeys_of_mem hp, ← hid, h.shows.indexKeys_of_mem hq]
  exact hqk

/-- The innermost open scope can take members. -/
theorem exists_current (h : m.Stands t) (ho : Open t scopes) :
    ∃ (K : Frames) (e : Entry) (cs : List Tree),
      t = (Tree.node (currentScope scopes) e cs).under K ∧ e.kind.isConflict = false ∧
        e.kind.isContainer = true ∧ (Frames.slot K = .member ∨ Frames.slot K = .header .left) := by
  cases scopes with
  | nil =>
    obtain ⟨i, e, cs⟩ := t
    have hi : i = Forest.root := h.top
    have he : e.kind = .group := h.group
    exact ⟨[], e, cs, by rw [hi]; rfl, by rw [he]; rfl, by rw [he]; rfl, .inl rfl⟩
  | cons i scopes =>
    obtain ⟨p, hp, rfl, hs, hl⟩ := ho i (by simp)
    obtain ⟨K, ⟨j, e, cs⟩, rfl, rfl⟩ := Tree.mem_places.1 hp
    have hs' : e.kind.isScope = true := hs
    refine ⟨K, e, cs, rfl, ?_, ?_, ?_⟩
    · cases hk : e.kind <;> simp [hk, Kind.isScope, Kind.isConflict] at hs' ⊢
    · cases hk : e.kind <;> simp [hk, Kind.isScope, Kind.isContainer] at hs' ⊢
    · exact (Place.slot_of_listed h.shaped hl).imp_right And.left

/-- The root is a group at the top. -/
theorem at_root {e : Entry} {cs : List Tree} {K : Frames}
    (h : m.Stands ((Tree.node Forest.root e cs).under K)) :
    e.kind = .group ∧ Frames.steps K = [] := by
  have htop := Tree.placeIn_mem_places ((Tree.node Forest.root e cs).under K) []
  have heq := h.shows.eq_of_id (Tree.placeIn_mem_places _ K) htop h.top.symm
  have hentry : e = ((Tree.node Forest.root e cs).under K).entry := congrArg Place.entry heq
  refine ⟨?_, congrArg Place.above heq⟩
  rw [hentry]
  exact h.group

/-- What is put into the innermost open scope is in that scope. -/
theorem scopeAlong_current {e : Entry} {cs : List Tree} {K : Frames}
    (h : m.Stands ((Tree.node (currentScope scopes) e cs).under K))
    (ho : Open ((Tree.node (currentScope scopes) e cs).under K) scopes) :
    scopeAlong (⟨currentScope scopes, e.kind, Frames.slot K⟩ :: Frames.steps K) =
      currentScope scopes := by
  cases scopes with
  | nil =>
    obtain ⟨hgroup, hsteps⟩ := h.at_root
    rw [hgroup, hsteps]
    rfl
  | cons i scopes =>
    obtain ⟨p, hp, hid, hscope, -⟩ := ho i (by simp)
    obtain rfl := h.shows.eq_of_id (Tree.placeIn_mem_places _ K) hp hid.symm
    have he : e.kind.isScope = true := hscope
    rw [scopeAlong, List.filter_cons, if_pos he]
    rfl

/-! ## Edits that keep a merge standing -/

variable {i : NodeId} {e : Entry} {cs : List Tree} {K : Frames}

/-- An entry may grow. -/
theorem setEntry (h : m.Stands ((Tree.node i e cs).under K)) {e' : Entry} (he : e.GrowsTo e')
    (hk : e'.kind = e.kind ∨ cs = [] ∧ Frames.slot K = .member) {f : Forest}
    (hf : f.Shows [(Tree.node i e' cs).under K]) :
    ({ m with output := f } : Merger).Stands ((Tree.node i e' cs).under K) ∧
      Grown [] ((Tree.node i e cs).under K).places ((Tree.node i e' cs).under K).places := by
  have hg : Grown [] ((Tree.node i e cs).under K).places ((Tree.node i e' cs).under K).places :=
    Tree.grown_entry he (hk.imp_right And.left)
  have hs := h.shaped.of_under
  refine ⟨h.of_grown hg hf (top_under fun hK => ⟨rfl, ?_⟩) ?_ (by simp), hg⟩
  · have hgroup := h.group
    subst hK
    exact he.kind.eq_of_container (by rw [show e.kind = .group from hgroup]; rfl)
  · rcases hk with hk | ⟨rfl, hK⟩
    · have hs' : (Tree.node i e' cs).Shaped := by
        refine .node ?_ fun c hc => hs.of_mem hc
        rw [hk]
        exact hs.at_top
      exact h.shaped.replace_same hs' hk id h.shaped.of_right_header
    · refine h.shaped.replace_member hK (.node ?_ (by simp))
      have hat : Tree.ShapeAt e.kind [] := hs.at_top
      have hgrows := he.kind
      generalize e.kind = k, e'.kind = k' at hat hgrows
      cases hgrows with
      | same => exact hat
      | _ => rfl

/-- Comments may be put behind those of any node. -/
theorem unionComments (h : m.Stands ((Tree.node i e cs).under K)) (xs : List String) :
    ({ m with output := m.output.unionComments i xs } : Merger).Stands
        ((Tree.node i (e.addComments xs) cs).under K) ∧
      Grown [] ((Tree.node i e cs).under K).places
        ((Tree.node i (e.addComments xs) cs).under K).places :=
  h.setEntry (e.growsTo_addComments xs) (.inl rfl) (h.shows.unionComments xs)

/-- A tree may be put behind the members of a node that is not in conflict. -/
theorem shaped_append (h : ((Tree.node i e cs).under K).Shaped) {c : Tree} (hc : c.Shaped)
    (he : e.kind.isConflict = false) (hcont : e.kind.isContainer = true)
    (hK : Frames.slot K = .member ∨ Frames.slot K = .header .left) :
    ((Tree.node i e (cs ++ [c])).under K).Shaped := by
  refine h.replace_same ?_ rfl (by simp) (fun hr => by rcases hK with hK | hK <;> simp [hK] at hr)
  refine .node ?_ fun d hd => ?_
  · cases hk : e.kind <;> simp [hk, Kind.isConflict, Kind.isContainer] at he hcont <;> trivial
  · rcases List.mem_append.1 hd with hd | hd
    · exact h.of_under.of_mem hd
    · exact List.mem_singleton.1 hd ▸ hc

/-- Registering a tree registers all its places. -/
theorem mem_index_registerTree {c : Tree} {key : String} {j : NodeId}
    (h : m.output.Shows [(Tree.node i e (cs ++ [c])).under K]) :
    (key, j) ∈ (m.registerTree c.id).index.entries ↔
      (∃ q ∈ c.placesAt (e.kind.slot cs.isEmpty) (⟨i, e.kind, Frames.slot K⟩ :: Frames.steps K),
        q.id = j ∧ key ∈ q.keys) ∨ (key, j) ∈ m.index.entries := by
  have hview : (Tree.node i e (cs ++ [c])).under K = c.under (⟨i, e, cs, []⟩ :: K) := rfl
  rw [hview] at h
  have hids : c.id :: m.output.descendants c.id = c.ids := by
    rw [h.descendants_eq, Tree.ids_eq]
  rw [registerTree]
  simp only [hids]
  rw [mem_foldl_register, ← c.map_id_placesAt (e.kind.slot cs.isEmpty)
    (⟨i, e.kind, Frames.slot K⟩ :: Frames.steps K)]
  refine or_congr_left ?_
  have hkeys : ∀ q ∈ c.placesAt (e.kind.slot cs.isEmpty)
      (⟨i, e.kind, Frames.slot K⟩ :: Frames.steps K), m.output.indexKeys q.id = q.keys := by
    intro q hq
    refine h.indexKeys_of_mem ?_
    rw [Tree.places_under]
    exact List.mem_append_left _ (List.mem_append_right _ hq)
  constructor
  · rintro ⟨hj, hkey⟩
    obtain ⟨q, hq, rfl⟩ := List.mem_map.1 hj
    exact ⟨q, hq, rfl, hkeys q hq ▸ hkey⟩
  · rintro ⟨q, hq, rfl, hkey⟩
    exact ⟨List.mem_map_of_mem hq, hkeys q hq ▸ hkey⟩

/-- A copy of an outline may be put there. -/
theorem copyInto (h : m.Stands ((Tree.node i e cs).under K)) {o : Outline}
    (ho : o.isConflictFree = true) (he : e.kind.isConflict = false)
    (hcont : e.kind.isContainer = true)
    (hK : Frames.slot K = .member ∨ Frames.slot K = .header .left) :
    ∃ f, m.copyInto i o = .ok ({ m with output := f }, m.output.size) ∧
      f.size = m.output.size + o.count ∧
      (registerTree { m with output := f } m.output.size).Stands
        ((Tree.node i e (cs ++ [o.number m.output.size])).under K) := by
  obtain ⟨f, hf, hfsize, hshows⟩ := copyInto_spec h.shows hcont o
  refine ⟨f, hf, hfsize, ?_⟩
  have hg : Grown _ ((Tree.node i e cs).under K).places _ :=
    Tree.grown_append (o.number m.output.size) he
  refine h.of_grown hg hshows (top_under fun _ => ⟨rfl, rfl⟩)
    (shaped_append h.shaped (o.shaped_number _ ho) he hcont hK) fun key j => ?_
  have hreg : (key, j) ∈ _ ↔ _ :=
    mem_index_registerTree (m := { m with output := f }) hshows
  rw [Outline.id_number, Kind.slot_eq_member he] at hreg
  rw [hreg, or_comm]
  refine or_congr_right (exists_congr fun q => and_congr_right fun hq => ?_)
  have hquiet : q.Quiet := by
    refine o.quiet_number _ _ ho ?_ q hq
    rcases hK with hK | hK <;> simp [hK]
  constructor
  · exact fun ⟨hj, hkey⟩ => ⟨hquiet.listed hkey, hj, hkey⟩
  · exact And.right

/-- One declaration that is new is registered, along with others that are not listed. -/
theorem of_grown_register {W : List Place} {q : Place} (h : m.Stands t)
    (hg : Grown (W ++ [q]) t.places t'.places) (hW : ∀ w ∈ W, w.listed = false)
    (hq : q.listed = true) (hshows : m'.output.Shows [t'])
    (htop : t'.id = t.id ∧ t'.kind = t.kind) (hshaped : t'.Shaped)
    (hindex : m'.index = m'.output.register m.index q.id) : m'.Stands t' := by
  refine h.of_grown hg hshows htop hshaped fun key i => ?_
  have hkeys : m'.output.indexKeys q.id = q.keys :=
    hshows.indexKeys_of_mem (hg.mem_of_new (by simp))
  rw [hindex, Forest.register, Index.mem_register, hkeys, or_comm]
  refine or_congr_right ?_
  constructor
  · rintro ⟨hkey, rfl⟩
    exact ⟨q, by simp, hq, rfl, hkey⟩
  · rintro ⟨w, hw, hl, rfl, hkey⟩
    rcases List.mem_append.1 hw with hw | hw
    · exact absurd hl (by simp [hW w hw])
    · rw [List.mem_singleton.1 hw] at hkey ⊢
      exact ⟨hkey, rfl⟩

/-- A bare node that is new may be set against any node that is listed. It comes to stand on the
right of a conflict. -/
theorem oppose (h : m.Stands t) {d : Entry} {p : Place} {f : Forest}
    (hf : f.Shows [.node m.output.size d [], t]) (hd : Tree.ShapeAt d.kind [])
    (hp : p ∈ t.places) (hl : p.listed = true) :
    ∃ g t' W i a, ({ m with output := f } : Merger).oppose p.id m.output.size =
        .ok { m with output := g } ∧ g.Shows [t'] ∧
      Sets m.labels f.size p (.node m.output.size d []) t t' ∧
      Grown (W ++ [⟨m.output.size, d, .member, ⟨i, .group, .side .right⟩ :: a⟩])
        t.places t'.places ∧ (∀ w ∈ W, w.listed = false) ∧
      (t'.id = t.id ∧ t'.kind = t.kind) ∧ t'.Shaped := by
  obtain ⟨g, t', hg, hshows, hsets⟩ :=
    oppose_spec (m := { m with output := f }) hf h.shaped h.group hp hl
  obtain ⟨W, i, a, hgrown, hW⟩ := hsets.grown
  refine ⟨g, t', W, i, a, hg, hshows, hsets, ?_, ?_, ?_, ?_⟩
  · simpa [Tree.placesAt, Tree.placesAll] using hgrown
  · intro w hw
    unfold Place.listed
    rcases hW w hw with hk | hk
    · rw [hk]
    · cases hkind : w.kind <;> simp [hkind, Kind.isConflict] at hk ⊢
  · exact hsets.top_eq h.group
  · exact hsets.shaped h.shaped (.node hd (by simp))

end Stands

end Merger

end StubMerge
