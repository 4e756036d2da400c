import StubMerge.Proofs.LeftSide
import StubMerge.Proofs.Merging

/-!
# Passes only extend the output

Whatever a merge has put out stays, at its place: `Forest.Extends` says so of two forests, node by
node. Every pass after the first extends the output, since all that it does is growth
(`extends_of_grown`).

What came from the first outline grew out of places that no conflict was near to. So it is still on
the left of every conflict, and resolving to the left leaves it as it was, up to additions
(`Forest.Retains`, `retains_of_grown`).
-/

namespace StubMerge

namespace Forest

/-- `g` extends `f`: all that the root of `f` reaches is still there, in the same order and in the
same scopes, and nothing but conflicts and groups has come in above it. What a node says is only
added to. -/
structure Extends (f g : Forest) : Prop where
  order : (root :: f.descendants root).Sublist (root :: g.descendants root)
  scopes : ∀ n ∈ root :: f.descendants root,
    (g.ancestors n).filter (fun a => (g.kind a).isScope) =
      (f.ancestors n).filter (fun a => (f.kind a).isScope)
  above : ∀ n ∈ root :: f.descendants root, (f.ancestors n).Sublist (g.ancestors n) ∧
    ∀ a ∈ g.ancestors n, a ∉ f.ancestors n → g.kind a = .group ∨ (g.kind a).isConflict = true
  entry : ∀ n ∈ root :: f.descendants root, (f.entry n).GrowsTo (g.entry n)

variable {f g : Forest} {t t' : Tree} {ts ts' : List Tree}

/-- A tree that grows extends what is reached. -/
theorem extends_of_grown (hf : f.Shows (t :: ts)) (hg : g.Shows (t' :: ts')) (ht : t.id = root)
    (ht' : t'.id = root) {N : List Place} (h : Grown N t.places t'.places) : f.Extends g := by
  -- Every node has its place before and after.
  have hplace : ∀ n ∈ root :: f.descendants root,
      ∃ p ∈ t.places, ∃ q ∈ t'.places, p.id = n ∧ q.id = n ∧ p.Kept q := by
    intro n hn
    rw [hf.reached_eq ht] at hn
    obtain ⟨p, hp, rfl⟩ := List.mem_map.1 hn
    obtain ⟨q, hq, hk⟩ := h.exists_kept hp
    exact ⟨p, hp, q, hq, rfl, hk.id_eq, hk⟩
  refine ⟨?_, fun n hn => ?_, fun n hn => ?_, fun n hn => ?_⟩
  · rw [hf.reached_eq ht, hg.reached_eq ht']
    exact h.sublist_ids
  · obtain ⟨p, hp, q, hq, rfl, hid, hk⟩ := hplace n hn
    have hscopes : g.scopesAbove q.id = f.scopesAbove p.id := by
      rw [hg.scopesAbove_of_mem hq, hf.scopesAbove_of_mem hp, hk.above.scopes_eq]
    rwa [hid] at hscopes
  · obtain ⟨p, hp, q, hq, rfl, hid, hk⟩ := hplace n hn
    rw [hf.ancestors_of_mem hp, ← hid, hg.ancestors_of_mem hq]
    refine ⟨hk.above.sublist_ids, fun a ha hna => ?_⟩
    obtain ⟨st, hst, rfl⟩ := List.mem_map.1 ha
    rw [hg.kind_of_step hq hst]
    rcases hk.above.mem_cases hst with hold | hwrap
    · exact absurd hold hna
    · cases hwrap with
      | side => exact .inl rfl
      | conflict | headers => exact .inr rfl
  · obtain ⟨p, hp, q, hq, rfl, hid, hk⟩ := hplace n hn
    rw [hf.entry_of_mem hp, ← hid, hg.entry_of_mem hq]
    exact hk.entry

end Forest

namespace Merger

variable {m : Merger} {t : Tree}

/-- A tree that grows is kept by every pass. -/
theorem keeps_grown (P : List Place) (base : String) (all : List Declaration) :
    Keeps base all fun _ t _ _ => ∃ N, Grown N P t.places where
  close h := h
  comments xs _ hm hi := by
    obtain ⟨N, hN⟩ := hi
    exact hN.trans (hm.unionComments xs).2
  leaf _ _ _ _ hi _ _ hcase := by
    obtain ⟨N, hN⟩ := hi
    obtain ⟨M, hM⟩ := hcase.grown
    exact hN.trans hM
  scope _ _ _ _ hi _ _ hcase := by
    obtain ⟨N, hN⟩ := hi
    obtain ⟨M, hM⟩ := hcase.grown
    exact hN.trans hM

/-- A pass after the first one does not fail, and the tree grows. -/
theorem add_grown {s : Source} (hm : m.Stands t) (hstarted : m.started = true)
    (hs : s.root.isConflictFree = true) :
    ∃ m' t' N, m.add s = .ok m' ∧ m'.Stands t' ∧ m'.started = true ∧
      Grown N t.places t'.places := by
  obtain ⟨m', t', hadd, hm', -, hstarted', N, hN⟩ :=
    (keeps_grown t.places s.path s.declarations).add hs hm hstarted ⟨[], .refl _⟩
  exact ⟨m', t', N, hadd, hm', hstarted', hN⟩

/-- The first pass and all later ones can be made. -/
theorem exists_foldlM_add (labels : Labels) {ss : List Source}
    (hss : ∀ s ∈ ss, s.root.isConflictFree = true) :
    ∃ m t, ss.foldlM Merger.add { labels } = .ok m ∧ m.Stands t ∧
      (ss ≠ [] → m.started = true) := by
  obtain ⟨m, t, hfold, hm, hstarted, -⟩ := exists_foldlM_keeps labels (keeps_grown [])
    ⟨_, .new _⟩ (fun _ _ => ⟨_, .new _⟩) hss
  exact ⟨m, t, hfold, hm, hstarted⟩

/-! ## What resolving to the left leaves -/

/-- In the tree of the first pass all places are quiet. -/
theorem quiet_firstTree {s : Source} (hs : s.root.isConflictFree = true) :
    ∀ p ∈ (firstTree s).places, p.Quiet := by
  obtain ⟨⟨e, cs⟩, path⟩ := s
  obtain ⟨-, -, hcs⟩ := Outline.isConflictFree_node.1 hs
  intro p hp
  rw [firstTree, Tree.places, Tree.placesAt] at hp
  rcases List.mem_cons.1 hp with rfl | hp
  · exact ⟨rfl, rfl, by simp⟩
  · exact Outline.quiet_numberAll cs 1 _ true rfl hcs (by simp) p hp

end Merger

/-- Wrapping adds wrappers on the left and nothing else. -/
theorem Wrapped.filter_wrappers {a b : List Step} (h : Wrapped a b)
    (ha : ∀ st ∈ a, st.slot = .member ∧ st.kind.isConflict = false) :
    (b.filter fun st => !st.isWrapper).map Step.id = a.map Step.id ∧
      ∀ st ∈ b, st.slot.isRight = false := by
  induction h with
  | nil => exact ⟨rfl, by simp⟩
  | @keep st a b _ ih =>
    obtain ⟨hids, hslots⟩ := ih fun x hx => ha x (by simp [hx])
    obtain ⟨hslot, hkind⟩ := ha st (by simp)
    have hst : st.isWrapper = false := by simp [Step.isWrapper, hkind, hslot]
    refine ⟨by simp [hst, hids], List.forall_mem_cons.2 ⟨by rw [hslot]; rfl, hslots⟩⟩
  | @left i s a b _ ih =>
    obtain ⟨hids, hslots⟩ := ih fun x hx => ha x (by simp [hx])
    have hst : Step.isWrapper ⟨i, .scope s, .header .left⟩ = false := rfl
    refine ⟨by simp [hst, hids], List.forall_mem_cons.2 ⟨rfl, hslots⟩⟩
  | @wrap st a b hw _ ih =>
    obtain ⟨hids, hslots⟩ := ih ha
    have hst : st.isWrapper = true ∧ st.slot.isRight = false := by
      cases hw <;> exact ⟨rfl, rfl⟩
    refine ⟨by simp [hst.1, hids], List.forall_mem_cons.2 ⟨hst.2, hslots⟩⟩

/-- A place in a quiet tree comes to stand on the left, and with the conflicts resolved it is
below the same nodes as at first. -/
theorem Place.Kept.left_of_quiet {t : Tree} {p q : Place} (ht : ∀ p ∈ t.places, p.Quiet)
    (hp : p ∈ t.places) (h : p.Kept q) :
    q.onLeft = true ∧ q.step.isWrapper = false ∧
      q.left? = some (p.id, q.entry, p.above.map Step.id) := by
  have habove : ∀ st ∈ p.above, st.slot = .member ∧ st.kind.isConflict = false := by
    intro st hst
    obtain ⟨r, hr, rfl⟩ := Tree.exists_place_of_step hp hst
    exact ⟨(ht r hr).slot, (ht r hr).kind⟩
  obtain ⟨hids, hslots⟩ := h.above.filter_wrappers habove
  have hslot : q.slot = .member ∨ q.slot = .header .left := by
    rcases h.slot with hs | ⟨-, -, hs⟩
    · exact .inl (hs.trans (ht p hp).slot)
    · exact .inr hs
  have hkind : q.kind.isConflict = false := by
    have hp' := (ht p hp).kind
    have hgrows := h.kind
    generalize p.kind = k, q.kind = k' at hp' hgrows
    cases hgrows with
    | same => exact hp'
    | _ => rfl
  obtain ⟨j, e, slot, a⟩ := q
  have hright : slot.isRight = false := by
    rcases hslot with hs | hs <;> rw [show slot = _ from hs] <;> rfl
  have hstep : Step.isWrapper ⟨j, e.kind, slot⟩ = false := by
    rcases hslot with hs | hs <;> simp [Step.isWrapper, show slot = _ from hs,
      show e.kind.isConflict = false from hkind]
  refine ⟨by simpa [Place.onLeft, hright] using hslots, hstep, ?_⟩
  rw [Place.left?_eq_some hright hslots hstep, hids, show j = p.id from h.id_eq]

theorem filter_mem_of_sublist {xs ys : List NodeId} (h : xs.Sublist ys) (hy : ys.Nodup) :
    ys.filter (fun i => xs.contains i) = xs := by
  induction h with
  | slnil => rfl
  | @cons xs ys y hsub ih =>
    obtain ⟨hny, hy⟩ := List.nodup_cons.1 hy
    have hnx : y ∉ xs := fun hx => hny (hsub.subset hx)
    rw [List.filter_cons_of_neg (by simpa using hnx), ih hy]
  | @cons_cons xs ys y hsub ih =>
    obtain ⟨hny, hy⟩ := List.nodup_cons.1 hy
    rw [List.filter_cons_of_pos (by simp)]
    refine congrArg (y :: ·) (Eq.trans (List.filter_congr fun i hi => ?_) (ih hy))
    have hne : i ≠ y := fun he => hny (he ▸ hi)
    simp [hne]

/-- Of what grew out of a quiet tree, resolving to the left leaves the old places in order. -/
theorem Grown.sublist_left {t : Tree} (ht : ∀ p ∈ t.places, p.Quiet) {N P Q : List Place}
    (h : Grown N P Q) (hP : ∀ p ∈ P, p ∈ t.places) :
    (P.map Place.id).Sublist ((Q.filterMap Place.left?).map Prod.fst) := by
  induction h with
  | nil => exact .slnil
  | keep hk _ ih =>
    have hleft := (hk.left_of_quiet ht (hP _ (by simp))).2.2
    rw [List.filterMap_cons, hleft, List.map_cons, List.map_cons]
    exact (ih fun p hp => hP p (by simp [hp])).cons_cons _
  | @add q N P Q _ ih =>
    have hsub := ih hP
    rw [List.filterMap_cons]
    cases q.left? with
    | none => exact hsub
    | some v => exact hsub.cons _

namespace Forest

/-- `g` has the nodes of `f` below its root in the same order, each below the same nodes, and what
they say was only added to. -/
structure Retains (f g : Forest) : Prop where
  order : (g.descendants root).filter (fun n => (f.descendants root).contains n) =
    f.descendants root
  nesting : ∀ n ∈ f.descendants root, g.ancestors n = f.ancestors n
  entry : ∀ n ∈ f.descendants root, (f.entry n).GrowsTo (g.entry n)

/-- A node is not on the right of a conflict, nor is anything above it. -/
def OnLeft (f : Forest) (n : NodeId) : Prop :=
  ∀ a ∈ n :: f.ancestors n, ∀ c, f.parent a = some c → (f.kind c).isConflict = true →
    (f.children c).head? = some a

variable {f g : Forest} {t t' : Tree} {ts ts' : List Tree}

theorem Shows.onLeft_of_mem (h : f.Shows (t :: ts)) {p : Place} (hp : p ∈ t.places)
    (hleft : p.onLeft = true) : f.OnLeft p.id := by
  obtain ⟨K, s, rfl, rfl⟩ := Tree.mem_places.1 hp
  have hslots : (Frames.slot K).isRight = false ∧
      ∀ st ∈ Frames.steps K, st.slot.isRight = false := by
    simpa [Place.onLeft, Tree.placeIn] using hleft
  clear hp hleft
  show f.OnLeft s.id
  unfold OnLeft
  rw [h.ancestors_eq]
  induction K generalizing s with
  | nil =>
    intro a ha c hc
    obtain rfl := List.mem_singleton.1 ha
    rw [h.parent_eq] at hc
    cases hc
  | cons k K ih =>
    intro a ha c hc hconf
    rcases List.mem_cons.1 ha with rfl | ha
    · rw [h.parent_eq, Frames.parent_cons] at hc
      obtain rfl := Option.some.inj hc
      rw [Merger.kind_frame h] at hconf
      rw [Merger.children_frame h]
      have hfirst : k.before = [] := by
        have hslot := hslots.1
        rw [Frames.slot] at hslot
        cases hb : k.before with
        | nil => rfl
        | cons x xs =>
          cases hk : k.entry.kind <;>
            simp [hk, hb, Kind.slot, Slot.isRight, Kind.isConflict] at hslot hconf
      rw [hfirst]
      rfl
    · refine ih (k.fill s) h ⟨hslots.2 _ List.mem_cons_self, fun st hst => ?_⟩ a ha c hc hconf
      exact hslots.2 st (List.mem_cons_of_mem _ hst)

/-- Resolving to the left what grew out of a quiet tree leaves that tree, up to additions. -/
theorem retains_of_grown (hf : f.Shows (t :: ts)) (ht : t.id = root)
    (hquiet : ∀ p ∈ t.places, p.Quiet) {N : List Place} (h : Grown N t.places t'.places)
    (ht' : t'.kind = .group) (hid : t'.id = root) (hpaired : t'.Paired)
    (hg : g.Shows (.node root t'.entry (Tree.settledAll .left t'.children) :: ts')) :
    f.Retains g := by
  have hviews : (Tree.node root t'.entry (Tree.settledAll .left t'.children)).places.map
      Place.view = t'.places.filterMap Place.left? := by
    obtain ⟨i, e, cs⟩ := t'
    obtain rfl : i = root := hid
    have hkind : e.kind = .group := ht'
    exact Tree.places_settled_left hpaired (by simp [hkind, Kind.isConflict])
  -- Each old node has its place in what is left.
  have hplace : ∀ n ∈ f.descendants root, ∃ p ∈ t.places, p.id = n ∧
      g.ancestors n = p.above.map Step.id ∧ p.entry.GrowsTo (g.entry n) := by
    intro n hn
    have hn' := List.mem_cons_of_mem root hn
    rw [hf.reached_eq ht] at hn'
    obtain ⟨p, hp, rfl⟩ := List.mem_map.1 hn'
    obtain ⟨q, hq, hk⟩ := h.exists_kept hp
    have hleft := (hk.left_of_quiet hquiet hp).2.2
    have hmem : (p.id, q.entry, p.above.map Step.id) ∈ t'.places.filterMap Place.left? :=
      List.mem_filterMap.2 ⟨q, hq, hleft⟩
    rw [← hviews] at hmem
    obtain ⟨w, hw, hview⟩ := List.mem_map.1 hmem
    obtain ⟨hwid, hrest⟩ := Prod.mk.inj hview
    obtain ⟨hwentry, hwabove⟩ := Prod.mk.inj hrest
    refine ⟨p, hp, rfl, ?_, ?_⟩
    · rw [← hwid, hg.ancestors_of_mem hw, hwabove]
    · rw [← hwid, hg.entry_of_mem hw, hwentry]
      exact hk.entry
  refine ⟨?_, fun n hn => ?_, fun n hn => ?_⟩
  · have hsub := h.sublist_left hquiet fun p hp => hp
    rw [← hviews, List.map_map, show Prod.fst ∘ Place.view = Place.id from rfl,
      ← hf.reached_eq ht, ← hg.reached_eq rfl] at hsub
    have hnodup : (root :: g.descendants root).Nodup := by
      rw [hg.reached_eq rfl, Tree.map_id_places]
      exact hg.nodup_ids
    exact filter_mem_of_sublist (List.cons_sublist_cons.1 hsub) (List.nodup_cons.1 hnodup).2
  · obtain ⟨p, hp, rfl, habove, -⟩ := hplace n hn
    rw [habove, hf.ancestors_of_mem hp]
  · obtain ⟨p, hp, rfl, -, hentry⟩ := hplace n hn
    rw [hf.entry_of_mem hp]
    exact hentry

end Forest

/-- **Passes only extend the output.** Any number of outlines without conflicts can be merged, and
every pass after the first one extends what is there. So of a merge of two outlines, resolved to
the left, the nodes that came from the first are those of the first, and in the merge itself none
of them is on the right of a conflict. -/
theorem add_extends_output (labels : Labels) :
    (∀ (ss : List Source) (s : Source), ss ≠ [] →
      (∀ r ∈ s :: ss, r.root.isConflictFree = true) →
      ∃ m m', ss.foldlM Merger.add { labels } = .ok m ∧ m.add s = .ok m' ∧
        m.output.Extends m'.output) ∧
    ∀ left right : Source, left.root.isConflictFree = true → right.root.isConflictFree = true →
      ∃ m res g, Merger.add { labels } left = .ok m ∧
        (m.output.outline Forest.root).children = left.root.children ∧
        merge labels left right = .ok res ∧ res.forest.resolve .left = .ok g ∧
        m.output.Retains g ∧ ∀ n ∈ m.output.descendants Forest.root, res.forest.OnLeft n := by
  constructor
  · intro ss s hss hfree
    obtain ⟨m, t, hfold, hm, hstarted⟩ :=
      Merger.exists_foldlM_add labels fun r hr => hfree r (List.mem_cons_of_mem s hr)
    obtain ⟨m', t', N, hadd, hm', -, hgrown⟩ :=
      Merger.add_grown hm (hstarted hss) (hfree s List.mem_cons_self)
    exact ⟨m, m', hfold, hadd, Forest.extends_of_grown hm.shows hm'.shows hm.top hm'.top hgrown⟩
  · intro left right hl hr
    have hquiet := Merger.quiet_firstTree hl
    obtain ⟨m₁, m, t, g, t', hadd, hm₁, hm, -, ⟨N, hgrown⟩, hmerge, hshows, -, hall⟩ :=
      (Merger.keeps_grown (Merger.firstTree left).places right.path right.declarations).merge
        labels hl hr fun _ _ _ _ => ⟨[], .refl _⟩
    obtain ⟨r, us, hresolve, hres⟩ := hm.resolve hall hshows .left
    refine ⟨m₁, _, r, hadd, ?_, hmerge, hresolve, ?_, fun n hn => ?_⟩
    · have houtline : m₁.output.outline Forest.root = (Merger.firstTree left).outline :=
        Forest.Shows.outline_eq (s := Merger.firstTree left) (K := []) hm₁.shows
      rw [houtline]
      exact Tree.outlineAll_numberAll _ _
    · exact Forest.retains_of_grown hm₁.shows rfl hquiet hgrown hm.group hm.top hm.shaped.paired
        hres
    · -- The place of the node is kept, then moved with all its slots.
      have hn' := List.mem_cons_of_mem Forest.root hn
      rw [hm₁.shows.reached_eq rfl] at hn'
      obtain ⟨p, hp, rfl⟩ := List.mem_map.1 hn'
      obtain ⟨q, hq, hk⟩ := hgrown.exists_kept hp
      obtain ⟨honleft, hwrapper, -⟩ := hk.left_of_quiet hquiet hp
      obtain ⟨w, hw, hmoved⟩ := Tree.AbsorbsAll.exists_moved hall hm.shaped.paired hq hwrapper
      rw [← hk.id_eq, ← hmoved.id_eq]
      exact hshows.onLeft_of_mem hw (hmoved.onLeft_eq.trans honleft)

/-- The cars: three passes, and the merge of two outlines. -/
theorem add_extends_cars :
    (∃ m m', [{ root := oldCars }, { root := newCars }].foldlM Merger.add
        { labels := ⟨"old", "new"⟩ } = .ok m ∧ m.add { root := oldCars } = .ok m' ∧
      m.output.Extends m'.output) ∧
    ∃ m res g, Merger.add { labels := ⟨"old", "new"⟩ } { root := oldCars } = .ok m ∧
      (m.output.outline Forest.root).children = oldCars.children ∧
      merge ⟨"old", "new"⟩ { root := oldCars } { root := newCars } = .ok res ∧
      res.forest.resolve .left = .ok g ∧ m.output.Retains g ∧
      ∀ n ∈ m.output.descendants Forest.root, res.forest.OnLeft n :=
  ⟨(add_extends_output _).1 _ _ (by simp) (by decide),
    (add_extends_output _).2 _ _ rfl rfl⟩

end StubMerge
