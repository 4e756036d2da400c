import StubMerge.Proofs.Merging
import StubMerge.Proofs.Soundness

/-!
# The index of a merge is up to date

A merge registers a node when it is made, under the names that it goes by at that moment. Later the
node may be wrapped in a conflict, moved, or folded with another declaration, and still no entry of
the index has to be changed. `Merger.Reached` holds of every state of a merge: between passes, and
within a pass between any two nodes of the outline (`Merger.moments`).

**Theorem (`index_lists_declarations`).** In every such state whatever the index lists is reached
from the root and goes by the name under which it is listed. Conversely the index lists every
declaration that the root reaches under all names that it goes by, leaf or scope, unless it was set
against another node (`Forest.isSetAgainst`): those it does not list at all.

Every state of a merge stands at a tree (`Merger.Stands`), where the index is compared with the
places of the tree. What is left is to read a slot off the table (`Shows.slot_eq`).
-/

namespace StubMerge

/-! ## Slots in a table -/

namespace Forest

/-- How a node hangs below its parent. -/
def slot (f : Forest) (i : NodeId) : Slot :=
  match f.parent i with
  | none => .member
  | some p => (f.kind p).slot ((f.children p).head? == some i)

/-- Whether a node is a leaf directly in the right side of a conflict, or the right one of two
headers. -/
def isSetAgainst (f : Forest) (i : NodeId) : Bool :=
  match f.kind i with
  | .leaf _ => (f.parent i).map f.slot == some (.side .right)
  | .scope _ => f.slot i == .header .right
  | _ => false

variable {f : Forest} {s t : Tree} {K : Frames} {ts : List Tree} {p : Place}

theorem Shows.slot_eq (h : f.Shows (s.under K :: ts)) : f.slot s.id = Frames.slot K := by
  cases K with
  | nil => rw [slot, h.parent_eq]; rfl
  | cons k K =>
    have hfirst : ((f.children k.id).head? == some s.id) = k.before.isEmpty := by
      rw [Merger.children_frame h]
      cases hb : k.before with
      | nil => simp
      | cons b bs =>
        have hne := h.not_mem_siblings.1
        simp only [hb, List.map_cons, List.mem_cons, not_or] at hne
        simpa using Ne.symm hne.1
    rw [slot, h.parent_eq, Frames.parent_cons]
    simp only [Merger.kind_frame h, hfirst]
    rfl

/-- The index should list a declaration if it was not set against another node. -/
theorem Shows.listed_eq (h : f.Shows (t :: ts)) (hp : p ∈ t.places) {key : String}
    (hkey : key ∈ p.keys) : p.listed = !f.isSetAgainst p.id := by
  have hkind := h.kind_of_mem hp
  obtain ⟨K, s, rfl, rfl⟩ := Tree.mem_places.1 hp
  rw [isSetAgainst, hkind, Place.listed]
  cases hk : (s.placeIn K).kind with
  | leaf l =>
    -- The side is the parent, so its slot is asked for.
    have hparent : (f.parent s.id).map f.slot = (Frames.steps K).head?.map Step.slot := by
      rw [h.parent_eq]
      cases K with
      | nil => rfl
      | cons k K =>
        have hslot := Shows.slot_eq (s := k.fill s) (K := K) h
        exact congrArg some hslot
    rw [show (s.placeIn K).id = s.id from rfl]
    simp only [hparent]
    rfl
  | scope sc =>
    have hslot := h.slot_eq
    rw [show (s.placeIn K).id = s.id from rfl]
    simp only [hslot]
    rfl
  | _ => simp [Place.keys, hk, Kind.keys] at hkey

end Forest

theorem Index.mem_get {index : Index} {key : String} {i : NodeId} :
    i ∈ index.get key ↔ (key, i) ∈ index.entries := by
  simp [Index.get, Index.latest]

namespace Merger

/-! ## The states of a merge -/

mutual
/-- The states of a merge while it visits an outline: the one in which it comes to it, and those in
which it comes to what is below. -/
def momentsIn (m : Merger) (scopes : List NodeId) (path : String) : Outline → List Merger
  | .node e cs => m ::
    match e.kind with
    | .group =>
      let f := m.output.unionComments (currentScope scopes) e.comments
      momentsOf { m with output := f } scopes path cs
    | .scope _ =>
      match m.openScope scopes path e with
      | .ok (m', i) => momentsOf m' (i :: scopes) (e.kind.within path) cs
      | .error _ => []
    | _ => []
/-- The states of a merge while it visits outlines, the one after the last included. -/
def momentsOf (m : Merger) (scopes : List NodeId) (path : String) : List Outline → List Merger
  | [] => [m]
  | c :: cs => momentsIn m scopes path c ++
    match m.visit scopes path c with
    | .ok m' => momentsOf m' scopes path cs
    | .error _ => []
end

/-- The states of a merge while it copies outlines, one after the other. -/
def momentsCopying (m : Merger) : List Outline → List Merger
  | [] => [m]
  | c :: cs => m ::
    match m.copyInto Forest.root c with
    | .ok (m', copy) => momentsCopying (m'.registerTree copy) cs
    | .error _ => []

/-- The states of a merge while it takes in an outline. -/
def moments (m : Merger) (s : Source) : List Merger :=
  let f := m.output.unionComments Forest.root s.root.entry.comments
  let ready : Merger := { m with output := f, started := true }
  if m.started then ready.momentsOf [] s.path s.root.children
  else ready.momentsCopying s.root.children

/-- The states of a merge between passes over outlines without conflicts. -/
inductive Rested (labels : Labels) : Merger → Prop
  | start : Rested labels { labels }
  | add {m m' : Merger} {s : Source} : Rested labels m → s.root.isConflictFree = true →
      m.add s = .ok m' → Rested labels m'

/-- The states of a merge between passes, and within a pass. -/
inductive Reached (labels : Labels) : Merger → Prop
  | between {m : Merger} : Rested labels m → Reached labels m
  | within {m m' : Merger} {s : Source} : Rested labels m → s.root.isConflictFree = true →
      m' ∈ m.moments s → Reached labels m'

variable {labels : Labels} {m m' : Merger} {t : Tree} {scopes : List NodeId}

theorem mem_momentsOf_of_visitAll {path : String} {os : List Outline}
    (h : m.visitAll scopes path os = .ok m') : m' ∈ m.momentsOf scopes path os := by
  induction os generalizing m with
  | nil =>
    obtain rfl := Except.ok.inj h
    simp [momentsOf]
  | cons o os ih =>
    obtain ⟨m₁, hvisit, hrest⟩ := exists_of_bind_eq_ok h
    rw [momentsOf, hvisit]
    exact List.mem_append_right _ (ih hrest)

theorem mem_momentsCopying_of_copyAll {os : List Outline} (h : m.copyAll os = .ok m') :
    m' ∈ m.momentsCopying os := by
  induction os generalizing m with
  | nil =>
    obtain rfl := Except.ok.inj h
    simp [momentsCopying]
  | cons o os ih =>
    obtain ⟨⟨m₁, copy⟩, hcopy, hrest⟩ := exists_of_bind_eq_ok h
    rw [momentsCopying, hcopy]
    exact List.mem_cons_of_mem _ (ih hrest)

/-- What a pass comes to is one of its states. -/
theorem mem_moments_of_add {s : Source} (h : m.add s = .ok m') : m' ∈ m.moments s := by
  rw [Merger.add] at h
  rw [moments]
  split at h
  · next hstarted =>
    rw [if_pos hstarted]
    exact mem_momentsOf_of_visitAll h
  · next hstarted =>
    rw [if_neg hstarted]
    exact mem_momentsCopying_of_copyAll h

/-! ## Every state stands -/

/-- The visit of an outline leads from a state that stands to another. -/
theorem Stands.visit (hm : m.Stands t) (ho : Open t scopes) (path : String) {o : Outline}
    (hfree : o.isConflictFree = true) :
    ∃ m' t', m.visit scopes path o = .ok m' ∧ m'.Stands t' ∧ Open t' scopes := by
  let stack : List Opened := scopes.map (⟨·, path⟩)
  have hscopes : stack.map Opened.id = scopes := by simp [stack, Function.comp_def]
  have hpath : pathIn path stack = path := by
    cases scopes with
    | nil => rfl
    | cons i scopes => rfl
  have hfollows : Follows path (o.declarationsIn path (stack.map Opened.path))
      (o.groupsIn path (stack.map Opened.path)) fun _ _ _ _ => True :=
    ⟨fun _ => trivial, fun _ _ _ _ _ => trivial, fun _ _ _ _ _ _ _ _ => trivial,
      fun _ _ _ _ _ _ _ _ => trivial⟩
  have hall : o.declarationsIn path (stack.map Opened.path) = [].map (Visit.declaration path) ++
      (o.declarationsIn (pathIn path stack) (stack.map Opened.path) ++ []) := by simp [hpath]
  obtain ⟨m', t', hvisit, hm', -, -, ho', -⟩ := hfollows.visit o hfree hm (hscopes.symm ▸ ho)
    trivial hall (by rw [hpath]; exact fun _ h => h)
  rw [hscopes, hpath] at hvisit
  exact ⟨m', t', hvisit, hm', hscopes ▸ ho'⟩

mutual
theorem stands_of_mem_momentsIn : ∀ (o : Outline), o.isConflictFree = true →
    ∀ {m : Merger} {t : Tree} {scopes : List NodeId} (path : String), m.Stands t →
    Open t scopes → ∀ m' ∈ momentsIn m scopes path o, ∃ t', m'.Stands t'
  | .node e cs, hfree, m, t, scopes, path, hm, ho => by
    obtain ⟨-, -, hcs⟩ := Outline.isConflictFree_node.1 hfree
    rw [momentsIn]
    intro m' hm'
    rcases List.mem_cons.1 hm' with rfl | hm'
    · exact ⟨t, hm⟩
    · cases hk : e.kind with
      | group =>
        simp only [hk] at hm'
        obtain ⟨K, c, ds, rfl, -⟩ := hm.exists_current ho
        obtain ⟨hstands, hgrown⟩ := hm.unionComments e.comments
        exact stands_of_mem_momentsOf cs hcs path hstands (ho.grown hgrown) m' hm'
      | scope s =>
        have hscope : e.kind.isScope = true := by rw [hk]; rfl
        obtain ⟨m₁, t₁, i, hopen, hstands, -, -, hcase⟩ := openScope_spec hm ho hscope path
        obtain ⟨N, hgrown⟩ := hcase.grown
        have ho₁ : Open t₁ (i :: scopes) := by
          intro j hj
          rcases List.mem_cons.1 hj with rfl | hj
          · exact hcase.exists_opened hm hscope
          · exact ho.grown hgrown j hj
        simp only [hk, hopen] at hm'
        exact stands_of_mem_momentsOf cs hcs _ hstands ho₁ m' hm'
      | leaf _ | conflict _ | scopeConflict _ => simp [hk] at hm'
theorem stands_of_mem_momentsOf : ∀ (os : List Outline), Outline.areConflictFree os = true →
    ∀ {m : Merger} {t : Tree} {scopes : List NodeId} (path : String), m.Stands t →
    Open t scopes → ∀ m' ∈ momentsOf m scopes path os, ∃ t', m'.Stands t'
  | [], _, m, t, scopes, path, hm, ho => by
    rw [momentsOf]
    intro m' hm'
    obtain rfl := List.mem_singleton.1 hm'
    exact ⟨t, hm⟩
  | o :: os, hfree, m, t, scopes, path, hm, ho => by
    obtain ⟨hfree₁, hfree₂⟩ := Outline.areConflictFree_cons.1 hfree
    obtain ⟨m₁, t₁, hvisit, hm₁, ho₁⟩ := hm.visit ho path hfree₁
    rw [momentsOf, hvisit]
    intro m' hm'
    rcases List.mem_append.1 hm' with hm' | hm'
    · exact stands_of_mem_momentsIn o hfree₁ path hm ho m' hm'
    · exact stands_of_mem_momentsOf os hfree₂ path hm₁ ho₁ m' hm'
end

theorem stands_of_mem_momentsCopying (os : List Outline) (hos : Outline.areConflictFree os = true)
    {e : Entry} {cs : List Tree} (h : m.Stands (.node Forest.root e cs)) :
    ∀ m' ∈ m.momentsCopying os, ∃ t', m'.Stands t' := by
  induction os generalizing m cs with
  | nil =>
    intro m' hm'
    obtain rfl := List.mem_singleton.1 hm'
    exact ⟨_, h⟩
  | cons o os ih =>
    obtain ⟨ho, hos⟩ := Outline.areConflictFree_cons.1 hos
    have hgroup : e.kind = .group := h.group
    obtain ⟨f, hf, -, hstands⟩ := h.copyInto (K := []) ho (by rw [hgroup]; rfl)
      (by rw [hgroup]; rfl) (.inl rfl)
    rw [momentsCopying, hf]
    intro m' hm'
    rcases List.mem_cons.1 hm' with rfl | hm'
    · exact ⟨_, h⟩
    · exact ih hos hstands m' hm'

/-- Taking in the comments of an outline, a merge is ready for its nodes. -/
theorem Stands.ready (hm : m.Stands t) (xs : List String) :
    ∃ e, ({ m with output := m.output.unionComments Forest.root xs, started := true } :
      Merger).Stands (.node Forest.root e t.children) := by
  obtain ⟨i, e, cs⟩ := t
  obtain rfl : i = Forest.root := hm.top
  obtain ⟨hstands, -⟩ := hm.unionComments (K := []) xs
  exact ⟨_, hstands.shows, hstands.top, hstands.group, hstands.shaped, hstands.index⟩

theorem Stands.of_mem_moments (hm : m.Stands t) {s : Source} (hs : s.root.isConflictFree = true) :
    ∀ m' ∈ m.moments s, ∃ t', m'.Stands t' := by
  obtain ⟨⟨d, os⟩, path⟩ := s
  obtain ⟨-, -, hos⟩ := Outline.isConflictFree_node.1 hs
  obtain ⟨e, hready⟩ := hm.ready d.comments
  rw [moments]
  split
  · exact stands_of_mem_momentsOf os hos path hready fun _ h => by cases h
  · exact stands_of_mem_momentsCopying os hos hready

theorem Rested.stands (h : Rested labels m) : ∃ t, m.Stands t := by
  induction h with
  | start => exact ⟨_, stands_start labels⟩
  | add _ hs hadd ih =>
    obtain ⟨t, hm⟩ := ih
    exact hm.of_mem_moments hs _ (mem_moments_of_add hadd)

theorem Reached.stands (h : Reached labels m) : ∃ t, m.Stands t := by
  cases h with
  | between h => exact h.stands
  | within h hs hm =>
    obtain ⟨t, ht⟩ := h.stands
    exact ht.of_mem_moments hs _ hm

end Merger

/-- The index lists what the root reaches under the names that it goes by now, except for what was
set against another node, which it does not list at all. -/
theorem index_lists_declarations {labels : Labels} {m : Merger} (h : m.Reached labels) :
    (∀ key, ∀ i ∈ m.index.get key,
      i ∈ m.output.descendants Forest.root ∧ key ∈ m.output.indexKeys i) ∧
    ∀ i ∈ m.output.descendants Forest.root,
      (m.output.isSetAgainst i = false → ∀ key ∈ m.output.indexKeys i, i ∈ m.index.get key) ∧
      (m.output.isSetAgainst i = true → ∀ key, i ∉ m.index.get key) := by
  obtain ⟨t, ht⟩ := h.stands
  have hreached : ∀ {i}, i ∈ m.output.descendants Forest.root → ∃ p ∈ t.places, p.id = i := by
    intro i hi
    have hmem := List.mem_cons_of_mem Forest.root hi
    rw [ht.shows.reached_eq ht.top] at hmem
    exact List.mem_map.1 hmem
  refine ⟨fun key i hi => ?_, fun i hi => ?_⟩
  · obtain ⟨p, hp, hl, rfl, hkey⟩ := (ht.index key i).1 (Index.mem_get.1 hi)
    refine ⟨?_, by rwa [ht.shows.indexKeys_of_mem hp]⟩
    have hmem : p.id ∈ Forest.root :: m.output.descendants Forest.root := by
      rw [ht.shows.reached_eq ht.top]
      exact List.mem_map_of_mem hp
    -- The root is a group, and groups are not listed.
    refine (List.mem_cons.1 hmem).resolve_left fun hroot => ?_
    obtain rfl := ht.shows.eq_of_id hp (t.placeIn_mem_places []) (hroot.trans ht.top.symm)
    have hgroup : (t.placeIn []).kind = .group := ht.group
    simp [Place.listed, hgroup] at hl
  · obtain ⟨p, hp, rfl⟩ := hreached hi
    rw [ht.shows.indexKeys_of_mem hp]
    refine ⟨fun hset key hkey => ?_, fun hset key hget => ?_⟩
    · refine Index.mem_get.2 ((ht.index key p.id).2 ⟨p, hp, ?_, rfl, hkey⟩)
      rw [ht.shows.listed_eq hp hkey, hset]
      rfl
    · obtain ⟨q, hq, hl, hid, hkey⟩ := (ht.index key p.id).1 (Index.mem_get.1 hget)
      obtain rfl := ht.shows.eq_of_id hq hp hid
      rw [ht.shows.listed_eq hq hkey, hset] at hl
      cases hl

/-- The cars, between any two nodes of the second pass. At its end two declarations go by the name
`Car`, and of these the header that was set against the other is not listed. -/
theorem index_lists_cars :
    ∃ m₁, Merger.add { labels := ⟨"old", "new"⟩ } { root := oldCars } = .ok m₁ ∧
      (m₁.moments { root := newCars }).map (fun m => (m.index.get "Car", m.index.get "VERSION",
          m.output.isSetAgainst 8)) =
        ([1], [6], false) :: List.replicate 6 ([1], [6], true) ++
          List.replicate 3 ([1], [6, 18], true) ∧
      ∀ m ∈ m₁.moments { root := newCars },
        (∀ key, ∀ i ∈ m.index.get key,
          i ∈ m.output.descendants Forest.root ∧ key ∈ m.output.indexKeys i) ∧
        ∀ i ∈ m.output.descendants Forest.root,
          (m.output.isSetAgainst i = false →
            ∀ key ∈ m.output.indexKeys i, i ∈ m.index.get key) ∧
          (m.output.isSetAgainst i = true → ∀ key, i ∉ m.index.get key) := by
  obtain ⟨m₁, hadd, -⟩ := Merger.add_first ⟨"old", "new"⟩ (s := { root := oldCars }) (by decide)
  have hcheck : (Merger.add { labels := ⟨"old", "new"⟩ } { root := oldCars }).map (fun m₁ =>
      (m₁.moments { root := newCars }).map fun m => (m.index.get "Car", m.index.get "VERSION",
        m.output.isSetAgainst 8)) =
      .ok (([1], [6], false) :: List.replicate 6 ([1], [6], true) ++
        List.replicate 3 ([1], [6, 18], true)) := by
    decide +kernel
  rw [hadd] at hcheck
  refine ⟨m₁, hadd, Except.ok.inj hcheck, fun m hm => ?_⟩
  exact index_lists_declarations (.within (.add .start (by decide) hadd) (by decide) hm)

end StubMerge
