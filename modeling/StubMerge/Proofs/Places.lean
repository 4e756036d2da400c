import StubMerge.Forest.Index
import StubMerge.Merge.Settle
import StubMerge.Proofs.Table

/-!
# Places in a tree

A *place* is a node together with all that stands above it. Whatever a merge asks about a node
depends on its place: the names under which it can be found, whether the index should list it,
and on which side of which conflicts it is. `Tree.places` lists the places of a tree, parents
before children, so a statement about all nodes is a statement about one list.

Above a node stand *steps*: numbers, kinds, and the *slot* that each node fills below its parent.
A node is a member of what is above it, or one of the two sides of a conflict, or one of the two
headers of a conflict between headers.
-/

namespace StubMerge

/-- How a node hangs below its parent. -/
inductive Slot where
  | member
  | side (side : Side)
  | header (side : Side)
deriving DecidableEq

/-- The slot of a child: the first child of a conflict is on its left. -/
def Kind.slot (first : Bool) : Kind → Slot
  | conflict _ => .side (if first then .left else .right)
  | scopeConflict _ => .header (if first then .left else .right)
  | _ => .member

/-- What is not below a conflict is a member. -/
theorem Kind.slot_eq_member {kind : Kind} (h : kind.isConflict = false) (first : Bool) :
    kind.slot first = .member := by
  cases kind <;> simp [Kind.isConflict, Kind.slot] at h ⊢

/-- A node on the way up from another. -/
structure Step where
  id : NodeId
  kind : Kind
  slot : Slot

/-- Whether a node is there for a conflict only: it is a conflict, or one of its sides. -/
def Step.isWrapper (st : Step) : Bool :=
  st.kind.isConflict || match st.slot with
    | .side _ => true
    | _ => false

/-- The path of the scope that steps lead into. -/
def pathAlong (above : List Step) : String := above.foldr (fun st path => st.kind.within path) ""

theorem Kind.within_of_not_scope {k : Kind} (h : k.isScope = false) (path : String) :
    k.within path = path := by
  cases k with
  | scope s => cases h
  | _ => rfl

/-- Only scopes add to the path. -/
theorem pathAlong_filter (above : List Step) :
    pathAlong (above.filter fun st => st.kind.isScope) = pathAlong above := by
  induction above with
  | nil => rfl
  | cons st above ih =>
    have hcons : pathAlong (st :: above) = st.kind.within (pathAlong above) := rfl
    by_cases hs : st.kind.isScope = true
    · rw [List.filter_cons, if_pos hs, hcons, ← ih]
      rfl
    · rw [List.filter_cons, if_neg hs, hcons, ih, Kind.within_of_not_scope (by simpa using hs)]

/-- The nearest scope that steps lead into; the root if they lead into none. -/
def scopeAlong (above : List Step) : NodeId :=
  ((above.filter fun st => st.kind.isScope).map Step.id).headD Forest.root

/-- A node with all that stands above it, the nearest first. -/
structure Place where
  id : NodeId
  entry : Entry
  slot : Slot
  above : List Step

namespace Place

/-- What stands at a place. -/
def kind (p : Place) : Kind := p.entry.kind

/-- A place on the way up from another. -/
def step (p : Place) : Step := ⟨p.id, p.kind, p.slot⟩

/-- The path of the scope that a place is in. -/
def path (p : Place) : String := p.above.foldr (fun st path => st.kind.within path) ""

/-- The scope that a place is in. -/
def scope (p : Place) : NodeId := scopeAlong p.above

/-- What is in the same scopes has the same path. -/
theorem path_eq_of_scopes {p q : Place}
    (h : q.above.filter (fun st => st.kind.isScope) = p.above.filter fun st => st.kind.isScope) :
    q.path = p.path :=
  calc q.path = pathAlong (q.above.filter fun st => st.kind.isScope) := (pathAlong_filter _).symm
    _ = pathAlong (p.above.filter fun st => st.kind.isScope) := by rw [h]
    _ = p.path := pathAlong_filter _

/-- The names under which a place can be found. -/
def keys (p : Place) : List String := p.kind.keys p.path

/-- Whether the index should list a place. Leaves that were set against another node are not
listed, nor are headers that were set against another header. -/
def listed (p : Place) : Bool :=
  match p.kind with
  | .leaf _ => p.above.head?.map Step.slot != some (.side .right)
  | .scope _ => p.slot != .header .right
  | _ => false

end Place

/-! ## The places of a tree -/

namespace Tree

mutual
/-- The places of a tree that fills a slot below `above`, parents before children. -/
def placesAt (slot : Slot) (above : List Step) : Tree → List Place
  | node i e cs => ⟨i, e, slot, above⟩ :: placesAll e.kind true (⟨i, e.kind, slot⟩ :: above) cs
/-- The places of trees that stand one behind the other below a node of some kind. -/
def placesAll (kind : Kind) (first : Bool) (above : List Step) : List Tree → List Place
  | [] => []
  | c :: cs => c.placesAt (kind.slot first) above ++ placesAll kind false above cs
end

/-- The places of a whole tree. -/
def places (t : Tree) : List Place := t.placesAt .member []

theorem placesAll_append (kind : Kind) (first : Bool) (above : List Step) (cs ds : List Tree) :
    placesAll kind first above (cs ++ ds) =
      placesAll kind first above cs ++ placesAll kind (first && cs.isEmpty) above ds := by
  induction cs generalizing first with
  | nil => simp [placesAll]
  | cons c cs ih => simp [placesAll, ih]

/-- A child other than the first fills a slot that does not depend on its place. -/
theorem placesAll_cons (kind : Kind) (first : Bool) (above : List Step) (c : Tree)
    (cs : List Tree) : placesAll kind first above (c :: cs) =
      c.placesAt (kind.slot first) above ++ placesAll kind false above cs := by
  rw [placesAll]

/-- The places of a conflict: its own, and on each side that of the side before those in it. -/
theorem placesAt_conflict {c l r : NodeId} {d dl dr : Entry} {lb : Labels} {ls rs : List Tree}
    {slot : Slot} {a : List Step} (hd : d.kind = .conflict lb) (hl : dl.kind = .group)
    (hr : dr.kind = .group) :
    (node c d [node l dl ls, node r dr rs]).placesAt slot a =
      ⟨c, d, slot, a⟩ :: ⟨l, dl, .side .left, ⟨c, .conflict lb, slot⟩ :: a⟩ ::
      (placesAll .group true (⟨l, .group, .side .left⟩ :: ⟨c, .conflict lb, slot⟩ :: a) ls ++
      ⟨r, dr, .side .right, ⟨c, .conflict lb, slot⟩ :: a⟩ ::
      placesAll .group true (⟨r, .group, .side .right⟩ :: ⟨c, .conflict lb, slot⟩ :: a) rs) := by
  simp [placesAt, placesAll, hd, hl, hr, Kind.slot]

/-- The places of a conflict between headers: its own, and those of each header and its body. -/
theorem placesAt_headers {c l r : NodeId} {d dl dr : Entry} {lb : Labels} {ls rs : List Tree}
    {slot : Slot} {a : List Step} (hd : d.kind = .scopeConflict lb) :
    (node c d [node l dl ls, node r dr rs]).placesAt slot a =
      ⟨c, d, slot, a⟩ :: ⟨l, dl, .header .left, ⟨c, .scopeConflict lb, slot⟩ :: a⟩ ::
      (placesAll dl.kind true (⟨l, dl.kind, .header .left⟩ :: ⟨c, .scopeConflict lb, slot⟩ :: a)
        ls ++ ⟨r, dr, .header .right, ⟨c, .scopeConflict lb, slot⟩ :: a⟩ ::
      placesAll dr.kind true (⟨r, dr.kind, .header .right⟩ :: ⟨c, .scopeConflict lb, slot⟩ :: a)
        rs) := by
  simp [placesAt, placesAll, hd, Kind.slot]

theorem map_id_placesAt (t : Tree) (slot : Slot) (above : List Step) :
    (t.placesAt slot above).map Place.id = t.ids := by
  induction t using induct generalizing slot above with
  | step i e cs ih =>
    have hcs : ∀ ds, (∀ d ∈ ds, d ∈ cs) → ∀ first above,
        (placesAll e.kind first above ds).map Place.id = idsAll ds := by
      intro ds
      induction ds with
      | nil => simp [placesAll, idsAll]
      | cons d ds ihd =>
        intro hd first above
        rw [placesAll, List.map_append, ih d (hd d (by simp)), idsAll,
          ihd fun x hx => hd x (by simp [hx])]
    rw [placesAt, List.map_cons, ids, hcs cs fun _ h => h]

theorem map_id_places (t : Tree) : t.places.map Place.id = t.ids := t.map_id_placesAt _ _

end Tree

namespace Frames

/-- The slot of the missing tree. -/
def slot : Frames → Slot
  | [] => .member
  | k :: _ => k.entry.kind.slot k.before.isEmpty

/-- A side stands right below a conflict. -/
theorem exists_of_slot_side {K : Frames} {x : Side} (h : slot K = .side x) :
    ∃ k K' l, K = k :: K' ∧ k.entry.kind = .conflict l := by
  cases K with
  | nil => cases h
  | cons k K =>
    rw [slot] at h
    cases hk : k.entry.kind with
    | conflict l => exact ⟨k, K, l, rfl, hk⟩
    | _ => simp [hk, Kind.slot] at h

/-- A header stands right below a conflict between headers, and the first one is the left one. -/
theorem exists_of_slot_header {K : Frames} {x : Side} (h : slot K = .header x) :
    ∃ k K' l, K = k :: K' ∧ k.entry.kind = .scopeConflict l ∧ (k.before = [] ↔ x = .left) := by
  cases K with
  | nil => cases h
  | cons k K =>
    rw [slot] at h
    cases hk : k.entry.kind with
    | scopeConflict l =>
      refine ⟨k, K, l, rfl, hk, ?_⟩
      rw [hk] at h
      cases x <;> cases hbefore : k.before <;> simp [hbefore, Kind.slot] at h ⊢
    | _ => simp [hk, Kind.slot] at h

/-- What stands above the missing tree. -/
def steps : Frames → List Step
  | [] => []
  | k :: K => ⟨k.id, k.entry.kind, slot K⟩ :: steps K

/-- The places before the missing tree. -/
def placesBefore : Frames → List Place
  | [] => []
  | k :: K => placesBefore K ++ ⟨k.id, k.entry, slot K, steps K⟩ ::
      Tree.placesAll k.entry.kind true (steps (k :: K)) k.before

/-- The places behind the missing tree. -/
def placesAfter : Frames → List Place
  | [] => []
  | k :: K => Tree.placesAll k.entry.kind false (steps (k :: K)) k.after ++ placesAfter K

/-- Frames that are no scopes do not change which scopes the missing tree is in. -/
theorem scopes_append {G : Frames} (K : Frames) (h : ∀ g ∈ G, g.entry.kind.isScope = false) :
    (steps (G ++ K)).filter (fun st => st.kind.isScope) =
      (steps K).filter fun st => st.kind.isScope := by
  induction G with
  | nil => rfl
  | cons g G ih =>
    have hg : ¬ g.entry.kind.isScope = true := by simp [h g (by simp)]
    rw [List.cons_append, steps, List.filter_cons, if_neg hg]
    exact ih fun x hx => h x (by simp [hx])

theorem map_id_steps (K : Frames) : (steps K).map Step.id = K.map Frame.id := by
  induction K with
  | nil => rfl
  | cons k K ih => simp [steps, ih]

end Frames

namespace Tree

theorem places_under (t : Tree) (K : Frames) :
    (t.under K).places = Frames.placesBefore K ++ t.placesAt (Frames.slot K) (Frames.steps K)
      ++ Frames.placesAfter K := by
  induction K generalizing t with
  | nil => simp [under, places, Frames.placesBefore, Frames.placesAfter, Frames.slot, Frames.steps]
  | cons k K ih =>
    rw [under, ih, Frame.fill, placesAt, placesAll_append, placesAll_cons]
    simp [Frames.placesBefore, Frames.placesAfter, Frames.slot, Frames.steps]

/-- The place of a node that is singled out. -/
def placeIn (s : Tree) (K : Frames) : Place := ⟨s.id, s.entry, Frames.slot K, Frames.steps K⟩

theorem placeIn_mem_places (s : Tree) (K : Frames) : s.placeIn K ∈ (s.under K).places := by
  obtain ⟨i, e, cs⟩ := s
  rw [places_under]
  simp [placeIn, placesAt]

/-- The places around a node that is singled out. -/
theorem places_node_under (i : NodeId) (e : Entry) (cs : List Tree) (K : Frames) :
    ((node i e cs).under K).places = Frames.placesBefore K ++ (node i e cs).placeIn K ::
      (placesAll e.kind true (⟨i, e.kind, Frames.slot K⟩ :: Frames.steps K) cs ++
        Frames.placesAfter K) := by
  rw [places_under, placesAt]
  simp [placeIn]

theorem exists_under_of_mem_placesAt {p : Place} (t : Tree) (K₀ : Frames)
    (h : p ∈ t.placesAt (Frames.slot K₀) (Frames.steps K₀)) :
    ∃ (K : Frames) (s : Tree), t.under K₀ = s.under K ∧ p = s.placeIn K := by
  induction t using induct generalizing K₀ with
  | step i e cs ih =>
    rw [placesAt] at h
    rcases List.mem_cons.1 h with rfl | h
    · exact ⟨K₀, node i e cs, rfl, rfl⟩
    · -- The place is below one of the children; those before it are in `xs`.
      have hsplit : ∀ ds xs, xs ++ ds = cs →
          p ∈ placesAll e.kind xs.isEmpty (⟨i, e.kind, Frames.slot K₀⟩ :: Frames.steps K₀) ds →
          ∃ (K : Frames) (s : Tree), (node i e cs).under K₀ = s.under K ∧ p = s.placeIn K := by
        intro ds
        induction ds with
        | nil => simp [placesAll]
        | cons d ds ihd =>
          intro xs hxs hp
          rw [placesAll] at hp
          rcases List.mem_append.1 hp with hp | hp
          · obtain ⟨K, s, hK, hs⟩ := ih d (by simp [← hxs]) (⟨i, e, xs, ds⟩ :: K₀) hp
            exact ⟨K, s, by rw [← hK, under_cons, Frame.fill, hxs], hs⟩
          · refine ihd (xs ++ [d]) (by simpa using hxs) ?_
            have he : (xs ++ [d]).isEmpty = false := by simp
            rwa [he]
      exact hsplit cs [] rfl h

/-- The places of a tree are those of the nodes that can be singled out. -/
theorem mem_places {t : Tree} {p : Place} :
    p ∈ t.places ↔ ∃ (K : Frames) (s : Tree), t = s.under K ∧ p = s.placeIn K := by
  constructor
  · exact fun h => exists_under_of_mem_placesAt t [] h
  · rintro ⟨K, s, rfl, rfl⟩
    exact s.placeIn_mem_places K

/-- A number is that of one place. -/
theorem place_eq_of_id {t : Tree} (hn : t.ids.Nodup) {p q : Place} (hp : p ∈ t.places) (hq : q ∈ t.places)
    (hid : p.id = q.id) : p = q := by
  rw [← map_id_places] at hn
  exact List.inj_on_of_nodup_map hn hp hq hid

end Tree

/-- What stands above a place has a place itself. -/
theorem Tree.exists_place_of_step {t : Tree} {p : Place} (hp : p ∈ t.places) {st : Step}
    (hst : st ∈ p.above) : ∃ q ∈ t.places, q.step = st := by
  obtain ⟨K, s, rfl, rfl⟩ := mem_places.1 hp
  have hst' : st ∈ Frames.steps K := hst
  clear hst hp
  induction K generalizing s with
  | nil => cases hst'
  | cons k K ih =>
    rcases List.mem_cons.1 hst' with rfl | hst'
    · exact ⟨_, (k.fill s).placeIn_mem_places K, rfl⟩
    · exact ih (k.fill s) hst'

/-! ## Places in a table -/

namespace Forest

variable {f : Forest} {t : Tree} {ts : List Tree} {p : Place}

/-- What the root reaches has the places of its tree. -/
theorem Shows.reached_eq (h : f.Shows (t :: ts)) (ht : t.id = root) :
    root :: f.descendants root = t.places.map Place.id := by
  rw [Tree.map_id_places, Tree.ids_eq, ← ht, Shows.descendants_eq (s := t) (K := []) h]

theorem Shows.eq_of_id (h : f.Shows (t :: ts)) {q : Place} (hp : p ∈ t.places) (hq : q ∈ t.places)
    (hid : p.id = q.id) : p = q :=
  Tree.place_eq_of_id h.nodup_ids hp hq hid

theorem Shows.entry_of_mem (h : f.Shows (t :: ts)) (hp : p ∈ t.places) :
    f.entry p.id = p.entry := by
  obtain ⟨K, s, rfl, rfl⟩ := Tree.mem_places.1 hp
  exact h.entry_eq

theorem Shows.kind_of_mem (h : f.Shows (t :: ts)) (hp : p ∈ t.places) : f.kind p.id = p.kind := by
  rw [kind, h.entry_of_mem hp, Place.kind]

theorem Shows.ancestors_of_mem (h : f.Shows (t :: ts)) (hp : p ∈ t.places) :
    f.ancestors p.id = p.above.map Step.id := by
  obtain ⟨K, s, rfl, rfl⟩ := Tree.mem_places.1 hp
  rw [Tree.placeIn, Frames.map_id_steps]
  exact h.ancestors_eq

theorem Shows.kind_of_steps {s : Tree} {G K : Frames} (h : f.Shows (s.under (G ++ K) :: ts))
    {st : Step} (hst : st ∈ Frames.steps G) : f.kind st.id = st.kind := by
  induction G generalizing s with
  | nil => cases hst
  | cons k G ih =>
    have h' : f.Shows ((k.fill s).under (G ++ K) :: ts) := h
    rcases List.mem_cons.1 hst with rfl | hst
    · exact h'.kind_eq
    · exact ih h' hst

theorem Shows.kind_of_step (h : f.Shows (t :: ts)) (hp : p ∈ t.places) {st : Step}
    (hst : st ∈ p.above) : f.kind st.id = st.kind := by
  obtain ⟨K, s, rfl, rfl⟩ := Tree.mem_places.1 hp
  exact Shows.kind_of_steps (K := []) (by rwa [List.append_nil]) hst

theorem Shows.scopePath_under {s : Tree} {K : Frames} (h : f.Shows (s.under K :: ts)) :
    (K.map Frame.id).foldr (fun a path => (f.kind a).within path) "" =
      (Frames.steps K).foldr (fun st path => st.kind.within path) "" := by
  induction K generalizing s with
  | nil => rfl
  | cons k K ih =>
    have h' : f.Shows ((k.fill s).under K :: ts) := h
    have hk : f.kind k.id = k.entry.kind := h'.kind_eq
    rw [List.map_cons, List.foldr_cons, ih h', hk, Frames.steps, List.foldr_cons]

theorem Shows.indexKeys_of_mem (h : f.Shows (t :: ts)) (hp : p ∈ t.places) :
    f.indexKeys p.id = p.keys := by
  rw [indexKeys, h.kind_of_mem hp, scopePath]
  obtain ⟨K, s, rfl, rfl⟩ := Tree.mem_places.1 hp
  rw [show (s.placeIn K).id = s.id from rfl, h.ancestors_eq, h.scopePath_under]
  rfl

/-- The scopes that a node is in, the nearest first. -/
def scopesAbove (f : Forest) (i : NodeId) : List NodeId :=
  (f.ancestors i).filter fun a => (f.kind a).isScope

/-- The scopes of a place are those above it in the tree, and then those above the tree. -/
theorem Shows.scopesAbove_eq {K : Frames} (h : f.Shows (t.under K :: ts)) (hp : p ∈ t.places) :
    f.scopesAbove p.id = (p.above.filter (·.kind.isScope)).map Step.id ++
      (K.map Frame.id).filter fun a => (f.kind a).isScope := by
  obtain ⟨K', s, rfl, rfl⟩ := Tree.mem_places.1 hp
  rw [← Tree.under_append] at h
  have hkinds : ∀ st ∈ Frames.steps K', f.kind st.id = st.kind := fun st hst => h.kind_of_steps hst
  rw [scopesAbove, show (s.placeIn K').id = s.id from rfl, h.ancestors_eq, List.map_append,
    List.filter_append, ← Frames.map_id_steps, List.filter_map]
  congr 2
  exact List.filter_congr fun st hst => by simp [hkinds st hst]

theorem Shows.scopesAbove_of_mem (h : f.Shows (t :: ts)) (hp : p ∈ t.places) :
    f.scopesAbove p.id = (p.above.filter (·.kind.isScope)).map Step.id := by
  have hscopes := Shows.scopesAbove_eq (K := []) h hp
  rwa [List.map_nil, List.filter_nil, List.append_nil] at hscopes

end Forest

end StubMerge
