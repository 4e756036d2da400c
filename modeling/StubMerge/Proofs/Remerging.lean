import StubMerge.Proofs.Outcome
import StubMerge.Proofs.Resting

/-!
# Merging the outcome of a merge

The outcome of a merge may have conflicts, and it can be the first outline of another merge. A
declaration of the second outline may then be matched with a right header. Its body goes where only
one side of the conflict shows it, or the header comes into conflict itself.

So the shape of conflicts is not kept (`mergedAgain_of_machine`). `merge_output_isSided` says what
is: the merge does not fail, every conflict has two sides, and all is as it should be if no
declaration is matched with a right header (`Forest.ClearOf`).
-/

namespace StubMerge

namespace Merger

/-! ## The first pass -/

/-- Any outlines can be copied, and all their nodes are registered. -/
theorem exists_copyAll (os : List Outline) {m : Merger} {e : Entry} {cs : List Tree}
    (he : e.kind = .group) (h : m.output.Shows [.node Forest.root e cs])
    (hindex : ∀ key i, (key, i) ∈ m.index.entries ↔
      ∃ p ∈ (Tree.node Forest.root e cs).places, p.id = i ∧ key ∈ p.keys) :
    ∃ m', m.copyAll os = .ok m' ∧ m'.started = m.started ∧
      m'.output.Shows [.node Forest.root e (cs ++ Outline.numberAll m.output.size os)] ∧
      ∀ key i, (key, i) ∈ m'.index.entries ↔
        ∃ p ∈ (Tree.node Forest.root e (cs ++ Outline.numberAll m.output.size os)).places,
          p.id = i ∧ key ∈ p.keys := by
  induction os generalizing m cs with
  | nil =>
    refine ⟨m, rfl, rfl, ?_⟩
    rw [Outline.numberAll, List.append_nil]
    exact ⟨h, hindex⟩
  | cons o os ih =>
    have hroot : m.output.Shows [(Tree.node Forest.root e cs).under []] := h
    obtain ⟨f, hf, hsize, hshows⟩ := copyInto_spec hroot (by rw [he]; rfl) o
    have hregister : ∀ key i, (key, i) ∈
        (registerTree { m with output := f } m.output.size).index.entries ↔
        ∃ p ∈ (Tree.node Forest.root e (cs ++ [o.number m.output.size])).places,
          p.id = i ∧ key ∈ p.keys := by
      intro key i
      have hreg : (key, i) ∈ (registerTree { m with output := f }
          (o.number m.output.size).id).index.entries ↔ _ :=
        Stands.mem_index_registerTree (m := { m with output := f }) hshows
      rw [Outline.id_number] at hreg
      rw [hreg, show Merger.index { m with output := f } = m.index from rfl, hindex]
      simp only [Tree.places, Tree.placesAt, Tree.placesAll_append, Tree.placesAll, List.append_nil,
        List.mem_cons, List.mem_append, Bool.true_and, Frames.slot, Frames.steps]
      constructor
      · rintro (⟨q, hq, hrest⟩ | ⟨q, hq, hrest⟩)
        · exact ⟨q, .inr (.inr hq), hrest⟩
        · exact ⟨q, hq.imp_right .inl, hrest⟩
      · rintro ⟨q, hq | hq | hq, hrest⟩
        · exact .inr ⟨q, .inl hq, hrest⟩
        · exact .inr ⟨q, .inr hq, hrest⟩
        · exact .inl ⟨q, hq, hrest⟩
    obtain ⟨m', hcopy, hstarted, hrest⟩ :=
      ih (m := registerTree { m with output := f } m.output.size) hshows hregister
    refine ⟨m', (bind_of_ok hf _).trans hcopy, hstarted, ?_⟩
    rw [Outline.numberAll]
    simpa [registerTree, hsize] using hrest

/-- After the first pass over any outline a merge rests. -/
theorem rests_first (labels : Labels) {s : Source} {bare : Bool}
    (hs : (firstTree s).Sided bare) :
    ∃ m, ({ labels } : Merger).add s = .ok m ∧ m.started = true ∧
      Rests bare (firstTree s) m (firstTree s) [] := by
  have hstart := Forest.Shows.unionComments (K := []) Forest.shows_empty s.root.entry.comments
  have hindex : ∀ key i, (key, i) ∈ ({} : Index).entries ↔
      ∃ p ∈ (Tree.node Forest.root (({} : Entry).addComments s.root.entry.comments) []).places,
        p.id = i ∧ key ∈ p.keys := by
    intro key i
    simp [Tree.places, Tree.placesAt, Tree.placesAll, Place.keys, Place.kind, Entry.addComments,
      Kind.keys]
  let f : Forest := Forest.empty.unionComments Forest.root s.root.entry.comments
  let m₀ : Merger := { labels, output := f, started := true }
  have hgroup : (({} : Entry).addComments s.root.entry.comments).kind = .group := rfl
  have hm₀ : m₀.output.Shows
      [.node Forest.root (({} : Entry).addComments s.root.entry.comments) []] := hstart
  obtain ⟨m, hcopy, hstarted, hshows, hentries⟩ :=
    exists_copyAll s.root.children hgroup hm₀ hindex
  replace hshows : m.output.Shows [firstTree s] := hshows
  refine ⟨m, hcopy, hstarted, hshows, rfl, rfl, hs, hshows.nodup_ids, fun _ hi => hi, ?_, ?_,
    by simp⟩
  · intro key i hi
    obtain ⟨p, hp, hid, hkey⟩ := (hentries key i).1 hi
    exact ⟨p, hp, hid, Kind.isDeclaration_of_mem_keys hkey, .old hp hkey (.refl p)⟩
  · intro q hq key hkey
    exact (hentries key q.id).2 ⟨q, hq, rfl, hkey⟩

end Merger

/-! ## Trees with the same outline -/

namespace Tree

theorem kind_of_outline {t u : Tree} (h : u.outline = t.outline) : u.kind = t.kind := by
  obtain ⟨i, e, cs⟩ := t
  obtain ⟨j, d, ds⟩ := u
  rw [outline, outline] at h
  exact congrArg Entry.kind (Outline.node.inj h).1

theorem children_of_outline {t u : Tree} (h : u.outline = t.outline) :
    outlineAll u.children = outlineAll t.children := by
  obtain ⟨i, e, cs⟩ := t
  obtain ⟨j, d, ds⟩ := u
  rw [outline, outline] at h
  exact (Outline.node.inj h).2

theorem eq_nil_of_outlineAll {cs : List Tree} (h : outlineAll cs = []) : cs = [] := by
  cases cs with
  | nil => rfl
  | cons c cs => cases h

theorem eq_pair_of_outlineAll {ds : List Tree} {a b : Tree}
    (h : outlineAll ds = outlineAll [a, b]) :
    ∃ a' b', ds = [a', b'] ∧ a'.outline = a.outline ∧ b'.outline = b.outline := by
  have hlength : ds.length = 2 := by
    simpa [outlineAll_eq_map] using congrArg List.length h
  obtain ⟨a', b', rfl⟩ := List.length_eq_two.1 hlength
  simp only [outlineAll, List.cons.injEq, and_true] at h
  exact ⟨a', b', rfl, h.1, h.2⟩

theorem SidedAt.of_outlineAll {bare : Bool} {kind : Kind} {cs ds : List Tree}
    (h : SidedAt bare kind cs) (hcs : outlineAll ds = outlineAll cs) : SidedAt bare kind ds := by
  cases kind with
  | leaf l =>
    obtain rfl : cs = [] := h
    exact eq_nil_of_outlineAll hcs
  | conflict l =>
    obtain ⟨a, b, rfl, ha, hb⟩ := h
    obtain ⟨a', b', rfl, ha', hb'⟩ := eq_pair_of_outlineAll hcs
    exact ⟨a', b', rfl, (kind_of_outline ha').trans ha, (kind_of_outline hb').trans hb⟩
  | scopeConflict l =>
    obtain ⟨a, b, rfl, ha, hb⟩ := h
    obtain ⟨a', b', rfl, ha', hb'⟩ := eq_pair_of_outlineAll hcs
    refine ⟨a', b', rfl, by rw [kind_of_outline ha', ha], ?_⟩
    rw [kind_of_outline hb']
    refine hb.imp_left fun hbare => ⟨hbare.1, ?_⟩
    have hnone := children_of_outline hb'
    rw [hbare.2] at hnone
    exact eq_nil_of_outlineAll hnone
  | group | scope _ => trivial

mutual
theorem sided_of_outline {bare : Bool} : ∀ (t u : Tree), u.outline = t.outline → t.Sided bare →
    u.Sided bare
  | node i e cs, node j d ds, h, ht => by
    rw [outline, outline] at h
    obtain ⟨rfl, hbody⟩ := Outline.node.inj h
    have hat : SidedAt bare d.kind cs := ht.at_top
    exact .node (hat.of_outlineAll hbody)
      (sided_of_outlineAll cs ds hbody fun c hc => ht.of_mem hc)
theorem sided_of_outlineAll {bare : Bool} : ∀ (cs ds : List Tree),
    outlineAll ds = outlineAll cs → (∀ c ∈ cs, c.Sided bare) → ∀ d ∈ ds, d.Sided bare
  | [], ds, h, _ => by
    rw [eq_nil_of_outlineAll h]
    simp
  | c :: cs, [], h, _ => by cases h
  | c :: cs, d :: ds, h, hcs => by
    obtain ⟨hhead, htail⟩ := List.cons.inj h
    refine List.forall_mem_cons.2 ⟨sided_of_outline c d hhead (hcs c List.mem_cons_self), ?_⟩
    exact sided_of_outlineAll cs ds htail fun x hx => hcs x (List.mem_cons_of_mem c hx)
end

end Tree

/-- Two places in trees with the same outline. -/
structure Place.Alike (p q : Place) : Prop where
  kind_eq : q.kind = p.kind
  slot_eq : q.slot = p.slot
  path_eq : q.path = p.path

theorem Place.Alike.keys_eq {p q : Place} (h : p.Alike q) : q.keys = p.keys := by
  rw [keys, keys, h.kind_eq, h.path_eq]

namespace Tree

mutual
theorem alike_placesAt : ∀ (t u : Tree) (x : Slot) {a b : List Step}, u.outline = t.outline →
    pathAlong b = pathAlong a → List.Forall₂ Place.Alike (t.placesAt x a) (u.placesAt x b)
  | node i e cs, node j d ds, x, a, b, h, hpath => by
    rw [outline, outline] at h
    obtain ⟨rfl, hbody⟩ := Outline.node.inj h
    rw [placesAt, placesAt]
    refine .cons ⟨rfl, rfl, hpath⟩ (alike_placesAll cs ds d.kind true hbody ?_)
    show d.kind.within (pathAlong b) = d.kind.within (pathAlong a)
    rw [hpath]
theorem alike_placesAll : ∀ (cs ds : List Tree) (kind : Kind) (first : Bool) {a b : List Step},
    outlineAll ds = outlineAll cs → pathAlong b = pathAlong a →
    List.Forall₂ Place.Alike (placesAll kind first a cs) (placesAll kind first b ds)
  | [], ds, kind, first, a, b, h, _ => by
    rw [eq_nil_of_outlineAll h]
    exact .nil
  | c :: cs, [], _, _, _, _, h, _ => by cases h
  | c :: cs, d :: ds, kind, first, a, b, h, hpath => by
    obtain ⟨hhead, htail⟩ := List.cons.inj h
    rw [placesAll, placesAll]
    exact List.rel_append (alike_placesAt c d _ hhead hpath)
      (alike_placesAll cs ds kind false htail hpath)
end

/-- The places of the copy that the first pass makes. -/
theorem alike_firstTree {t : Tree} {s : Source} (hs : s.root = t.outline) (ht : t.kind = .group) :
    List.Forall₂ Place.Alike t.places (Merger.firstTree s).places := by
  obtain ⟨i, e, cs⟩ := t
  have he : e.kind = .group := ht
  have hbody : outlineAll (Outline.numberAll 1 s.root.children) = outlineAll cs := by
    rw [outlineAll_numberAll, hs, outline, Outline.children]
  rw [Merger.firstTree, places, places, placesAt, placesAt]
  refine .cons ⟨he.symm, rfl, rfl⟩ ?_
  rw [he]
  exact alike_placesAll cs _ .group true hbody rfl

theorem sided_firstTree {t : Tree} {s : Source} {bare : Bool} (hs : s.root = t.outline)
    (ht : t.Sided bare) : (Merger.firstTree s).Sided bare := by
  obtain ⟨i, e, cs⟩ := t
  have hbody : outlineAll (Outline.numberAll 1 s.root.children) = outlineAll cs := by
    rw [outlineAll_numberAll, hs, outline, Outline.children]
  exact .node trivial (sided_of_outlineAll cs _ hbody fun c hc => ht.of_mem hc)

end Tree

/-! ## Conflicts of a forest -/

namespace Forest

variable {f : Forest} {t : Tree}

/-- Whether a node is the second of the headers of a conflict. -/
def isRightHeader (f : Forest) (n : NodeId) : Bool :=
  match f.parent n with
  | none => false
  | some c =>
    match f.kind c, f.children c with
    | .scopeConflict _, [_, right] => right == n
    | _, _ => false

/-- A declaration is not matched with a right header: if it goes by the name of one, it is a scope
that does not agree with it, is not in a scope of its own name, and agrees with another node of that
name. -/
def ClearOf (f : Forest) (d : Declaration) : Prop :=
  ∀ n ∈ f.descendants root, f.isRightHeader n = true → (∃ key ∈ d.keys, key ∈ f.indexKeys n) →
    d.kind.isScope = true ∧ (f.kind n).agrees d.kind = false ∧
      (∀ key ∈ d.keys, key ∉ d.enclosing) ∧
      ∃ r ∈ f.descendants root, (f.kind r).agrees d.kind = true ∧ f.indexKeys r = d.keys

instance (f : Forest) (d : Declaration) : Decidable (f.ClearOf d) :=
  inferInstanceAs (Decidable (∀ n ∈ f.descendants root, f.isRightHeader n = true →
    (∃ key ∈ d.keys, key ∈ f.indexKeys n) → d.kind.isScope = true ∧
      (f.kind n).agrees d.kind = false ∧ (∀ key ∈ d.keys, key ∉ d.enclosing) ∧
      ∃ r ∈ f.descendants root, (f.kind r).agrees d.kind = true ∧ f.indexKeys r = d.keys))

/-- Whether a node that is a conflict has two sides: two groups, or two scopes of which the second
is `bare`. If it need not be, it may have a body or be in conflict itself. -/
def isSided (bare : Bool) (f : Forest) (n : NodeId) : Bool :=
  match f.kind n, f.children n with
  | .conflict _, [l, r] => f.kind l == .group && f.kind r == .group
  | .conflict _, _ => false
  | .scopeConflict _, [l, r] => (f.kind l).isScope &&
      ((f.kind r).isScope && (f.children r).isEmpty ||
        !bare && ((f.kind r).isScope || (f.kind r).isConflict))
  | .scopeConflict _, _ => false
  | _, _ => true

theorem Shows.isSided {bare : Bool} (h : f.Shows [t]) (ht : t.Sided bare) (htop : t.id = root)
    {n : NodeId} (hn : n ∈ f.descendants root) : f.isSided bare n = true := by
  have hn : n ∈ root :: f.descendants root := List.mem_cons_of_mem root hn
  rw [h.reached_eq htop] at hn
  obtain ⟨p, hp, rfl⟩ := List.mem_map.1 hn
  obtain ⟨K, ⟨i, e, cs⟩, rfl, rfl⟩ := Tree.mem_places.1 hp
  have hat : Tree.SidedAt bare e.kind cs := ht.of_under.at_top
  have hkind : f.kind i = e.kind := h.kind_eq
  have hchildren : f.children i = cs.map Tree.id := h.children_eq
  -- A child is below one frame more.
  have hchild : ∀ c ∈ cs, f.kind c.id = c.kind ∧ f.children c.id = c.children.map Tree.id := by
    intro c hc
    obtain ⟨before, after, rfl⟩ := List.append_of_mem hc
    have hview : f.Shows [c.under (⟨i, e, before, after⟩ :: K)] := h
    exact ⟨hview.kind_eq, hview.children_eq⟩
  show f.isSided bare i = true
  rw [Forest.isSided, hkind, hchildren]
  cases hk : e.kind with
  | group | scope _ | leaf _ => rfl
  | conflict l =>
    rw [hk] at hat
    obtain ⟨a, b, rfl, ha, hb⟩ := hat
    simp [(hchild a (by simp)).1, (hchild b (by simp)).1, ha, hb]
  | scopeConflict l =>
    rw [hk] at hat
    obtain ⟨a, b, rfl, ha, hb⟩ := hat
    simp only [List.map_cons, List.map_nil, (hchild a (by simp)).1, (hchild b (by simp)).1,
      (hchild b (by simp)).2, ha, Bool.true_and]
    rcases hb with ⟨hscope, hnone⟩ | ⟨hbare, hscope | hconf⟩
    · simp [hscope, hnone]
    · simp [hbare, hscope]
    · simp [hbare, hconf]

/-- Right headers can be told by their places. -/
theorem Shows.isRightHeader_of_mem {bare : Bool} (h : f.Shows [t]) (ht : t.Sided bare) {p : Place}
    (hp : p ∈ t.places) (hslot : p.slot = .header .right) : f.isRightHeader p.id = true := by
  obtain ⟨K, s, rfl, rfl⟩ := Tree.mem_places.1 hp
  obtain ⟨k, K, a, l, rfl, hk, hbe, haf, -⟩ := Tree.Sided.of_right_header ht hslot
  have hparent : f.parent s.id = some k.id := h.parent_eq
  show f.isRightHeader s.id = true
  rw [isRightHeader, hparent]
  simp only
  rw [Merger.kind_frame h, Merger.children_frame h, hk, hbe, haf]
  simp

/-- What keeps clear of the right headers of a forest keeps clear of those of its copy. -/
theorem Shows.clearOf {bare : Bool} {s : Source} (h : f.Shows [t]) (ht : t.Sided bare)
    (htop : t.id = root) (hgroup : t.kind = .group) (hs : s.root = t.outline) {d : Declaration}
    (hd : f.ClearOf d) : (Merger.firstTree s).ClearOf d := by
  have halike := Tree.alike_firstTree hs hgroup
  -- What is not the root is below it.
  have hbelow : ∀ p ∈ t.places, p.kind ≠ .group → p.id ∈ f.descendants root := by
    intro p hp hkind
    have hmem : p.id ∈ root :: f.descendants root := by
      rw [h.reached_eq htop]
      exact List.mem_map_of_mem hp
    rcases List.mem_cons.1 hmem with hroot | hmem
    · have hself : f.kind root = .group := by
        rw [← htop, ← hgroup]
        exact Shows.kind_eq (K := []) h
      rw [← hroot, h.kind_of_mem hp] at hself
      exact absurd hself hkind
    · exact hmem
  have hnamed : ∀ {p : Place} {key : String}, key ∈ p.keys → p.kind ≠ .group := by
    intro p key hkey hkind
    rw [Place.keys, hkind] at hkey
    cases hkey
  rintro q hq hslot ⟨key, hkey, hkeyq⟩
  obtain ⟨p, hp, hpq⟩ := exists_of_forall₂ halike.flip hq
  replace hpq : p.Alike q := hpq
  rw [hpq.keys_eq] at hkeyq
  obtain ⟨hscope, hdisagree, hopen, r, hr, hagree, hkeys⟩ :=
    hd p.id (hbelow p hp (hnamed hkeyq)) (h.isRightHeader_of_mem ht hp (hpq.slot_eq ▸ hslot))
      ⟨key, hkey, by rwa [h.indexKeys_of_mem hp]⟩
  rw [h.kind_of_mem hp] at hdisagree
  refine ⟨hscope, by rw [hpq.kind_eq, hdisagree], hopen, ?_⟩
  have hr : r ∈ root :: f.descendants root := List.mem_cons_of_mem root hr
  rw [h.reached_eq htop] at hr
  obtain ⟨w, hw, rfl⟩ := List.mem_map.1 hr
  obtain ⟨w', hw', hww'⟩ := exists_of_forall₂ halike hw
  refine ⟨w', hw', ?_, ?_⟩
  · rw [hww'.kind_eq, ← h.kind_of_mem hw]
    exact hagree
  · rw [hww'.keys_eq, ← h.indexKeys_of_mem hw]
    exact hkeys

end Forest

/-! ## The merge -/

/-- What was merged can be merged with any outline without conflicts, and right headers are bare if
they are to be. -/
theorem exists_merge_sided (labels : Labels) (bare : Bool) {f : Forest} {t : Tree} {r : Source}
    (h : f.Shows [t]) (ht : t.Shaped) (htop : t.id = Forest.root) (hgroup : t.kind = .group)
    (hr : r.root.isConflictFree = true)
    (hclear : bare = true → ∀ d ∈ r.declarations, f.ClearOf d) :
    ∃ res, merge labels f.source r = .ok res ∧
      ∀ n ∈ res.forest.descendants Forest.root, res.forest.isSided bare n = true := by
  have hsource : f.source.root = t.outline := by
    rw [Forest.source, ← htop]
    exact Forest.Shows.outline_eq (K := []) h
  obtain ⟨m₁, hadd₁, hstarted, h₁⟩ :=
    Merger.rests_first labels (Tree.sided_firstTree hsource (ht.sided bare))
  obtain ⟨m₂, t₂, hadd₂, h₂⟩ := h₁.add hstarted hr fun hbare d hd =>
    h.clearOf (ht.sided bare) htop hgroup hsource (hclear hbare d hd)
  obtain ⟨i, e, cs⟩ := t₂
  obtain rfl : i = Forest.root := h₂.top
  obtain ⟨g, zs, hg, hshows, hall⟩ :=
    Forest.coalesce_spec h₂.shows (Tree.Sided.loosen h₂.sided)
  have hfinish : m₂.finish = .ok ⟨g, m₂.conflicts.toList⟩ := by
    rw [Merger.finish, hg]
  refine ⟨_, (bind_of_ok hadd₁ _).trans ((bind_of_ok hadd₂ _).trans hfinish), ?_⟩
  intro n hn
  exact hshows.isSided (Tree.AbsorbsAll.sided hall h₂.sided) rfl hn

/-- **Merging what was merged.** The outcome of a merge, conflicts included, can be merged with any
outline without conflicts. Every conflict of the result has two sides again, of which a second
header may have got a body or be in conflict itself. If every declaration of the outline keeps clear
of the right headers that were there, all right headers are bare. -/
theorem merge_output_isSided (labels labels' : Labels) (ss : List Source) (r : Source)
    (hss : ∀ s ∈ ss, s.root.isConflictFree = true) (hr : r.root.isConflictFree = true) :
    ∃ m res again, ss.foldlM Merger.add { labels } = .ok m ∧ m.finish = .ok res ∧
      merge labels' res.forest.source r = .ok again ∧
      (∀ n ∈ again.forest.descendants Forest.root, again.forest.isSided false n = true) ∧
      ((∀ d ∈ r.declarations, res.forest.ClearOf d) →
        ∀ n ∈ again.forest.descendants Forest.root, again.forest.isSided true n = true) := by
  obtain ⟨m, t, hfold, hm, -⟩ := Merger.exists_foldlM_add labels hss
  obtain ⟨g, t', hfinish, -, hshows, htop, hall⟩ := hm.finish
  have hshaped : t'.Shaped := Tree.AbsorbsAll.shaped hall hm.shaped
  have hgroup : t'.kind = .group := hm.group_of_absorbsAll hall
  obtain ⟨again, hmerge, hloose⟩ :=
    exists_merge_sided labels' false hshows hshaped htop hgroup hr (by nofun)
  refine ⟨m, _, again, hfold, hfinish, hmerge, hloose, ?_⟩
  intro hclear
  obtain ⟨again', hmerge', hbare⟩ :=
    exists_merge_sided labels' true hshows hshaped htop hgroup hr fun _ => hclear
  obtain rfl := Except.ok.inj (hmerge'.symm.trans hmerge)
  exact hbare

/-- A file with one class of the name `Car`. -/
def carFile (superclass : String) (body : List Outline) : Outline :=
  .node {} [.node { kind := .scope (.classOf "Car" (some superclass)) } body]

/-- A file that adds to the class that it opens. -/
def washedCar (superclass : String) : Outline :=
  carFile superclass [.node { kind := .leaf (.method { name := "wash" }) } []]

/-- The cars, whose class has two headers, and a file that opens the class with the first one. -/
theorem merge_cars_isSided :
    ∃ m res again, [{ root := oldCars }, { root := newCars }].foldlM Merger.add
        { labels := ⟨"old", "new"⟩ } = .ok m ∧ m.finish = .ok res ∧
      merge ⟨"left", "right"⟩ res.forest.source { root := washedCar "Vehicle" } = .ok again ∧
      (∀ d ∈ Source.declarations { root := washedCar "Vehicle" }, res.forest.ClearOf d) ∧
      ∀ n ∈ again.forest.descendants Forest.root, again.forest.isSided true n = true := by
  obtain ⟨m, res, again, hfold, hfinish, hmerge, -, hbare⟩ :=
    merge_output_isSided ⟨"old", "new"⟩ ⟨"left", "right"⟩ [{ root := oldCars }, { root := newCars }]
      { root := washedCar "Vehicle" } (by decide) (by decide)
  have hcheck : ((([{ root := oldCars }, { root := newCars }] : List Source).foldlM Merger.add
      ({ labels := ⟨"old", "new"⟩ } : Merger) >>= Merger.finish).toOption.all fun res =>
        decide (∀ d ∈ Source.declarations { root := washedCar "Vehicle" }, res.forest.ClearOf d)) =
      true := by
    decide +kernel
  rw [bind_of_ok hfold, hfinish] at hcheck
  have hclear : ∀ d ∈ Source.declarations { root := washedCar "Vehicle" }, res.forest.ClearOf d :=
    of_decide_eq_true hcheck
  exact ⟨m, res, again, hfold, hfinish, hmerge, hclear, hbare hclear⟩

/-- Merges two files, and the outcome with a third one. -/
def mergedAgain (labels : Labels) (a b c : Outline) : Except EditError Merger.Result := do
  let res ← merge labels { root := a } { root := b }
  merge labels res.forest.source { root := c }

/-- A file that opens a class with its second header: its method comes below that header. -/
theorem mergedAgain_of_machine :
    (mergedAgain ⟨"left", "right"⟩ (carFile "Vehicle" []) (carFile "Machine" [])
        (washedCar "Machine")).toOption.map (fun res =>
          ((res.forest.outline Forest.root).preorder 0,
            (res.forest.descendants Forest.root).map (res.forest.isSided true))) =
      some ([(0, {}), (1, { kind := .scopeConflict ⟨"left", "right"⟩ }),
          (2, { kind := .scope (.classOf "Car" (some "Vehicle")) }),
          (2, { kind := .scope (.classOf "Car" (some "Machine")) }),
          (3, { kind := .leaf (.method { name := "wash" }) })],
        [false, true, true, true]) := by
  decide +kernel

end StubMerge
