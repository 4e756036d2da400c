import StubMerge.Proofs.Passes
import StubMerge.Proofs.Sidedness
import StubMerge.Proofs.Traces

/-!
# Passes over an outline with conflicts

The first outline of a merge may have conflicts. The first pass registers all of it, with right
headers and what is on the right of conflicts, so later declarations may be matched with those.

`Merger.Rests` describes such a merge between two declarations. It is not as much as
`Merger.Stands`, but enough for passes that never fail and leave every conflict with two sides
(`Rests.add`). Right headers stay bare as long as each declaration that goes by the name of one is a
scope that has somewhere else to go (`Tree.ClearOf`).
-/

namespace StubMerge

/-- A declaration is not matched with a right header of `u`: if it goes by the name of one, it is a
scope that does not agree with it, is not in a scope of its own name, and agrees with another node of
that name. -/
def Tree.ClearOf (u : Tree) (d : Declaration) : Prop :=
  ∀ q ∈ u.places, q.slot = .header .right → (∃ key ∈ d.keys, key ∈ q.keys) →
    d.kind.isScope = true ∧ q.kind.agrees d.kind = false ∧ (∀ key ∈ d.keys, key ∉ d.enclosing) ∧
      ∃ r ∈ u.places, r.kind.agrees d.kind = true ∧ r.keys = d.keys

namespace Merger

/-! ## The state between two declarations -/

/-- Where a place comes from that is registered under `key`: it was in the tree `u`, under that name,
or it is new and no right header. -/
inductive Origin (u : Tree) (key : String) (p : Place) : Prop
  | old {q : Place} : q ∈ u.places → key ∈ q.keys → q.Stays p → Origin u key p
  | new : p.id ∉ u.ids → p.slot ≠ .header .right → Origin u key p

/-- A merge whose first pass left the tree `u`, conflicts included, and that has come to the tree
`t`. If right headers are to be `bare`, they are. -/
structure Rests (bare : Bool) (u : Tree) (m : Merger) (t : Tree) (stack : List Opened) : Prop where
  shows : m.output.Shows [t]
  top : t.id = Forest.root
  group : t.kind = .group
  sided : t.Sided bare
  distinct : u.ids.Nodup
  below : ∀ i ∈ u.ids, i ∈ t.ids
  entries : ∀ key i, (key, i) ∈ m.index.entries →
    ∃ p ∈ t.places, p.id = i ∧ p.kind.isDeclaration = true ∧ Origin u key p
  kept : ∀ q ∈ u.places, ∀ key ∈ q.keys, (key, q.id) ∈ m.index.entries
  /-- Open scopes are no right headers, and those of `u` go by the name that they were found by. -/
  opened : ∀ o ∈ stack, ∃ p ∈ t.places, p.id = o.id ∧ p.kind.isScope = true ∧
    (bare = true → p.slot ≠ .header .right) ∧ ∀ q ∈ u.places, q.id = o.id → q.keys = [o.path]

namespace Rests

variable {bare : Bool} {u t t' : Tree} {m m' : Merger} {stack : List Opened} {d : Entry}

/-- A change that keeps all places, and registers none but new ones. -/
theorem step (h : Rests bare u m t stack) (hshows : m'.output.Shows [t'])
    (htop : t'.id = t.id ∧ t'.kind = t.kind) (hsided : t'.Sided bare) (hstays : t.StaysIn t')
    (hkept : ∀ x ∈ m.index.entries, x ∈ m'.index.entries)
    (hnew : ∀ key i, (key, i) ∈ m'.index.entries → (key, i) ∈ m.index.entries ∨
      i ∉ u.ids ∧ ∃ q ∈ t'.places, q.id = i ∧ q.kind.isDeclaration = true ∧
        q.slot ≠ .header .right) :
    Rests bare u m' t' stack where
  shows := hshows
  top := htop.1.trans h.top
  group := htop.2.trans h.group
  sided := hsided
  distinct := h.distinct
  below i hi := by
    have hmem := h.below i hi
    rw [← Tree.map_id_places] at hmem ⊢
    obtain ⟨p, hp, rfl⟩ := List.mem_map.1 hmem
    obtain ⟨q, hq, hpq⟩ := hstays p hp
    exact hpq.id_eq ▸ List.mem_map_of_mem hq
  entries key i hi := by
    rcases hnew key i hi with hold | ⟨hnot, q, hq, rfl, hdecl, hslot⟩
    · obtain ⟨p, hp, rfl, hdecl, horigin⟩ := h.entries key i hold
      obtain ⟨q, hq, hpq⟩ := hstays p hp
      refine ⟨q, hq, hpq.id_eq, ?_, ?_⟩
      · rcases hpq.kind with hk | ⟨-, hleaf⟩
        · rw [hk, hdecl]
        · exact Kind.isDeclaration_of_leaf hleaf
      · cases horigin with
        | old hw hkey hwp => exact .old hw hkey (hwp.trans hpq)
        | new hnot hslot => exact .new (hpq.id_eq ▸ hnot) fun hr => hslot (hpq.slot hr)
    · exact ⟨q, hq, rfl, hdecl, .new hnot hslot⟩
  kept q hq key hkey := hkept _ (h.kept q hq key hkey)
  opened o ho := by
    obtain ⟨p, hp, hid, hscope, hslot, hkeys⟩ := h.opened o ho
    obtain ⟨q, hq, hpq⟩ := hstays p hp
    have hkind : q.kind = p.kind := hpq.kind_eq (.inl (Kind.isContainer_of_scope hscope))
    exact ⟨q, hq, hpq.id_eq.trans hid, by rw [hkind, hscope],
      fun hbare hr => hslot hbare (hpq.slot hr), hkeys⟩

/-- The same without registrations. -/
theorem step_output {f : Forest} (h : Rests bare u m t stack) (hshows : f.Shows [t'])
    (htop : t'.id = t.id ∧ t'.kind = t.kind) (hsided : t'.Sided bare) (hstays : t.StaysIn t') :
    Rests bare u { m with output := f } t' stack :=
  h.step hshows htop hsided hstays (fun _ hx => hx) fun _ _ hi => .inl hi

/-- The same with one node registered, which is new. -/
theorem step_register {f : Forest} {n : NodeId} (h : Rests bare u m t stack) (hshows : f.Shows [t'])
    (htop : t'.id = t.id ∧ t'.kind = t.kind) (hsided : t'.Sided bare) (hstays : t.StaysIn t')
    (hn : n ∉ u.ids) (hq : ∃ q ∈ t'.places, q.id = n ∧ q.kind.isDeclaration = true ∧
      q.slot ≠ .header .right) :
    Rests bare u { m with output := f, index := f.register m.index n } t' stack := by
  refine h.step hshows htop hsided hstays ?_ ?_
  · intro x hx
    exact Index.mem_register.2 (.inr hx)
  · intro key i hi
    rcases Index.mem_register.1 hi with ⟨-, rfl⟩ | hi
    · exact .inr ⟨hn, hq⟩
    · exact .inl hi

theorem record (h : Rests bare u m t stack) (keys : List String) (d : Entry) (i : NodeId) :
    Rests bare u (m.record keys d i) t stack :=
  ⟨h.shows, h.top, h.group, h.sided, h.distinct, h.below, h.entries, h.kept, h.opened⟩

theorem close {o : Opened} (h : Rests bare u m t (o :: stack)) : Rests bare u m t stack :=
  ⟨h.shows, h.top, h.group, h.sided, h.distinct, h.below, h.entries, h.kept,
    fun x hx => h.opened x (List.mem_cons_of_mem o hx)⟩

/-- A number that is not in use is new. -/
theorem fresh (h : Rests bare u m t stack) : m.output.size ∉ u.ids :=
  fun hmem => Nat.lt_irrefl _ (h.shows.lt_size (h.below _ hmem))

/-! ## Finding -/

theorem exists_current (h : Rests bare u m t stack) :
    ∃ (K : Frames) (e : Entry) (cs : List Tree),
      t = (Tree.node (currentScope (stack.map Opened.id)) e cs).under K ∧
        (e.kind = .group ∨ e.kind.isScope = true) ∧
        (bare = true → Frames.slot K ≠ .header .right) := by
  cases stack with
  | nil =>
    obtain ⟨i, e, cs⟩ := t
    obtain rfl : i = Forest.root := h.top
    exact ⟨[], e, cs, rfl, .inl h.group, fun _ => by nofun⟩
  | cons o stack =>
    obtain ⟨p, hp, hid, hscope, hslot, -⟩ := h.opened o List.mem_cons_self
    obtain ⟨K, ⟨i, e, cs⟩, rfl, rfl⟩ := Tree.mem_places.1 hp
    obtain rfl : i = o.id := hid
    exact ⟨K, e, cs, rfl, .inr hscope, hslot⟩

/-- What is found is a declaration. -/
theorem exists_found (h : Rests bare u m t stack) {scopes : List NodeId} {keys : List String}
    {kind : Kind} {i : NodeId} (hi : m.previous? scopes keys kind = some i) :
    ∃ p ∈ t.places, p.id = i ∧ p.kind.isDeclaration = true ∧ ∃ key ∈ keys, Origin u key p := by
  obtain ⟨hcand, -, -⟩ := previous?_eq_some hi
  obtain ⟨key, hkey, hmem⟩ := Index.mem_candidates.1 hcand
  obtain ⟨p, hp, hid, hdecl, horigin⟩ := h.entries key i hmem
  exact ⟨p, hp, hid, hdecl, key, hkey, horigin⟩

theorem eq_of_id (h : Rests bare u m t stack) {q r : Place} (hq : q ∈ u.places) (hr : r ∈ u.places)
    (hid : q.id = r.id) : q = r := by
  have hnodup : (u.places.map Place.id).Nodup := by
    rw [Tree.map_id_places]
    exact h.distinct
  exact List.inj_on_of_nodup_map hnodup hq hr hid

/-- What was in `u` under some name is registered, with the kind it had if it is a scope. -/
theorem kind_of_scope (h : Rests bare u m t stack) {r : Place} (hr : r ∈ u.places)
    (hscope : r.kind.isScope = true) {key : String} (hkey : key ∈ r.keys) :
    m.output.kind r.id = r.kind := by
  obtain ⟨p, hp, hid, -, horigin⟩ := h.entries key r.id (h.kept r hr key hkey)
  have hkind : m.output.kind r.id = p.kind := by
    rw [← hid]
    exact h.shows.kind_of_mem hp
  cases horigin with
  | @old q hq hkeyq hqp =>
    obtain rfl := h.eq_of_id hq hr (hqp.id_eq.symm.trans hid)
    exact hkind.trans (hqp.kind_eq (.inl (Kind.isContainer_of_scope hscope)))
  | new hnot hslot =>
    refine absurd ?_ hnot
    rw [hid, ← Tree.map_id_places]
    exact List.mem_map_of_mem hr

/-- Where right headers are bare and a declaration has somewhere else to go, it does not find
one. -/
theorem slot_of_found (h : Rests true u m t stack) {path : String}
    (hclear : u.ClearOf ⟨d, path, stack.map Opened.path⟩) {p : Place} (hp : p ∈ t.places)
    (hi : m.previous? (stack.map Opened.id) (d.kind.keys path) d.kind = some p.id) :
    p.slot ≠ .header .right := by
  intro hright
  obtain ⟨p', hp', hid, -, key, hkey, horigin⟩ := h.exists_found hi
  obtain rfl := h.shows.eq_of_id hp' hp hid
  cases horigin with
  | new hnot hslot => exact hslot hright
  | @old q hq hkeyq hqp =>
    -- The right header of `u` that was found, and the node that is to be found instead.
    obtain ⟨hscope, hdisagree, hopen, r, hr, hragree, hrkeys⟩ :=
      hclear q hq (hqp.slot hright) ⟨key, hkey, hkeyq⟩
    have hkeys : d.kind.keys path = [d.kind.within path] := Kind.keys_of_scope hscope path
    have hrkeys : r.keys = [d.kind.within path] := hrkeys.trans hkeys
    have hrscope : r.kind.isScope = true := (Kind.isScope_eq_of_agrees hragree).trans hscope
    have hrkind : m.output.kind r.id = r.kind :=
      h.kind_of_scope hr hrscope (by rw [hrkeys]; exact List.mem_singleton_self _)
    have hpscope : p'.kind.isScope = true := by
      obtain ⟨K, s, rfl, rfl⟩ := Tree.mem_places.1 hp
      obtain ⟨-, -, -, -, -, -, -, -, -, ⟨hs, -⟩ | ⟨hfalse, -⟩⟩ :=
        Tree.Sided.of_right_header h.sided hright
      · exact hs
      · cases hfalse
    have hpkind : m.output.kind p'.id = q.kind := by
      rw [h.shows.kind_of_mem hp]
      exact hqp.kind_eq (.inr (Kind.isContainer_of_scope hpscope))
    obtain ⟨-, -, hothers⟩ := previous?_eq_some hi
    have hcand : r.id ∈ m.index.candidates (d.kind.keys path) := by
      refine Index.mem_candidates.2 ⟨d.kind.within path, by simp [hkeys], ?_⟩
      exact h.kept r hr _ (by rw [hrkeys]; exact List.mem_singleton_self _)
    have hclosed : r.id ∉ stack.map Opened.id := by
      intro hmem
      obtain ⟨o, ho, hoid⟩ := List.mem_map.1 hmem
      obtain ⟨-, -, -, -, -, hname⟩ := h.opened o ho
      have hpath : o.path = d.kind.within path := by
        simpa using (hname r hr hoid.symm).symm.trans hrkeys
      have hmem : o.path ∈ stack.map Opened.path := List.mem_map_of_mem ho
      rw [hpath] at hmem
      refine hopen _ ?_ hmem
      show d.kind.within path ∈ d.kind.keys path
      rw [hkeys]
      exact List.mem_singleton_self _
    have hfalse := hothers (by rw [hpkind]; exact hdisagree) r.id hcand hclosed
    rw [hrkind, show r.kind.agrees d.kind = true from hragree] at hfalse
    cases hfalse

/-! ## Setting a tree against a node -/

/-- The node that is set against as a whole. -/
theorem exists_target {f : Forest} {s : Tree} {K : Frames} {ts : List Tree}
    (h : f.Shows (s.under K :: ts)) (ht : (s.under K).Sided bare)
    (hs : s.kind.isDeclaration = true) (hK : bare = true → Frames.slot K ≠ .header .right) :
    ∃ (K' : Frames) (s' : Tree), s.under K = s'.under K' ∧
      (if (otherHeader? f s.id).isSome then (f.parent s.id).getD s.id else s.id) = s'.id ∧
      s'.kind ≠ .group ∧
      (Frames.slot K' = .member ∨ Frames.slot K' = .header .right ∧ bare = false) := by
  have hgroup : s.kind ≠ .group := by
    intro hg
    rw [hg] at hs
    cases hs
  have hself : Frames.slot K ≠ .header .left →
      (if (otherHeader? f s.id).isSome then (f.parent s.id).getD s.id else s.id) = s.id := by
    intro hleft
    rw [otherHeader?_eq_none h (Tree.Sided.loosen ht) hleft]
    rfl
  rcases Tree.Sided.slot_of_declaration ht hgroup with hslot | ⟨hslot, -⟩ | hslot
  · exact ⟨K, s, rfl, hself (by simp [hslot]), hgroup, .inl hslot⟩
  · -- A scope with two headers is taken with both.
    obtain ⟨k, K, b, l, rfl, hk, hbe, haf, -⟩ := Tree.Sided.of_left_header ht hslot
    have hfill : (k.fill s).kind = .scopeConflict l := hk
    have hup : ((k.fill s).under K).Sided bare := ht
    refine ⟨K, k.fill s, rfl, ?_, by rw [hfill]; nofun, ?_⟩
    · rw [otherHeader?_left h hk hbe haf, h.parent_eq]
      rfl
    · rcases Tree.Sided.slot_of_declaration hup (by rw [hfill]; nofun) with hK' | ⟨-, hscope⟩ | hK'
      · exact .inl hK'
      · rw [hfill] at hscope
        cases hscope
      · obtain ⟨-, -, -, -, -, -, -, -, -, ⟨hscope, -⟩ | ⟨hbare, -⟩⟩ :=
          Tree.Sided.of_right_header hup hK'
        · rw [hfill] at hscope
          cases hscope
        · exact .inr ⟨hK', hbare⟩
  · have hbare : bare = false := by
      cases bare with
      | false => rfl
      | true => exact absurd hslot (hK rfl)
    exact ⟨K, s, rfl, hself (by simp [hslot]), hgroup, .inr ⟨hslot, hbare⟩⟩

/-- A tree that is new can be set against every declaration. It becomes a member of a group. -/
theorem exists_oppose {m : Merger} {s c : Tree} {K : Frames} (h : m.output.Shows [c, s.under K])
    (ht : (s.under K).Sided bare) (hgroup : (s.under K).kind = .group) (hc : c.Sided bare)
    (hs : s.kind.isDeclaration = true) (hK : bare = true → Frames.slot K ≠ .header .right) :
    ∃ g t', m.oppose s.id c.id = .ok { m with output := g } ∧ g.Shows [t'] ∧
      (t'.id = (s.under K).id ∧ t'.kind = (s.under K).kind) ∧ t'.Sided bare ∧
      (s.under K).StaysIn t' ∧
      ∃ q ∈ t'.places, q.id = c.id ∧ q.entry = c.entry ∧ q.slot = .member := by
  obtain ⟨K', s', hview, htarget, hs', hK'⟩ := exists_target h.tail ht hs hK
  rw [oppose]
  simp only [htarget]
  rw [hview] at h ht hgroup ⊢
  rcases rightSide?_cases h.tail (Tree.Sided.loosen ht) with
    hright | ⟨G, k, K₀, r, lb, rfl, hG, hk, hbe, haf, hright⟩
  · -- A new conflict takes the place of the node, which is not the top.
    rw [hright]
    obtain ⟨k, K₀, rfl⟩ : ∃ k K₀, K' = k :: K₀ := by
      cases K' with
      | nil => exact absurd hgroup hs'
      | cons k K₀ => exact ⟨k, K₀, rfl⟩
    obtain ⟨g₁, g₂, g₃, g₄, g₅, e₁, e₂, e₃, e₄, e₅, hg⟩ := exists_opposed m.labels h
    refine ⟨g₅, _, ?_, hg, top_under (by simp), ?_, Tree.staysIn_opposed _ _ _ _ _, ?_⟩
    · refine (bind_of_ok e₁ _).trans ?_
      simp only [Forest.snd_alloc, Forest.size_alloc]
      exact (bind_of_ok e₂ _).trans <| (bind_of_ok e₃ _).trans <| (bind_of_ok e₄ _).trans <|
        (bind_of_ok e₅ _).trans rfl
    · have hopposed := Tree.sided_opposed m.output.size m.labels ht.of_under hc
      exact Tree.Sided.replace ht hopposed (hK'.imp_right fun hr => ⟨hr.1, hr.2, rfl⟩)
    · -- The copy is below the right side and the conflict.
      let side : Frame := ⟨m.output.size + 2, {}, [], []⟩
      let conflict : Frame :=
        ⟨m.output.size, { kind := .conflict m.labels }, [.node (m.output.size + 1) {} [s']], []⟩
      exact ⟨c.placeIn (side :: conflict :: k :: K₀), c.placeIn_mem_places _, rfl, rfl, rfl⟩
  · -- The tree joins the right side `r`, which is looked at from within the conflict.
    rw [hright]
    have hr : r.kind = .group := by
      have hframe := Tree.Everywhere.at_frame (s := s'.under G) (K := K₀)
        (by rwa [Tree.under_append] at ht)
      rw [hk, hbe, haf] at hframe
      obtain ⟨a, b, heq, -, hb⟩ := hframe
      rw [show r = b by simpa using congrArg List.getLast? heq]
      exact hb
    have hwithin : s'.under (G ++ k :: K₀) = r.under (⟨k.id, k.entry, [s'.under G], []⟩ :: K₀) := by
      rw [Tree.under_append]
      simp [Tree.under, Frame.fill, hbe, haf]
    obtain ⟨i, e, cs⟩ := r
    have he : e.kind = .group := hr
    rw [hwithin] at h ht ⊢
    obtain ⟨g, hg, -, hshow⟩ := h.attach (by rw [he]; rfl)
    refine ⟨g, _, (bind_of_ok hg _).trans rfl, hshow, top_under fun _ => ⟨rfl, rfl⟩, ?_,
      Tree.staysIn_append _ _ _ _ _, ?_⟩
    · refine Tree.Sided.append ht hc (.inl he) ?_
      intro _ hslot
      simp [Frames.slot, hk, Kind.slot] at hslot
    · refine ⟨c.placeIn (⟨i, e, cs, []⟩ :: ⟨k.id, k.entry, [s'.under G], []⟩ :: K₀),
        c.placeIn_mem_places _, rfl, rfl, ?_⟩
      simp [Tree.placeIn, Frames.slot, he, Kind.slot]

/-- What is found, as a tree, and that it is no right header if those are to be bare. -/
theorem exists_node (h : Rests bare u m t stack) {path : String}
    (hclear : bare = true → u.ClearOf ⟨d, path, stack.map Opened.path⟩) {i : NodeId}
    (hi : m.previous? (stack.map Opened.id) (d.kind.keys path) d.kind = some i) :
    ∃ (K : Frames) (e : Entry) (cs : List Tree), t = (Tree.node i e cs).under K ∧
      e.kind.isDeclaration = true ∧ (bare = true → Frames.slot K ≠ .header .right) ∧
      ∃ key ∈ d.kind.keys path, Origin u key ((Tree.node i e cs).placeIn K) := by
  obtain ⟨p, hp, rfl, hdecl, key, hkey, horigin⟩ := h.exists_found hi
  have hslot : bare = true → p.slot ≠ .header .right := by
    rintro rfl
    exact h.slot_of_found (hclear rfl) hp hi
  obtain ⟨K, ⟨i, e, cs⟩, rfl, rfl⟩ := Tree.mem_places.1 hp
  exact ⟨K, e, cs, rfl, hdecl, hslot, key, hkey, horigin⟩

/-! ## Leaves -/

/-- What agrees with a leaf is one, so it is bare and no header, and the leaf may be folded in. -/
theorem foldLeaf {i : NodeId} {e : Entry} {cs : List Tree} {K : Frames}
    (h : Rests bare u m ((Tree.node i e cs).under K) stack) (hd : d.kind.isContainer = false)
    (hagree : e.kind.agrees d.kind = true) :
    ∃ t', Rests bare u { m with output :=
      (m.output.setKind i (e.kind.fold d.kind)).unionComments i d.comments } t' stack := by
  have hleaf : e.kind.isContainer = false := (Kind.isContainer_eq_of_agrees hagree).trans hd
  obtain ⟨l, hl⟩ := Kind.exists_leaf hleaf
  obtain ⟨l', hl'⟩ := Kind.exists_leaf hd
  have hcs : Tree.SidedAt bare e.kind cs := h.sided.of_under.at_top
  rw [hl] at hcs
  obtain rfl : cs = [] := hcs
  have hmember : Frames.slot K = .member := Tree.Sided.slot_of_leaf h.sided hleaf
  have hfold : e.kind.fold d.kind = .leaf (l.fold l') := by rw [hl, hl']; rfl
  have hshows := (h.shows.setKind (e.kind.fold d.kind)).unionComments d.comments
  refine ⟨_, h.step_output hshows (top_under ?_) ?_
    (Tree.staysIn_entry i K (.inr ⟨rfl, hleaf, by rw [hfold]; rfl⟩))⟩
  · rintro rfl
    have hgroup : e.kind = .group := h.group
    rw [hgroup] at hleaf
    cases hleaf
  · refine Tree.Sided.replace h.sided (Tree.sided_bare i ?_) (.inl hmember)
    show (e.kind.fold d.kind).isConflict = false
    rw [hfold]
    rfl

theorem addLeaf (h : Rests bare u m t stack) (hd : d.kind.isContainer = false) {path : String}
    (hclear : bare = true → u.ClearOf ⟨d, path, stack.map Opened.path⟩) :
    ∃ m' t', m.addLeaf (stack.map Opened.id) path (.node d []) = .ok m' ∧
      Rests bare u m' t' stack := by
  obtain ⟨l, hl⟩ := Kind.exists_leaf hd
  have hbare : ∀ n : NodeId, (Tree.node n d []).Sided bare :=
    fun n => Tree.sided_bare n (by rw [hl]; rfl)
  rw [Merger.addLeaf]
  simp only [Outline.entry]
  cases hprev : m.previous? (stack.map Opened.id) (d.kind.keys path) d.kind with
  | none =>
    obtain ⟨K, e, cs, rfl, he, hK⟩ := h.exists_current
    obtain ⟨hcont, hslot⟩ := Kind.takes_members he cs.isEmpty
    obtain ⟨f, hf, -, hshows⟩ := copyInto_spec h.shows hcont (.node d [])
    refine ⟨_, (Tree.node (currentScope (stack.map Opened.id)) e
      (cs ++ [.node m.output.size d []])).under K, (bind_of_ok hf _).trans rfl, ?_⟩
    have hview : f.Shows [(Outline.number m.output.size (.node d [])).under
        (⟨currentScope (stack.map Opened.id), e, cs, []⟩ :: K)] := hshows
    have hdesc : f.descendants m.output.size = [] := hview.descendants_eq
    rw [registerTree]
    simp only [hdesc, List.foldl_cons, List.foldl_nil]
    refine h.step_register hshows (top_under fun _ => ⟨rfl, rfl⟩)
      (Tree.Sided.append h.sided (hbare _) he hK) (Tree.staysIn_append _ _ _ _ _) h.fresh ?_
    refine ⟨_, Tree.placeIn_mem_places (.node m.output.size d [])
      (⟨currentScope (stack.map Opened.id), e, cs, []⟩ :: K), rfl, ?_, ?_⟩
    · exact Kind.isDeclaration_of_leaf hd
    · simp [Tree.placeIn, Frames.slot, hslot]
  | some i =>
    obtain ⟨K, e, cs, rfl, hdecl, hK, -⟩ := h.exists_node hclear hprev
    have hkind : m.output.kind i = e.kind := h.shows.kind_eq
    simp only [hkind]
    by_cases hagree : e.kind.agrees d.kind = true
    · rw [if_pos hagree]
      obtain ⟨t', hfold⟩ := h.foldLeaf hd hagree
      exact ⟨_, t', rfl, hfold⟩
    · rw [if_neg hagree]
      have hr := h.record (d.kind.keys path) d i
      obtain ⟨hcopy, hid, -⟩ := hr.shows.graft (.node d [])
      simp only [hid]
      obtain ⟨g, t', hg, hshows, htop, hsided, hstays, -⟩ :=
        exists_oppose (m := { m.record (d.kind.keys path) d i with output := _ }) hcopy h.sided
          h.group (hbare _) hdecl hK
      exact ⟨_, t', hg, hr.step_output hshows htop hsided hstays⟩

/-! ## Scopes -/

/-- A scope that was found can be opened. -/
theorem open_found (h : Rests bare u m t stack) (hd : d.kind.isScope = true) {path : String}
    {p : Place} (hp : p ∈ t.places) (hscope : p.kind.isScope = true)
    (hslot : bare = true → p.slot ≠ .header .right) {key : String}
    (hkey : key ∈ d.kind.keys path) (horigin : Origin u key p) :
    Rests bare u m t (⟨p.id, d.kind.within path⟩ :: stack) := by
  refine ⟨h.shows, h.top, h.group, h.sided, h.distinct, h.below, h.entries, h.kept, ?_⟩
  refine List.forall_mem_cons.2 ⟨⟨p, hp, rfl, hscope, hslot, ?_⟩, h.opened⟩
  intro q hq hid
  replace hid : q.id = p.id := hid
  rw [Kind.keys_of_scope hd, List.mem_singleton] at hkey
  cases horigin with
  | @old q' hq' hkeyq hqp =>
    obtain rfl := h.eq_of_id hq' hq (hqp.id_eq.symm.trans hid.symm)
    have hkind : p.kind = q'.kind := hqp.kind_eq (.inr (Kind.isContainer_of_scope hscope))
    rw [hkind] at hscope
    have hone : q'.keys = [q'.kind.within q'.path] := Kind.keys_of_scope hscope q'.path
    rw [hone, List.mem_singleton] at hkeyq
    rw [hone, ← hkeyq, hkey]
  | new hnot _ =>
    refine absurd ?_ hnot
    rw [← hid, ← Tree.map_id_places]
    exact List.mem_map_of_mem hq

/-- A scope that is new can be opened. -/
theorem open_new (h : Rests bare u m t stack) {n : NodeId} (hn : n ∉ u.ids)
    (hp : ∃ p ∈ t.places, p.id = n ∧ p.kind.isScope = true ∧ p.slot = .member) (path : String) :
    Rests bare u m t (⟨n, path⟩ :: stack) := by
  obtain ⟨p, hp, rfl, hscope, hslot⟩ := hp
  refine ⟨h.shows, h.top, h.group, h.sided, h.distinct, h.below, h.entries, h.kept, ?_⟩
  refine List.forall_mem_cons.2 ⟨⟨p, hp, rfl, hscope, fun _ => by rw [hslot]; nofun, ?_⟩, h.opened⟩
  intro q hq hid
  replace hid : q.id = p.id := hid
  refine absurd ?_ hn
  rw [← hid, ← Tree.map_id_places]
  exact List.mem_map_of_mem hq

theorem newScope (h : Rests bare u m t stack) (hd : d.kind.isScope = true) (path : String) :
    ∃ m' t' i, m.newScope (stack.map Opened.id) d = .ok (m', i) ∧
      Rests bare u m' t' (⟨i, path⟩ :: stack) := by
  obtain ⟨K, e, cs, rfl, he, hK⟩ := h.exists_current
  have hslot := Kind.takes_members he cs.isEmpty
  obtain ⟨f, hf, -, hshows⟩ := (h.shows.alloc d).attach hslot.1
  have hplace : ∃ q ∈ ((Tree.node (currentScope (stack.map Opened.id)) e
      (cs ++ [.node m.output.size d []])).under K).places, q.id = m.output.size ∧
      q.kind.isScope = true ∧ q.slot = .member := by
    refine ⟨_, Tree.placeIn_mem_places (.node m.output.size d [])
      (⟨currentScope (stack.map Opened.id), e, cs, []⟩ :: K), rfl, hd, ?_⟩
    exact hslot.2
  have hrests := h.step_register hshows (top_under fun _ => ⟨rfl, rfl⟩)
    (Tree.Sided.append h.sided (Tree.sided_bare _ (Kind.isConflict_of_scope hd)) he hK)
    (Tree.staysIn_append _ _ _ _ _) h.fresh (by
      obtain ⟨q, hq, hid, hscope, hmember⟩ := hplace
      exact ⟨q, hq, hid, Kind.isDeclaration_of_scope hscope, by rw [hmember]; nofun⟩)
  exact ⟨_, _, m.output.size, (bind_of_ok hf _).trans rfl, hrests.open_new h.fresh hplace path⟩

theorem scopeAgainstLeaf (h : Rests bare u m t stack) (hd : d.kind.isScope = true)
    (keys : List String) {s : Tree} {K : Frames} (ht : t = s.under K)
    (hs : s.kind.isDeclaration = true) (hK : bare = true → Frames.slot K ≠ .header .right)
    (path : String) :
    ∃ m' t' i, m.scopeAgainstLeaf keys d s.id = .ok (m', i) ∧
      Rests bare u m' t' (⟨i, path⟩ :: stack) := by
  subst ht
  have hr := h.record keys d s.id
  obtain ⟨g, t', hg, hshows, htop, hsided, hstays, q, hq, hid, hentry, hmember⟩ :=
    exists_oppose (m := { m.record keys d s.id with output := _ }) (hr.shows.alloc d) h.sided h.group
      (Tree.sided_bare _ (Kind.isConflict_of_scope hd)) hs hK
  have hscope : q.kind.isScope = true := by
    rw [Place.kind, hentry]
    exact hd
  have hrests := hr.step_register hshows htop hsided hstays h.fresh
    ⟨q, hq, hid, Kind.isDeclaration_of_scope hscope, by rw [hmember]; nofun⟩
  exact ⟨_, t', m.output.size, (bind_of_ok hg _).trans rfl,
    hrests.open_new h.fresh ⟨q, hq, hid, hscope, hmember⟩ path⟩

/-- A header can be merged into every scope that may be found. -/
theorem scopeIntoScope (h : Rests bare u m t stack) (hd : d.kind.isScope = true)
    (keys : List String) {i : NodeId} {e : Entry} {cs : List Tree} {K : Frames}
    (ht : t = (Tree.node i e cs).under K) (he : e.kind.isScope = true)
    (hK : bare = true → Frames.slot K ≠ .header .right) :
    ∃ m' t', m.scopeIntoScope keys d i = .ok m' ∧ Rests bare u m' t' stack ∧ t.StaysIn t' := by
  subst ht
  have hkind : m.output.kind i = e.kind := h.shows.kind_eq
  have hstays : ((Tree.node i e cs).under K).StaysIn
      ((Tree.node i (e.addComments d.comments) cs).under K) := Tree.staysIn_entry i K (.inl rfl)
  have hfold : Rests bare u { m with output := m.output.unionComments i d.comments }
      ((Tree.node i (e.addComments d.comments) cs).under K) stack := by
    refine h.step_output (h.shows.unionComments d.comments) (top_under fun _ => ⟨rfl, rfl⟩) ?_ hstays
    have hat : Tree.SidedAt bare e.kind cs := h.sided.of_under.at_top
    exact Tree.Sided.replace_same h.sided
      (.node hat fun c hc => h.sided.of_under.of_mem hc) rfl fun _ _ => rfl
  have hr := h.record keys d i
  rw [Merger.scopeIntoScope, hkind]
  cases hother : otherHeader? m.output i with
  | some b =>
    simp only
    by_cases hagree : (e.kind.agrees d.kind || (m.output.kind b).agrees d.kind) = true
    · rw [if_pos hagree]
      exact ⟨_, _, rfl, hfold, hstays⟩
    · rw [if_neg hagree]
      exact ⟨_, _, rfl, hr, .refl _⟩
  | none =>
    simp only
    by_cases hagree : e.kind.agrees d.kind = true
    · rw [if_pos hagree]
      exact ⟨_, _, rfl, hfold, hstays⟩
    · -- A left header would have found the other one, so this is a member or a right header.
      rw [if_neg hagree]
      obtain ⟨sc, hsc⟩ := Kind.exists_scope he
      have hne : (Tree.node i e cs).kind ≠ .group := by
        rw [show (Tree.node i e cs).kind = .scope sc from hsc]
        exact Kind.noConfusion
      obtain ⟨k, K, rfl⟩ : ∃ k K', K = k :: K' := by
        cases K with
        | nil => exact absurd h.group hne
        | cons k K => exact ⟨k, K, rfl⟩
      have hslot : Frames.slot (k :: K) = .member ∨
          Frames.slot (k :: K) = .header .right ∧ bare = false := by
        rcases Tree.Sided.slot_of_declaration h.sided hne with hslot | ⟨hslot, -⟩ | hslot
        · exact .inl hslot
        · obtain ⟨k', K', b, l, heq, hk, hbe, haf, -⟩ := Tree.Sided.of_left_header h.sided hslot
          obtain ⟨rfl, rfl⟩ := List.cons.inj heq
          have hsome := otherHeader?_left h.shows hk hbe haf
          rw [show (Tree.node i e cs).id = i from rfl, hother] at hsome
          cases hsome
        · cases bare with
          | false => exact .inr ⟨hslot, rfl⟩
          | true => exact absurd hslot (hK rfl)
      obtain ⟨g₁, g₂, g₃, e₁, e₂, e₃, hshows⟩ := exists_opposedHeaders m.labels d h.shows
      have hheaders := Tree.sided_opposedHeaders m.output.size m.labels (d := d) h.sided.of_under he hd
      refine ⟨{ m.record keys d i with output := g₃ }, _, ?_,
        hr.step_output hshows (top_under (by simp))
          (Tree.Sided.replace h.sided hheaders (hslot.imp_right fun hr => ⟨hr.1, hr.2, rfl⟩))
          (Tree.staysIn_opposedHeaders _ _ _ _ _), Tree.staysIn_opposedHeaders _ _ _ _ _⟩
      exact (bind_of_ok e₁ _).trans <| (bind_of_ok e₂ _).trans <| (bind_of_ok e₃ _).trans rfl

theorem openScope (h : Rests bare u m t stack) (hd : d.kind.isScope = true) {path : String}
    (hclear : bare = true → u.ClearOf ⟨d, path, stack.map Opened.path⟩) :
    ∃ m' t' i, m.openScope (stack.map Opened.id) path d = .ok (m', i) ∧
      Rests bare u m' t' (⟨i, d.kind.within path⟩ :: stack) := by
  rw [Merger.openScope]
  cases hprev : m.previous? (stack.map Opened.id) (d.kind.keys path) d.kind with
  | none => exact h.newScope hd _
  | some i =>
    obtain ⟨K, e, cs, rfl, hdecl, hK, key, hkey, horigin⟩ := h.exists_node hclear hprev
    have hkind : m.output.kind i = e.kind := h.shows.kind_eq
    simp only [hkind]
    by_cases hscope : e.kind.isScope = true
    · rw [if_pos hscope]
      obtain ⟨m', t', hm, hrests, hstays⟩ := h.scopeIntoScope hd (d.kind.keys path) rfl hscope hK
      obtain ⟨q, hq, hpq⟩ := hstays _ (Tree.placeIn_mem_places (.node i e cs) K)
      have hqkind : q.kind = e.kind := hpq.kind_eq (.inl (Kind.isContainer_of_scope hscope))
      have horigin' : Origin u key q := by
        cases horigin with
        | old hw hkeyw hwp => exact .old hw hkeyw (hwp.trans hpq)
        | new hnot hslot => exact .new (hpq.id_eq ▸ hnot) fun hr => hslot (hpq.slot hr)
      refine ⟨m', t', i, (bind_of_ok hm _).trans rfl, ?_⟩
      have hopen := hrests.open_found hd hq (by rw [hqkind, hscope])
        (fun hbare hr => hK hbare (hpq.slot hr)) hkey horigin'
      rwa [show q.id = i from hpq.id_eq] at hopen
    · rw [if_neg hscope]
      exact h.scopeAgainstLeaf hd _ rfl hdecl hK _

/-! ## Passes -/

theorem unionComments (h : Rests bare u m t stack) (xs : List String) :
    ∃ t', Rests bare u { m with
      output := m.output.unionComments (currentScope (stack.map Opened.id)) xs } t' stack := by
  obtain ⟨K, e, cs, rfl, -, -⟩ := h.exists_current
  refine ⟨_, h.step_output (h.shows.unionComments xs) (top_under fun _ => ⟨rfl, rfl⟩) ?_
    (Tree.staysIn_entry _ K (.inl rfl))⟩
  have hat : Tree.SidedAt bare e.kind cs := h.sided.of_under.at_top
  exact Tree.Sided.replace_same h.sided (.node hat fun c hc => h.sided.of_under.of_mem hc) rfl
    fun _ _ => rfl

mutual
/-- Every outline without conflicts can be merged into the scope that is open. -/
theorem visit {bare : Bool} {u : Tree} : ∀ (o : Outline) {m : Merger} {t : Tree}
    {stack : List Opened} {path : String}, o.isConflictFree = true → Rests bare u m t stack →
    (bare = true → ∀ d ∈ o.declarationsIn path (stack.map Opened.path), u.ClearOf d) →
    ∃ m' t', m.visit (stack.map Opened.id) path o = .ok m' ∧ Rests bare u m' t' stack
  | .node e cs, m, t, stack, path, ho, h, hclear => by
    obtain ⟨hconf, hbelow, hcs⟩ := Outline.isConflictFree_node.1 ho
    rw [Outline.declarationsIn] at hclear
    rw [Merger.visit]
    cases hk : e.kind with
    | group =>
      simp only [hk] at hclear
      obtain ⟨t₁, h₁⟩ := h.unionComments e.comments
      exact visitAll cs hcs h₁ hclear
    | conflict l | scopeConflict l => simp [hk, Kind.isConflict] at hconf
    | scope sc =>
      simp only [hk] at hclear
      have hscope : e.kind.isScope = true := by
        rw [hk]
        rfl
      obtain ⟨m₁, t₁, i, hopen, h₁⟩ :=
        h.openScope hscope fun hbare => hclear hbare _ List.mem_cons_self
      rw [hk] at h₁
      obtain ⟨m₂, t₂, hall, h₂⟩ := visitAll cs hcs h₁
        fun hbare d hd => hclear hbare d (List.mem_cons_of_mem _ hd)
      exact ⟨m₂, t₂, (bind_of_ok hopen _).trans hall, h₂.close⟩
    | leaf l =>
      simp only [hk] at hclear
      have hleaf : e.kind.isContainer = false := by
        rw [hk]
        rfl
      obtain rfl := hbelow hleaf
      exact h.addLeaf hleaf fun hbare => hclear hbare _ List.mem_cons_self
theorem visitAll {bare : Bool} {u : Tree} : ∀ (os : List Outline) {m : Merger} {t : Tree}
    {stack : List Opened} {path : String}, Outline.areConflictFree os = true →
    Rests bare u m t stack →
    (bare = true → ∀ d ∈ Outline.declarationsOf path (stack.map Opened.path) os, u.ClearOf d) →
    ∃ m' t', m.visitAll (stack.map Opened.id) path os = .ok m' ∧ Rests bare u m' t' stack
  | [], m, t, _, _, _, h, _ => ⟨m, t, rfl, h⟩
  | o :: os, m, t, stack, path, hos, h, hclear => by
    obtain ⟨ho, hos⟩ := Outline.areConflictFree_cons.1 hos
    rw [Outline.declarationsOf] at hclear
    obtain ⟨m₁, t₁, hvisit, h₁⟩ :=
      visit o ho h fun hbare d hd => hclear hbare d (List.mem_append_left _ hd)
    obtain ⟨m₂, t₂, hall, h₂⟩ :=
      visitAll os hos h₁ fun hbare d hd => hclear hbare d (List.mem_append_right _ hd)
    exact ⟨m₂, t₂, (bind_of_ok hvisit _).trans hall, h₂⟩
end

/-- An outline without conflicts can be taken in after any other. -/
theorem add (h : Rests bare u m t []) (hstarted : m.started = true) {s : Source}
    (hs : s.root.isConflictFree = true) (hclear : bare = true → ∀ d ∈ s.declarations, u.ClearOf d) :
    ∃ m' t', m.add s = .ok m' ∧ Rests bare u m' t' [] := by
  obtain ⟨⟨e, cs⟩, path⟩ := s
  obtain ⟨-, -, hcs⟩ := Outline.isConflictFree_node.1 hs
  obtain ⟨t₁, h₁⟩ := h.unionComments e.comments
  rw [Merger.add, if_pos hstarted]
  exact visitAll (m := { m with output := _, started := true }) cs hcs
    ⟨h₁.shows, h₁.top, h₁.group, h₁.sided, h₁.distinct, h₁.below, h₁.entries, h₁.kept, h₁.opened⟩
    hclear

end Rests

end Merger

end StubMerge
