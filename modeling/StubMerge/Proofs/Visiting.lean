import StubMerge.Proofs.Standing

/-!
# What visiting a declaration does

`AddsLeaf` and `OpensScope` say all that a merge can do with one declaration: three cases for a
leaf, six for a scope. `addLeaf_spec` and `openScope_spec` say that visiting a declaration never
fails, does one of these things, and leaves a merge that stands. Whatever holds of every merge is
proved by going through these nine cases, without looking at an edit again.
-/

namespace StubMerge

/-- An entry with what an entry that agrees with it says besides. -/
def Entry.fold (e d : Entry) : Entry :=
  { e with kind := e.kind.fold d.kind }.addComments d.comments

theorem Entry.growsTo_fold {e d : Entry} (h : e.kind.agrees d.kind = true) :
    e.GrowsTo (e.fold d) :=
  ⟨Kind.growsTo_fold h, List.isPrefix_appendNew _ _, rfl⟩

namespace Merger

variable {m m' : Merger} {t t' : Tree} {scopes : List NodeId} {keys : List String} {d : Entry}

/-! ## Leaves -/

/-- What a merge does with a leaf `d` that goes by `keys`, while `scopes` are open: it is new, it
is folded into a leaf that agrees, or it is set against what does not agree. -/
inductive AddsLeaf (m : Merger) (scopes : List NodeId) (keys : List String) (d : Entry) :
    Tree → Merger → Tree → Prop
  | new {K : Frames} {e : Entry} {cs : List Tree} {m' : Merger} :
      m.previous? scopes keys d.kind = none → e.kind.isConflict = false →
      (Frames.slot K = .member ∨ Frames.slot K = .header .left) → m'.conflicts = m.conflicts →
      AddsLeaf m scopes keys d ((Tree.node (currentScope scopes) e cs).under K) m'
        ((Tree.node (currentScope scopes) e (cs ++ [.node m.output.size d []])).under K)
  | fold {K : Frames} {i : NodeId} {e : Entry} {m' : Merger} :
      m.previous? scopes keys d.kind = some i → ((Tree.node i e []).placeIn K).listed = true →
      e.kind.agrees d.kind = true → m'.conflicts = m.conflicts →
      AddsLeaf m scopes keys d ((Tree.node i e []).under K) m' ((Tree.node i (e.fold d) []).under K)
  | oppose {p : Place} {t t' : Tree} {m' : Merger} :
      m.previous? scopes keys d.kind = some p.id → p ∈ t.places → p.listed = true →
      p.kind.agrees d.kind = false → m'.conflicts = (m.record keys d p.id).conflicts →
      Sets m.labels (m.output.size + 1) p (.node m.output.size d []) t t' →
      AddsLeaf m scopes keys d t m' t'

/-- A leaf can be added to every merge that stands. -/
theorem addLeaf_spec (h : m.Stands t) (ho : Open t scopes) (hd : d.kind.isContainer = false)
    (path : String) :
    ∃ m' t', m.addLeaf scopes path (.node d []) = .ok m' ∧ m'.Stands t' ∧
      m'.labels = m.labels ∧ m'.started = m.started ∧
      AddsLeaf m scopes (d.kind.keys path) d t m' t' := by
  obtain ⟨l, hl⟩ := Kind.exists_leaf hd
  rw [addLeaf]
  simp only [Outline.entry]
  cases hprev : m.previous? scopes (d.kind.keys path) d.kind with
  | none =>
    obtain ⟨K, e, cs, rfl, he, hcont, hK⟩ := h.exists_current ho
    have hfree : (Outline.node d []).isConflictFree = true :=
      Outline.isConflictFree_node.2 ⟨by rw [hl]; rfl, fun _ => rfl, rfl⟩
    obtain ⟨f, hf, -, hstands⟩ := h.copyInto hfree he hcont hK
    exact ⟨_, _, (bind_of_ok hf _).trans rfl, hstands, rfl, rfl, .new hprev he hK rfl⟩
  | some i =>
    obtain ⟨p, hp, rfl, hlist⟩ := h.exists_previous hprev
    have hkind : m.output.kind p.id = p.kind := h.shows.kind_of_mem hp
    simp only [hkind]
    by_cases hagree : p.kind.agrees d.kind = true
    · -- What agrees with a leaf is one, so it is bare and no header.
      rw [if_pos hagree]
      obtain ⟨K, ⟨i, e, cs⟩, rfl, rfl⟩ := Tree.mem_places.1 hp
      obtain ⟨l', hl'⟩ : ∃ l', e.kind = .leaf l' := by
        have hagree' : e.kind.agrees d.kind = true := hagree
        rw [hl] at hagree'
        cases hk : e.kind with
        | leaf l' => exact ⟨l', rfl⟩
        | _ => simp [hk, Kind.agrees] at hagree'
      have hcs : Tree.ShapeAt e.kind cs := h.shaped.of_under.at_top
      rw [hl'] at hcs
      obtain rfl : cs = [] := hcs
      have hK : Frames.slot K = .member := by
        rcases Place.slot_of_listed h.shaped hlist with hK | ⟨-, hs⟩
        · exact hK
        · rw [show (Tree.node i e []).kind = .leaf l' from hl'] at hs
          cases hs
      have hshows := (h.shows.setKind (e.kind.fold d.kind)).unionComments d.comments
      obtain ⟨hstands, -⟩ := h.setEntry (Entry.growsTo_fold hagree) (.inr ⟨rfl, hK⟩) hshows
      exact ⟨_, _, rfl, hstands, rfl, rfl, .fold hprev hlist hagree rfl⟩
    · rw [if_neg hagree]
      have hr := h.record (d.kind.keys path) d p.id
      obtain ⟨hcopy, hid, hsize⟩ := hr.shows.graft (.node d [])
      obtain ⟨g, t', W, i, a, hg, hshows, hsets, hgrown, hW, htop, hshaped⟩ :=
        hr.oppose hcopy (by rw [hl]; rfl) hp hlist
      simp only [hid]
      refine ⟨_, t', hg, hr.of_grown hgrown hshows htop hshaped fun key j => ?_, rfl, rfl,
        .oppose hprev hp hlist (by simpa using hagree) rfl ?_⟩
      · -- The leaf is on a right side, so nothing new is listed.
        refine (or_iff_left ?_).symm
        rintro ⟨q, hq, hlq, -, -⟩
        rcases List.mem_append.1 hq with hq | hq
        · exact absurd hlq (by simp [hW q hq])
        · rw [List.mem_singleton.1 hq] at hlq
          simp [Place.listed, Place.kind, hl] at hlq
      · rw [hsize] at hsets
        exact hsets

/-! ## Scopes -/

/-- What a merge does with a scope header `d` that goes by `keys`, while `scopes` are open: it is
new; it is set against a leaf; it is folded into a scope that agrees, or whose other header
agrees; it is a third header, which is only recorded; or it becomes a second header. The number
is that of the node which the body goes into. -/
inductive OpensScope (m : Merger) (scopes : List NodeId) (keys : List String) (d : Entry) :
    Tree → Merger → Tree → NodeId → Prop
  | new {K : Frames} {e : Entry} {cs : List Tree} {m' : Merger} :
      m.previous? scopes keys d.kind = none → e.kind.isConflict = false →
      (Frames.slot K = .member ∨ Frames.slot K = .header .left) → m'.conflicts = m.conflicts →
      OpensScope m scopes keys d ((Tree.node (currentScope scopes) e cs).under K) m'
        ((Tree.node (currentScope scopes) e (cs ++ [.node m.output.size d []])).under K)
        m.output.size
  | oppose {p : Place} {t t' : Tree} {m' : Merger} :
      m.previous? scopes keys d.kind = some p.id → p ∈ t.places → p.listed = true →
      p.kind.isScope = false → m'.conflicts = (m.record keys d p.id).conflicts →
      Sets m.labels (m.output.size + 1) p (.node m.output.size d []) t t' →
      OpensScope m scopes keys d t m' t' m.output.size
  | fold {K : Frames} {i : NodeId} {e : Entry} {cs : List Tree} {m' : Merger} :
      m.previous? scopes keys d.kind = some i → e.kind.isScope = true →
      e.kind.agrees d.kind = true → m'.conflicts = m.conflicts →
      OpensScope m scopes keys d ((Tree.node i e cs).under K) m'
        ((Tree.node i (e.addComments d.comments) cs).under K) i
  | foldOther {k : Frame} {K : Frames} {i : NodeId} {e : Entry} {cs : List Tree} {b : Tree}
      {l : Labels} {m' : Merger} :
      m.previous? scopes keys d.kind = some i → k.entry.kind = .scopeConflict l → k.before = [] →
      k.after = [b] → e.kind.isScope = true → e.kind.agrees d.kind = false →
      b.kind.agrees d.kind = true → m'.conflicts = m.conflicts →
      OpensScope m scopes keys d ((Tree.node i e cs).under (k :: K)) m'
        ((Tree.node i (e.addComments d.comments) cs).under (k :: K)) i
  | third {k : Frame} {K : Frames} {i : NodeId} {e : Entry} {cs : List Tree} {b : Tree}
      {l : Labels} {m' : Merger} :
      m.previous? scopes keys d.kind = some i → k.entry.kind = .scopeConflict l → k.before = [] →
      k.after = [b] → e.kind.isScope = true → e.kind.agrees d.kind = false →
      b.kind.agrees d.kind = false → m'.conflicts = (m.record keys d i).conflicts →
      OpensScope m scopes keys d ((Tree.node i e cs).under (k :: K)) m'
        ((Tree.node i e cs).under (k :: K)) i
  | second {K : Frames} {i : NodeId} {e : Entry} {cs : List Tree} {m' : Merger} :
      m.previous? scopes keys d.kind = some i → Frames.slot K = .member →
      e.kind.isScope = true → e.kind.agrees d.kind = false →
      m'.conflicts = (m.record keys d i).conflicts →
      OpensScope m scopes keys d ((Tree.node i e cs).under K) m'
        ((Tree.opposedHeaders m.output.size m.labels (.node i e cs) d).under K) i

theorem newScope_spec (h : m.Stands t) (ho : Open t scopes) (hd : d.kind.isScope = true)
    (hprev : m.previous? scopes keys d.kind = none) :
    ∃ m' t', m.newScope scopes d = .ok (m', m.output.size) ∧ m'.Stands t' ∧
      m'.labels = m.labels ∧ m'.started = m.started ∧
      OpensScope m scopes keys d t m' t' m.output.size := by
  obtain ⟨K, e, cs, rfl, he, hcont, hK⟩ := h.exists_current ho
  have halloc := h.shows.alloc d
  obtain ⟨f, hf, -, hshows⟩ := halloc.attach hcont
  obtain ⟨sc, hsc⟩ := Kind.exists_scope hd
  have hg : Grown _ ((Tree.node (currentScope scopes) e cs).under K).places _ :=
    Tree.grown_append (.node m.output.size d []) he
  have hshaped := Stands.shaped_append h.shaped (c := .node m.output.size d [])
    (.node (by rw [hsc]; trivial) (by simp)) he hcont hK
  have hlisted : Place.listed ⟨m.output.size, d, .member,
      ⟨currentScope scopes, e.kind, Frames.slot K⟩ :: Frames.steps K⟩ = true := by
    simp [Place.listed, Place.kind, hsc]
  refine ⟨{ m with output := f, index := f.register m.index m.output.size }, _,
    (bind_of_ok hf _).trans rfl, ?_, rfl, rfl, .new hprev he hK rfl⟩
  exact h.of_grown_register (W := []) hg (by simp) hlisted hshows
    (top_under fun _ => ⟨rfl, rfl⟩) hshaped rfl

theorem scopeAgainstLeaf_spec (h : m.Stands t) (hd : d.kind.isScope = true) {p : Place}
    (hprev : m.previous? scopes keys d.kind = some p.id) (hp : p ∈ t.places)
    (hl : p.listed = true) (hleaf : p.kind.isScope = false) :
    ∃ m' t', m.scopeAgainstLeaf keys d p.id = .ok (m', m.output.size) ∧ m'.Stands t' ∧
      m'.labels = m.labels ∧ m'.started = m.started ∧
      OpensScope m scopes keys d t m' t' m.output.size := by
  obtain ⟨sc, hsc⟩ := Kind.exists_scope hd
  have hr := h.record keys d p.id
  have halloc := hr.shows.alloc d
  obtain ⟨g, t', W, i, a, hg, hshows, hsets, hgrown, hW, htop, hshaped⟩ :=
    hr.oppose halloc (by rw [hsc]; trivial) hp hl
  have hlisted : Place.listed
      ⟨m.output.size, d, .member, ⟨i, .group, .side .right⟩ :: a⟩ = true := by
    simp [Place.listed, Place.kind, hsc]
  rw [Forest.size_alloc] at hsets
  refine ⟨{ m.record keys d p.id with output := g, index := g.register m.index m.output.size }, t',
    (bind_of_ok hg _).trans rfl, ?_, rfl, rfl, .oppose hprev hp hl hleaf rfl hsets⟩
  exact hr.of_grown_register hgrown hW hlisted hshows htop hshaped rfl

/-- The edits that put a second header beside that of a scope below the top. -/
theorem exists_opposedHeaders {f : Forest} (l : Labels) {s : Tree} {k : Frame} {K : Frames}
    (d : Entry) (h : f.Shows [s.under (k :: K)]) :
    ∃ g₁ g₂ g₃, (f.alloc { kind := .scopeConflict l }).1.replace s.id f.size = .ok g₁ ∧
      g₁.attach f.size s.id = .ok g₂ ∧
      (g₂.alloc d).1.attach f.size g₂.size = .ok g₃ ∧
      g₃.Shows [(Tree.opposedHeaders f.size l s d).under (k :: K)] := by
  obtain ⟨g₁, e₁, hsize₁, h₁⟩ := (h.alloc { kind := .scopeConflict l }).replace
  obtain ⟨g₂, e₂, hsize₂, h₂⟩ := h₁.attach rfl
  obtain ⟨g₃, e₃, -, h₃⟩ := (h₂.alloc d).attach rfl
  rw [hsize₂, hsize₁, Forest.size_alloc] at h₃
  exact ⟨g₁, g₂, g₃, e₁, e₂, e₃, h₃⟩

theorem opposeHeader_spec {K : Frames} {i : NodeId} {e : Entry} {cs : List Tree}
    (h : m.Stands ((Tree.node i e cs).under K)) (hd : d.kind.isScope = true)
    (hK : Frames.slot K = .member) (he : e.kind.isScope = true)
    (hagree : e.kind.agrees d.kind = false) :
    ∃ f, m.opposeHeader i d = .ok { m with output := f } ∧
      ({ m with output := f } : Merger).Stands
        ((Tree.opposedHeaders m.output.size m.labels (.node i e cs) d).under K) := by
  obtain ⟨sa, hsa⟩ := Kind.exists_scope he
  obtain ⟨sb, hsb⟩ := Kind.exists_scope hd
  obtain ⟨k, K, rfl⟩ : ∃ k K', K = k :: K' := by
    cases K with
    | nil => exact absurd (h.group.symm.trans hsa) (by simp)
    | cons k K => exact ⟨k, K, rfl⟩
  obtain ⟨g₁, g₂, g₃, e₁, e₂, e₃, hshows⟩ := exists_opposedHeaders m.labels d h.shows
  refine ⟨g₃, ?_, ?_⟩
  · exact (bind_of_ok e₁ _).trans <| (bind_of_ok e₂ _).trans <| (bind_of_ok e₃ _).trans rfl
  · refine h.of_grown (Tree.grown_opposedHeaders hK he) hshows (top_under (by simp))
      (h.shaped.replace_member hK ?_) fun key j => ?_
    · rw [hsa, hsb] at hagree
      refine .node ⟨_, _, sa, sb, rfl, hsa, hsb, hagree, rfl⟩ fun c hc => ?_
      rcases List.mem_pair.1 hc with rfl | rfl
      · exact h.shaped.of_under
      · exact .node (by rw [hsb]; trivial) (by simp)
    · -- Neither the conflict nor the second header is listed.
      refine (or_iff_left ?_).symm
      rintro ⟨q, hq, hl, -, -⟩
      rcases List.mem_pair.1 hq with rfl | rfl
      · cases hl
      · simp [Place.listed, Place.kind, hsb] at hl

theorem scopeIntoScope_spec (h : m.Stands t) (hd : d.kind.isScope = true) {p : Place}
    (hprev : m.previous? scopes keys d.kind = some p.id) (hp : p ∈ t.places)
    (hl : p.listed = true) (hscope : p.kind.isScope = true) :
    ∃ m' t', m.scopeIntoScope keys d p.id = .ok m' ∧ m'.Stands t' ∧
      m'.labels = m.labels ∧ m'.started = m.started ∧
      OpensScope m scopes keys d t m' t' p.id := by
  obtain ⟨K, ⟨i, e, cs⟩, rfl, rfl⟩ := Tree.mem_places.1 hp
  have hkind : m.output.kind i = e.kind := h.shows.kind_of_mem hp
  obtain ⟨hfold, -⟩ := h.unionComments d.comments
  rw [show ((Tree.node i e cs).placeIn K).id = i from rfl] at hprev ⊢
  rw [scopeIntoScope, hkind]
  rcases Place.slot_of_listed h.shaped hl with hK | ⟨hK, -⟩
  · have hother : otherHeader? m.output i = none :=
      otherHeader?_eq_none h.shows (h.shaped.sided _) (by simp [hK])
    simp only [hother]
    by_cases hagree : e.kind.agrees d.kind = true
    · rw [if_pos hagree]
      exact ⟨_, _, rfl, hfold, rfl, rfl, .fold hprev hscope hagree rfl⟩
    · rw [if_neg hagree]
      rw [Bool.not_eq_true] at hagree
      obtain ⟨f, hf, hstands⟩ := opposeHeader_spec (h.record keys d i) hd hK hscope hagree
      exact ⟨_, _, hf, hstands, rfl, rfl, .second hprev hK hscope hagree rfl⟩
  · obtain ⟨k, K, b, sa, sb, rfl, ⟨lb, hk⟩, hbe, haf, -⟩ := h.shaped.of_left_header hK
    have hother : otherHeader? m.output i = some b.id := otherHeader?_left h.shows hk hbe haf
    have hkindb : m.output.kind b.id = b.kind := by
      have hview : (Tree.node i e cs).under (k :: K) =
          b.under (⟨k.id, k.entry, [.node i e cs], []⟩ :: K) := by
        simp [Tree.under, Frame.fill, hbe, haf]
      have hshows := h.shows
      rw [hview] at hshows
      exact hshows.kind_eq
    simp only [hother, hkindb]
    by_cases hagree : e.kind.agrees d.kind = true
    · rw [if_pos (by simp [hagree])]
      exact ⟨_, _, rfl, hfold, rfl, rfl, .fold hprev hscope hagree rfl⟩
    · rw [Bool.not_eq_true] at hagree
      by_cases hagreeb : b.kind.agrees d.kind = true
      · rw [if_pos (by simp [hagreeb])]
        exact ⟨_, _, rfl, hfold, rfl, rfl, .foldOther hprev hk hbe haf hscope hagree hagreeb
          rfl⟩
      · rw [if_neg (by simp [hagree, hagreeb])]
        rw [Bool.not_eq_true] at hagreeb
        exact ⟨_, _, rfl, h.record keys d i, rfl, rfl,
          .third hprev hk hbe haf hscope hagree hagreeb rfl⟩

/-- A scope can be opened in every merge that stands. -/
theorem openScope_spec (h : m.Stands t) (ho : Open t scopes) (hd : d.kind.isScope = true)
    (path : String) :
    ∃ m' t' i, m.openScope scopes path d = .ok (m', i) ∧ m'.Stands t' ∧
      m'.labels = m.labels ∧ m'.started = m.started ∧
      OpensScope m scopes (d.kind.keys path) d t m' t' i := by
  rw [openScope]
  cases hprev : m.previous? scopes (d.kind.keys path) d.kind with
  | none =>
    obtain ⟨m', t', hm, hrest⟩ := newScope_spec h ho hd hprev
    exact ⟨m', t', _, hm, hrest⟩
  | some i =>
    obtain ⟨p, hp, rfl, hl⟩ := h.exists_previous hprev
    have hkind : m.output.kind p.id = p.kind := h.shows.kind_of_mem hp
    simp only [hkind]
    by_cases hscope : p.kind.isScope = true
    · rw [if_pos hscope]
      obtain ⟨m', t', hm, hrest⟩ := scopeIntoScope_spec h hd hprev hp hl hscope
      exact ⟨m', t', p.id, (bind_of_ok hm _).trans rfl, hrest⟩
    · rw [if_neg hscope]
      obtain ⟨m', t', hm, hrest⟩ :=
        scopeAgainstLeaf_spec h hd hprev hp hl (by simpa using hscope)
      exact ⟨m', t', _, hm, hrest⟩

end Merger

end StubMerge
