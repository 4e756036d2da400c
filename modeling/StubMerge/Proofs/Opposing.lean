import StubMerge.Proofs.Finding
import StubMerge.Proofs.Growth

/-!
# Setting a tree against a node

`Merger.oppose` puts a tree that is new against a node that is there. There are two ways in which
it can go: the node already stands on the left of a conflict, and the tree joins the right side;
or a new conflict takes the place of the node. `Merger.Sets` names the two, and `oppose_spec` says
that the edit never fails and is one of them. Either way every place is kept
(`Sets.grown`), and the shape of the whole is as it should be (`Sets.shaped`).
-/

namespace StubMerge

namespace Frames

theorem mem_steps_append (G : Frames) (k : Frame) (K : Frames) :
    ⟨k.id, k.entry.kind, slot K⟩ ∈ steps (G ++ k :: K) := by
  induction G with
  | nil => simp [steps]
  | cons g G ih => exact List.mem_cons_of_mem _ ih

theorem steps_sublist (G K : Frames) : (steps K).Sublist (steps (G ++ K)) := by
  induction G with
  | nil => exact .refl _
  | cons g G ih => exact ih.cons _

end Frames

namespace Place

variable {p : Place}

/-- What is listed is a declaration. -/
theorem kind_of_listed (h : p.listed = true) :
    (∃ s, p.kind = .scope s ∧ p.slot ≠ .header .right) ∨ ∃ l, p.kind = .leaf l := by
  unfold listed at h
  cases hk : p.kind with
  | scope s => exact .inl ⟨s, rfl, by simpa [hk] using h⟩
  | leaf l => exact .inr ⟨l, rfl⟩
  | _ => simp [hk] at h

/-- What is listed is a member or a left header. -/
theorem slot_of_listed {s : Tree} {K : Frames} (hs : (s.under K).Shaped)
    (h : (s.placeIn K).listed = true) :
    Frames.slot K = .member ∨ Frames.slot K = .header .left ∧ s.kind.isScope = true := by
  have hkind := kind_of_listed h
  rcases hslot : Frames.slot K with _ | x | x
  · exact .inl rfl
  · have hg : s.kind = .group := (hs.of_side hslot).1
    rcases hkind with ⟨sc, hsc, -⟩ | ⟨l, hl⟩
    · exact absurd (hsc.symm.trans hg) (by simp)
    · exact absurd (hl.symm.trans hg) (by simp)
  · have hsc := hs.of_header hslot
    cases x with
    | left => exact .inr ⟨rfl, hsc⟩
    | right =>
      rcases hkind with ⟨-, -, hne⟩ | ⟨l, hl⟩
      · exact absurd hslot hne
      · have hl' : s.kind = .leaf l := hl
        rw [hl'] at hsc
        cases hsc

end Place

namespace Merger

/-- What stands at the top does not depend on a node below it. -/
theorem top_under {s s' : Tree} {K : Frames}
    (h : K = [] → s'.id = s.id ∧ s'.kind = s.kind) :
    (s'.under K).id = (s.under K).id ∧ (s'.under K).kind = (s.under K).kind := by
  induction K generalizing s s' with
  | nil => exact h rfl
  | cons k K ih =>
    have hfill : (k.fill s').id = (k.fill s).id ∧ (k.fill s').kind = (k.fill s).kind := ⟨rfl, rfl⟩
    exact ih fun _ => hfill

/-- How a merge with labels `l` sets the tree `c` against the node at `p`, in a table that has
`n` rows. -/
inductive Sets (l : Labels) (n : NodeId) (p : Place) (c : Tree) : Tree → Tree → Prop
  | join {K : Frames} {i : NodeId} {e : Entry} {cs : List Tree} :
      Frames.slot K = .side .right → e.kind = .group → (∃ st ∈ p.above, st.slot = .side .left) →
      (Frames.steps K).filter (·.kind.isScope) = p.above.filter (·.kind.isScope) →
      Sets l n p c ((Tree.node i e cs).under K) ((Tree.node i e (cs ++ [c])).under K)
  | wrap {K : Frames} {s : Tree} :
      Frames.slot K = .member → (s.kind.isContainer = false → (s.placeIn K).listed = true) →
      s.kind ≠ .group → (p = s.placeIn K ∨ p.slot = .header .left) →
      (Frames.steps K).filter (·.kind.isScope) = p.above.filter (·.kind.isScope) →
      Sets l n p c (s.under K) ((Tree.opposed n l s c).under K)

namespace Sets

variable {l : Labels} {n : NodeId} {p : Place} {c t t' : Tree}

/-- The tree comes to stand in a group on the right of a conflict, and nothing else comes in but
the conflict itself and its sides. -/
theorem grown (h : Sets l n p c t t') :
    ∃ (W : List Place) (i : NodeId) (a : List Step),
      Grown (W ++ c.placesAt .member (⟨i, .group, .side .right⟩ :: a)) t.places t'.places ∧
        ∀ q ∈ W, q.kind = .group ∨ q.kind.isConflict = true := by
  cases h with
  | @join K i e cs hK he _ _ =>
    refine ⟨[], i, Frames.steps K, ?_, by simp⟩
    have hg : Grown _ ((Tree.node i e cs).under K).places _ :=
      Tree.grown_append c (by rw [he]; rfl)
    rwa [he, hK] at hg
  | @wrap K s hK hs _ _ _ =>
    refine ⟨(Tree.opposedPlaces n l c (Frames.steps K)).take 3, n + 2, _,
      Tree.grown_opposed hK hs, ?_⟩
    simp [Tree.opposedPlaces, Place.kind, Kind.isConflict]

/-- The tree comes to stand in the scopes that the node is in. -/
theorem exists_copy (h : Sets l n p c t t') :
    ∃ q ∈ t'.places, q.id = c.id ∧ q.entry = c.entry ∧ q.slot = .member ∧
      q.above.filter (·.kind.isScope) = p.above.filter (·.kind.isScope) := by
  cases h with
  | @join K i e cs hK he _ hscopes =>
    have hview : (Tree.node i e (cs ++ [c])).under K = c.under (⟨i, e, cs, []⟩ :: K) := rfl
    refine ⟨c.placeIn (⟨i, e, cs, []⟩ :: K), ?_, rfl, rfl, ?_, ?_⟩
    · rw [hview]
      exact c.placeIn_mem_places _
    · simp [Tree.placeIn, Frames.slot, he, Kind.slot]
    · refine Eq.trans ?_ hscopes
      exact Frames.scopes_append (G := [⟨i, e, cs, []⟩]) K (by simp [he, Kind.isScope])
  | @wrap K s hK hs _ _ hscopes =>
    -- The copy is below the right side and the conflict.
    let side : Frame := ⟨n + 2, {}, [], []⟩
    let conflict : Frame := ⟨n, { kind := .conflict l }, [.node (n + 1) {} [s]], []⟩
    have hview : (Tree.opposed n l s c).under K = c.under (side :: conflict :: K) := rfl
    refine ⟨c.placeIn (side :: conflict :: K), ?_, rfl, rfl, rfl, ?_⟩
    · rw [hview]
      exact c.placeIn_mem_places _
    · refine Eq.trans ?_ hscopes
      exact Frames.scopes_append (G := [side, conflict]) K (by simp [side, conflict, Kind.isScope])

theorem shaped (h : Sets l n p c t t') (ht : t.Shaped) (hc : c.Shaped) : t'.Shaped := by
  cases h with
  | @join K i e cs hK he _ _ =>
    refine ht.replace_same ?_ rfl (by simp) (by simp [hK])
    refine .node (by rw [he]; trivial) fun d hd => ?_
    rcases List.mem_append.1 hd with hd | hd
    · exact ht.of_under.of_mem hd
    · exact List.mem_singleton.1 hd ▸ hc
  | @wrap K s hK hs _ _ _ =>
    refine ht.replace_member hK (.node ?_ ?_)
    · exact ⟨_, _, rfl, rfl, rfl, by simp, by simp⟩
    · intro d hd
      rcases List.mem_pair.1 hd with rfl | rfl
      · exact .node trivial fun x hx => List.mem_singleton.1 hx ▸ ht.of_under
      · exact .node trivial fun x hx => List.mem_singleton.1 hx ▸ hc

/-- A group at the top stays there. -/
theorem top_eq (h : Sets l n p c t t') (ht : t.kind = .group) :
    t'.id = t.id ∧ t'.kind = t.kind := by
  cases h with
  | join => exact top_under fun _ => ⟨rfl, rfl⟩
  | wrap _ _ hs _ _ =>
    refine top_under fun hK => ?_
    subst hK
    exact absurd ht hs

end Sets

/-- The node that is set against as a whole: a scope with two headers is taken with both. -/
theorem exists_target {f : Forest} {t : Tree} {ts : List Tree} {p : Place}
    (h : f.Shows (t :: ts)) (ht : t.Shaped) (hp : p ∈ t.places) (hl : p.listed = true) :
    ∃ (K : Frames) (s : Tree), t = s.under K ∧ Frames.slot K = .member ∧
      (if (otherHeader? f p.id).isSome then (f.parent p.id).getD p.id else p.id) = s.id ∧
      (s.kind.isContainer = false → (s.placeIn K).listed = true) ∧ s.kind ≠ .group ∧
      (Frames.steps K).Sublist p.above ∧ (p = s.placeIn K ∨ p.slot = .header .left) ∧
      (Frames.steps K).filter (·.kind.isScope) = p.above.filter (·.kind.isScope) := by
  obtain ⟨K, s, rfl, rfl⟩ := Tree.mem_places.1 hp
  rcases Place.slot_of_listed ht hl with hK | ⟨hK, -⟩
  · refine ⟨K, s, rfl, hK, ?_, fun _ => hl, ?_, .refl _, .inl rfl, rfl⟩
    · rw [show (s.placeIn K).id = s.id from rfl, otherHeader?_eq_none h (ht.sided _) (by simp [hK])]
      rfl
    · rcases Place.kind_of_listed hl with ⟨sc, hsc, -⟩ | ⟨lf, hlf⟩
      · exact fun hg => by cases hsc.symm.trans hg
      · exact fun hg => by cases hlf.symm.trans hg
  · obtain ⟨k, K, b, sa, sb, rfl, ⟨lb, hk⟩, hbe, haf, -⟩ := ht.of_left_header hK
    have hfill : (k.fill s).kind = .scopeConflict lb := hk
    refine ⟨K, k.fill s, rfl, ?_, ?_, ?_, ?_, ?_, .inr hK, ?_⟩
    · -- A conflict between headers is neither a side nor a header.
      rcases hslot : Frames.slot K with _ | x | x
      · rfl
      · exact absurd (hfill.symm.trans (Tree.Shaped.of_side (s := k.fill s) ht hslot).1) (by simp)
      · have hsc := Tree.Shaped.of_header (s := k.fill s) ht hslot
        rw [hfill] at hsc
        cases hsc
    · rw [show (s.placeIn (k :: K)).id = s.id from rfl, otherHeader?_left h hk hbe haf,
        h.parent_eq]
      rfl
    · intro hc
      rw [hfill] at hc
      cases hc
    · rw [hfill]
      simp
    · exact Frames.steps_sublist [k] K
    · exact (Frames.scopes_append (G := [k]) K (by simp [hk, Kind.isScope])).symm

/-- The edits that put a conflict in the place of a node below the top. -/
theorem exists_opposed {f : Forest} (l : Labels) {s c : Tree} {k : Frame} {K : Frames}
    (h : f.Shows [c, s.under (k :: K)]) :
    ∃ g₁ g₂ g₃ g₄ g₅,
      (((f.alloc { kind := .conflict l }).1.alloc {}).1.alloc {}).1.replace s.id f.size = .ok g₁ ∧
      g₁.attach f.size (f.size + 1) = .ok g₂ ∧ g₂.attach f.size (f.size + 2) = .ok g₃ ∧
      g₃.attach (f.size + 1) s.id = .ok g₄ ∧ g₄.attach (f.size + 2) c.id = .ok g₅ ∧
      g₅.Shows [(Tree.opposed f.size l s c).under (k :: K)] := by
  have h₀ := ((h.alloc { kind := .conflict l }).alloc {}).alloc {}
  simp only [Forest.size_alloc] at h₀
  set n := f.size
  set e : Entry := { kind := .conflict l }
  set L : Tree := .node (n + 1) {} []
  set R : Tree := .node (n + 2) {} []
  have h₁ : Forest.Shows _ [.node n e [], s.under (k :: K), c, L, R] :=
    h₀.reorder (by simp only [Tree.rowsAll]; abel)
  obtain ⟨g₁, e₁, -, h₁⟩ := h₁.replace
  have h₂ : g₁.Shows [L, (Tree.node n e []).under (k :: K), s, c, R] :=
    h₁.reorder (by simp only [Tree.rowsAll]; abel)
  obtain ⟨g₂, e₂, -, h₂⟩ := h₂.attach rfl
  have h₃ : g₂.Shows [R, (Tree.node n e [L]).under (k :: K), s, c] :=
    h₂.reorder (by simp only [Tree.rowsAll, List.nil_append]; abel)
  obtain ⟨g₃, e₃, -, h₃⟩ := h₃.attach rfl
  -- From here on the sides are looked at from within.
  have h₄ : g₃.Shows [s, L.under (⟨n, e, [], [R]⟩ :: k :: K), c] :=
    h₃.reorder (by simp only [Tree.rowsAll, Tree.under, Frame.fill, List.nil_append,
      List.cons_append]; abel)
  obtain ⟨g₄, e₄, -, h₄⟩ := h₄.attach rfl
  have h₅ : g₄.Shows [c, R.under (⟨n, e, [.node (n + 1) {} [s]], []⟩ :: k :: K)] :=
    h₄.reorder (by simp only [Tree.rowsAll, Tree.under, Frame.fill, List.nil_append,
      List.cons_append]; abel)
  obtain ⟨g₅, e₅, -, h₅⟩ := h₅.attach rfl
  exact ⟨g₁, g₂, g₃, g₄, g₅, e₁, e₂, e₃, e₄, e₅, h₅⟩

/-- A tree that is new can be set against any node that is listed. -/
theorem oppose_spec {m : Merger} {t c : Tree} {p : Place} (h : m.output.Shows [c, t])
    (ht : t.Shaped) (hgroup : t.kind = .group) (hp : p ∈ t.places) (hl : p.listed = true) :
    ∃ f t', m.oppose p.id c.id = .ok { m with output := f } ∧ f.Shows [t'] ∧
      Sets m.labels m.output.size p c t t' := by
  obtain ⟨K, s, rfl, hK, htarget, hs, hsg, hsub, hps, hscopes⟩ := exists_target h.tail ht hp hl
  rw [oppose]
  simp only [htarget]
  rcases rightSide?_cases h.tail (ht.sided _) with
    hright | ⟨G, k, K', r, lb, rfl, hG, hk, hbe, haf, hright⟩
  · -- A new conflict takes the place of the node, which is not the top.
    rw [hright]
    obtain ⟨k, K, rfl⟩ : ∃ k K', K = k :: K' := by
      cases K with
      | nil => exact absurd hgroup hsg
      | cons k K => exact ⟨k, K, rfl⟩
    obtain ⟨g₁, g₂, g₃, g₄, g₅, e₁, e₂, e₃, e₄, e₅, hg⟩ := exists_opposed m.labels h
    refine ⟨g₅, _, ?_, hg, .wrap hK hs hsg hps hscopes⟩
    refine (bind_of_ok e₁ _).trans ?_
    simp only [Forest.snd_alloc, Forest.size_alloc]
    exact (bind_of_ok e₂ _).trans <| (bind_of_ok e₃ _).trans <| (bind_of_ok e₄ _).trans <|
      (bind_of_ok e₅ _).trans rfl
  · -- The tree joins the right side `r`, which is looked at from within the conflict.
    rw [hright]
    have hr : r.kind = .group := by
      have hframe := Tree.Everywhere.at_frame (s := s.under G) (K := K')
        (by rwa [Tree.under_append] at ht)
      rw [hk, hbe, haf] at hframe
      obtain ⟨a, b, heq, -, hb, -⟩ := hframe
      rw [show r = b by simpa using congrArg List.getLast? heq]
      exact hb
    have hview : s.under (G ++ k :: K') = r.under (⟨k.id, k.entry, [s.under G], []⟩ :: K') := by
      rw [Tree.under_append]
      simp [Tree.under, Frame.fill, hbe, haf]
    obtain ⟨i, e, cs⟩ := r
    rw [hview] at h ⊢
    obtain ⟨g, hg, -, hshow⟩ := h.attach (by rw [show e.kind = .group from hr]; rfl)
    refine ⟨g, _, (bind_of_ok hg _).trans rfl, hshow, .join ?_ hr ?_ ?_⟩
    · simp [Frames.slot, hk, Kind.slot]
    · -- The node is in a group on the left, since it is itself a member.
      rcases List.eq_nil_or_concat G with rfl | ⟨G, g, rfl⟩
      · simp [Frames.slot, hk, hbe, Kind.slot] at hK
      · have hmem := hsub.mem (by
          simpa using Frames.mem_steps_append G g (k :: K'))
        exact ⟨_, hmem, by simp [Frames.slot, hk, hbe, Kind.slot]⟩
    · -- Neither the groups nor the conflict are scopes.
      rw [← hscopes, Frames.scopes_append (G := G) _ fun g hg => by rw [hG g hg]; rfl]
      exact (Frames.scopes_append (G := [_]) K' (by simp [hk, Kind.isScope])).trans
        (Frames.scopes_append (G := [k]) K' (by simp [hk, Kind.isScope])).symm

end Merger

end StubMerge
