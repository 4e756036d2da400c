import StubMerge.Proofs.Coalescing
import StubMerge.Proofs.Visiting

/-!
# Changes to trees with conflicts in any place

A merge of outlines without conflicts leaves every conflict in its shape (`Tree.Shaped`). When the
result is merged again, nodes are found that such a merge never finds: those on the right of a
conflict, and right headers. A right header can then come into conflict itself, or get a body, and
what is left of the shape is `Tree.Sided false`. `Tree.Sided true` asks for right headers that are
bare.

Here are the changes of one node that keep either of the two, and what they mean for places: each
stays, and none becomes a right header (`Tree.StaysIn`).
-/

namespace StubMerge

/-- A group or a scope is no conflict, so what is put into it is a member. -/
theorem Kind.takes_members {kind : Kind} (h : kind = .group ∨ kind.isScope = true) (first : Bool) :
    kind.isContainer = true ∧ kind.slot first = .member := by
  rcases h with rfl | h
  · exact ⟨rfl, rfl⟩
  · exact ⟨isContainer_of_scope h, slot_eq_member (isConflict_of_scope h) first⟩

namespace Tree

/-! ## The shape -/

namespace Sided

variable {bare : Bool} {s s' : Tree} {K : Frames}

/-- A side of a conflict is a group. -/
theorem of_side {x : Side} (h : (s.under K).Sided bare) (hK : Frames.slot K = .side x) :
    s.kind = .group := by
  obtain ⟨k, K, l, rfl, hk⟩ := Frames.exists_of_slot_side hK
  have hs := h.at_frame
  rw [hk] at hs
  obtain ⟨a, b, heq, ha, hb⟩ := hs
  rcases Shaped.eq_pair_cases heq with ⟨-, rfl, -⟩ | ⟨-, rfl, -⟩
  · exact ha
  · exact hb

/-- The two headers of a conflict between headers, seen from the left one. -/
theorem of_left_header (h : (s.under K).Sided bare) (hK : Frames.slot K = .header .left) :
    ∃ k K' b l, K = k :: K' ∧ k.entry.kind = .scopeConflict l ∧ k.before = [] ∧ k.after = [b] ∧
      s.kind.isScope = true := by
  obtain ⟨k, K, l, rfl, hk, hfirst⟩ := Frames.exists_of_slot_header hK
  have hs := h.at_frame
  rw [hk] at hs
  obtain ⟨a, b, heq, ha, -⟩ := hs
  rcases Shaped.eq_pair_cases heq with ⟨hbe, rfl, haf⟩ | ⟨hbe, -, -⟩
  · exact ⟨k, K, b, l, rfl, hk, hbe, haf, ha⟩
  · simp [hbe] at hfirst

/-- A right header is the second child of a conflict between headers. If right headers are to be
bare, it is a scope without anything below it. -/
theorem of_right_header (h : (s.under K).Sided bare) (hK : Frames.slot K = .header .right) :
    ∃ k K' a l, K = k :: K' ∧ k.entry.kind = .scopeConflict l ∧ k.before = [a] ∧ k.after = [] ∧
      a.kind.isScope = true ∧ (s.kind.isScope = true ∧ s.children = [] ∨
        bare = false ∧ (s.kind.isScope = true ∨ s.kind.isConflict = true)) := by
  obtain ⟨k, K, l, rfl, hk, hfirst⟩ := Frames.exists_of_slot_header hK
  have hs := h.at_frame
  rw [hk] at hs
  obtain ⟨a, b, heq, ha, hb⟩ := hs
  rcases Shaped.eq_pair_cases heq with ⟨hbe, -, -⟩ | ⟨hbe, rfl, haf⟩
  · simp [hbe] at hfirst
  · exact ⟨k, K, a, l, rfl, hk, hbe, haf, ha, hb⟩

/-- A declaration is a member or a header, and only a scope is a left header. -/
theorem slot_of_declaration (h : (s.under K).Sided bare) (hs : s.kind ≠ .group) :
    Frames.slot K = .member ∨ Frames.slot K = .header .left ∧ s.kind.isScope = true ∨
      Frames.slot K = .header .right := by
  rcases hslot : Frames.slot K with _ | x | x
  · exact .inl rfl
  · exact absurd (of_side h hslot) hs
  · cases x with
    | left =>
      obtain ⟨-, -, -, -, -, -, -, -, hscope⟩ := of_left_header h hslot
      exact .inr (.inl ⟨rfl, hscope⟩)
    | right => exact .inr (.inr rfl)

/-- A leaf is no header. -/
theorem slot_of_leaf (h : (s.under K).Sided bare) (hs : s.kind.isContainer = false) :
    Frames.slot K = .member := by
  obtain ⟨l, hl⟩ := Kind.exists_leaf hs
  rcases slot_of_declaration h (by rw [hl]; nofun) with hslot | ⟨-, hscope⟩ | hslot
  · exact hslot
  · rw [hl] at hscope
    cases hscope
  · obtain ⟨-, -, -, -, -, -, -, -, -, hright⟩ := of_right_header h hslot
    rw [hl] at hright
    simp [Kind.isScope, Kind.isConflict] at hright

/-- Below a frame that allows it, another tree may be put. -/
theorem under_of_frame (h : (s.under K).Sided bare) (hs' : s'.Sided bare)
    (hframe : ∀ k K', K = k :: K' → SidedAt bare k.entry.kind (k.before ++ s' :: k.after)) :
    (s'.under K).Sided bare := by
  cases K with
  | nil => exact hs'
  | cons k K =>
    have hfill' : (k.fill s').Sided bare := h.refill hs' (hframe k K rfl)
    have hup : ((k.fill s).under K).Sided bare := h
    show ((k.fill s').under K).Sided bare
    refine (absorbing_sidedAt bare).under hup hfill' rfl ?_ ?_
    · simp [Frame.fill]
    · simp [Frame.fill]

/-- In the place of a member any tree may be put. In that of a right header a conflict may be put,
unless right headers are to be bare. -/
theorem replace (h : (s.under K).Sided bare) (hs' : s'.Sided bare)
    (hK : Frames.slot K = .member ∨
      Frames.slot K = .header .right ∧ bare = false ∧ s'.kind.isConflict = true) :
    (s'.under K).Sided bare := by
  refine under_of_frame h hs' ?_
  rintro k K rfl
  have hs := h.at_frame
  rcases hK with hK | ⟨hK, hbare, hconf⟩
  · rw [Frames.slot] at hK
    cases hk : k.entry.kind with
    | leaf l => simp [hk, SidedAt] at hs
    | conflict l => simp [hk, Kind.slot] at hK
    | scopeConflict l => simp [hk, Kind.slot] at hK
    | group | scope _ => trivial
  · obtain ⟨k, K, a, l, heq, hk, hbe, haf, ha, -⟩ := of_right_header h hK
    obtain ⟨rfl, rfl⟩ := List.cons.inj heq
    rw [hk, hbe, haf]
    exact ⟨a, s', rfl, ha, .inr ⟨hbare, .inr hconf⟩⟩

/-- A node may be changed that keeps its kind, unless it is a right header that is to be bare. -/
theorem replace_same (h : (s.under K).Sided bare) (hs' : s'.Sided bare) (hk : s'.kind = s.kind)
    (hr : bare = true → Frames.slot K = .header .right → s'.children = s.children) :
    (s'.under K).Sided bare := by
  refine under_of_frame h hs' ?_
  rintro k K rfl
  have hs := h.at_frame
  cases hkind : k.entry.kind with
  | leaf l => simp [hkind, SidedAt] at hs
  | conflict l =>
    rw [hkind] at hs
    have hpair : PairedAt (.conflict l) (k.before ++ s :: k.after) := hs
    exact hpair.replace hk
  | scopeConflict l =>
    rw [hkind] at hs
    obtain ⟨a, b, heq, ha, hb⟩ := hs
    rcases Shaped.eq_pair_cases heq with ⟨hbe, rfl, haf⟩ | ⟨hbe, rfl, haf⟩
    · exact ⟨s', b, by rw [hbe, haf]; rfl, hk ▸ ha, hb⟩
    · refine ⟨a, s', by rw [hbe, haf]; rfl, ha, ?_⟩
      have hslot : Frames.slot (k :: K) = .header .right := by
        simp [Frames.slot, hkind, Kind.slot, hbe]
      rw [hk]
      cases hbare : bare with
      | false =>
        rcases hb with ⟨hb, -⟩ | ⟨-, hb⟩
        · exact .inr ⟨rfl, .inl hb⟩
        · exact .inr ⟨rfl, hb⟩
      | true =>
        rcases hb with ⟨hb, hnone⟩ | ⟨hfalse, -⟩
        · exact .inl ⟨hb, (hr hbare hslot).trans hnone⟩
        · rw [hbare] at hfalse
          cases hfalse
  | group | scope _ => trivial

/-- A tree may be put behind the children of a group or a scope that is no right header. -/
theorem append {i : NodeId} {e : Entry} {cs : List Tree} {c : Tree}
    (h : ((node i e cs).under K).Sided bare) (hc : c.Sided bare)
    (he : e.kind = .group ∨ e.kind.isScope = true)
    (hK : bare = true → Frames.slot K ≠ .header .right) :
    ((node i e (cs ++ [c])).under K).Sided bare := by
  refine replace_same h (.node ?_ ?_) rfl fun hbare hright => absurd hright (hK hbare)
  · rcases he with he | he
    · rw [he]
      trivial
    · obtain ⟨sc, hsc⟩ := Kind.exists_scope he
      rw [hsc]
      trivial
  · intro d hd
    rcases List.mem_append.1 hd with hd | hd
    · exact h.of_under.of_mem hd
    · exact List.mem_singleton.1 hd ▸ hc

end Sided

theorem sided_bare {bare : Bool} (i : NodeId) {e : Entry} (he : e.kind.isConflict = false) :
    (node i e []).Sided bare := by
  refine .node ?_ (by simp)
  cases hk : e.kind with
  | conflict l | scopeConflict l => simp [hk, Kind.isConflict] at he
  | leaf l => rfl
  | group | scope _ => trivial

theorem sided_opposed {bare : Bool} (n : NodeId) (l : Labels) {s c : Tree} (hs : s.Sided bare)
    (hc : c.Sided bare) : (opposed n l s c).Sided bare := by
  refine .node ⟨_, _, rfl, rfl, rfl⟩ ?_
  intro d hd
  rcases List.mem_pair.1 hd with rfl | rfl
  · exact .node trivial fun x hx => List.mem_singleton.1 hx ▸ hs
  · exact .node trivial fun x hx => List.mem_singleton.1 hx ▸ hc

theorem sided_opposedHeaders {bare : Bool} (n : NodeId) (l : Labels) {s : Tree} {d : Entry}
    (hs : s.Sided bare) (hscope : s.kind.isScope = true) (hd : d.kind.isScope = true) :
    (opposedHeaders n l s d).Sided bare := by
  refine .node ⟨_, _, rfl, hscope, .inl ⟨hd, rfl⟩⟩ ?_
  intro x hx
  rcases List.mem_pair.1 hx with rfl | rfl
  · exact hs
  · exact sided_bare _ (Kind.isConflict_of_scope hd)

end Tree

/-! ## Places -/

/-- A place stays: it keeps its kind, leaves apart, and does not become a right header. -/
structure Place.Stays (p q : Place) : Prop where
  id_eq : q.id = p.id
  kind : q.kind = p.kind ∨ p.kind.isContainer = false ∧ q.kind.isContainer = false
  slot : q.slot = .header .right → p.slot = .header .right

namespace Place.Stays

variable {p q r : Place}

theorem refl (p : Place) : p.Stays p := ⟨rfl, .inl rfl, fun h => h⟩

theorem trans (h : p.Stays q) (h' : q.Stays r) : p.Stays r where
  id_eq := h'.id_eq.trans h.id_eq
  kind := by
    rcases h.kind with hk | ⟨hp, hq⟩
    · rw [← hk]
      exact h'.kind
    · rcases h'.kind with hk' | ⟨-, hr⟩
      · exact .inr ⟨hp, hk' ▸ hq⟩
      · exact .inr ⟨hp, hr⟩
  slot hr := h.slot (h'.slot hr)

/-- Only a leaf changes its kind. -/
theorem kind_eq (h : p.Stays q) (hc : p.kind.isContainer = true ∨ q.kind.isContainer = true) :
    q.kind = p.kind := by
  rcases h.kind with hk | ⟨hp, hq⟩
  · exact hk
  · rw [hp, hq] at hc
    simp at hc

end Place.Stays

namespace Tree

/-- All places of a tree stay in another. -/
def StaysIn (t t' : Tree) : Prop := ∀ p ∈ t.places, ∃ q ∈ t'.places, p.Stays q

theorem StaysIn.refl (t : Tree) : t.StaysIn t := fun p hp => ⟨p, hp, .refl p⟩

/-- Places stay when a tree is put elsewhere, unless it becomes a right header. -/
theorem stays_placesAt (t : Tree) {x : Slot} {a : List Step} (x' : Slot) (a' : List Step)
    (hx : x' = .header .right → x = .header .right) :
    ∀ p ∈ t.placesAt x a, ∃ q ∈ t.placesAt x' a', p.Stays q := by
  induction t using induct generalizing x x' a a' with
  | step i e cs ih =>
    have hcs : ∀ ds, (∀ d ∈ ds, d ∈ cs) → ∀ first a a', ∀ p ∈ placesAll e.kind first a ds,
        ∃ q ∈ placesAll e.kind first a' ds, p.Stays q := by
      intro ds
      induction ds with
      | nil => intro _ first a a' p hp; cases hp
      | cons d ds ihd =>
        intro hd first a a' p hp
        rw [placesAll] at hp ⊢
        rcases List.mem_append.1 hp with hp | hp
        · obtain ⟨q, hq, hpq⟩ := ih d (hd d (by simp)) _ _ (fun h => h) p hp
          exact ⟨q, List.mem_append_left _ hq, hpq⟩
        · obtain ⟨q, hq, hpq⟩ := ihd (fun y hy => hd y (by simp [hy])) false a a' p hp
          exact ⟨q, List.mem_append_right _ hq, hpq⟩
    intro p hp
    rw [placesAt] at hp ⊢
    rcases List.mem_cons.1 hp with rfl | hp
    · exact ⟨_, List.mem_cons_self, rfl, .inl rfl, hx⟩
    · obtain ⟨q, hq, hpq⟩ := hcs cs (fun _ h => h) true _ (⟨i, e.kind, x'⟩ :: a') p hp
      exact ⟨q, List.mem_cons_of_mem _ hq, hpq⟩

variable {s s' : Tree} {K : Frames}

/-- A change at one node leaves all other places. -/
theorem staysIn_under (h : ∀ p ∈ s.placesAt (Frames.slot K) (Frames.steps K),
    ∃ q ∈ s'.placesAt (Frames.slot K) (Frames.steps K), p.Stays q) :
    (s.under K).StaysIn (s'.under K) := by
  intro p hp
  rw [places_under] at hp
  rw [places_under]
  rcases List.mem_append.1 hp with hp | hp
  · rcases List.mem_append.1 hp with hp | hp
    · exact ⟨p, List.mem_append_left _ (List.mem_append_left _ hp), .refl p⟩
    · obtain ⟨q, hq, hpq⟩ := h p hp
      exact ⟨q, List.mem_append_left _ (List.mem_append_right _ hq), hpq⟩
  · exact ⟨p, List.mem_append_right _ hp, .refl p⟩

theorem staysIn_append (i : NodeId) (e : Entry) (cs : List Tree) (c : Tree) (K : Frames) :
    ((node i e cs).under K).StaysIn ((node i e (cs ++ [c])).under K) := by
  refine staysIn_under ?_
  intro p hp
  rw [placesAt] at hp ⊢
  refine ⟨p, ?_, .refl p⟩
  rw [placesAll_append]
  rcases List.mem_cons.1 hp with rfl | hp
  · exact List.mem_cons_self
  · exact List.mem_cons_of_mem _ (List.mem_append_left _ hp)

/-- An entry may be changed that keeps its kind, or that of a leaf which stays one. -/
theorem staysIn_entry (i : NodeId) {e e' : Entry} {cs : List Tree} (K : Frames)
    (h : e'.kind = e.kind ∨ cs = [] ∧ e.kind.isContainer = false ∧ e'.kind.isContainer = false) :
    ((node i e cs).under K).StaysIn ((node i e' cs).under K) := by
  refine staysIn_under ?_
  intro p hp
  rw [placesAt] at hp ⊢
  rcases List.mem_cons.1 hp with rfl | hp
  · exact ⟨_, List.mem_cons_self, rfl, h.imp_right And.right, fun hr => hr⟩
  · rcases h with hk | ⟨rfl, -⟩
    · exact ⟨p, List.mem_cons_of_mem _ (by rw [hk]; exact hp), .refl p⟩
    · cases hp

theorem staysIn_opposed (n : NodeId) (l : Labels) (s c : Tree) (K : Frames) :
    (s.under K).StaysIn ((opposed n l s c).under K) := by
  refine staysIn_under ?_
  intro p hp
  have hkind : ({ kind := .conflict l } : Entry).kind = .conflict l := rfl
  have hview : (opposed n l s c).placesAt (Frames.slot K) (Frames.steps K) = _ :=
    placesAt_conflict hkind rfl rfl
  obtain ⟨q, hq, hpq⟩ := s.stays_placesAt .member
    (⟨n + 1, .group, .side .left⟩ :: ⟨n, .conflict l, Frames.slot K⟩ :: Frames.steps K)
    (by nofun) p hp
  refine ⟨q, ?_, hpq⟩
  rw [hview]
  simp [placesAll, Kind.slot, hq]

theorem staysIn_opposedHeaders (n : NodeId) (l : Labels) (s : Tree) (d : Entry) (K : Frames) :
    (s.under K).StaysIn ((opposedHeaders n l s d).under K) := by
  refine staysIn_under ?_
  intro p hp
  obtain ⟨q, hq, hpq⟩ := s.stays_placesAt (.header .left)
    (⟨n, .scopeConflict l, Frames.slot K⟩ :: Frames.steps K) (by nofun) p hp
  refine ⟨q, ?_, hpq⟩
  rw [opposedHeaders, placesAt, placesAll]
  refine List.mem_cons_of_mem _ (List.mem_append_left _ ?_)
  exact hq

end Tree

end StubMerge
