import Mathlib.Logic.Relation
import StubMerge.Proofs.Resolving

/-!
# Coalescing

Coalescing is a series of small steps, in each of which a conflict absorbs a neighbour that has
the same labels: `Tree.Absorbs`. `coalesce_spec` says that coalescing never fails where conflicts
have two sides and that it is such a series. What one step keeps is then kept by the whole: the
conflicts have two sides afterwards, and both ways to resolve them come to the same as before.
-/

namespace StubMerge

namespace Kind

/-- The labels of a conflict. -/
def labels? : Kind → Option Labels
  | conflict lb => some lb
  | _ => none

/-- No two neighbours are conflicts with the same labels. -/
def Separate (kinds : List Kind) : Prop :=
  kinds.IsChain fun a b => ∀ lb, a = .conflict lb → b ≠ .conflict lb

end Kind

namespace Tree

/-- The number of the last tree, if it is a conflict. -/
def lastConflict? (cs : List Tree) : Option NodeId :=
  cs.getLast?.bind fun c => c.kind.labels?.map fun _ => c.id

theorem lastConflict?_concat (cs : List Tree) (c : Tree) :
    lastConflict? (cs ++ [c]) = c.kind.labels?.map fun _ => c.id := by
  rw [lastConflict?, List.getLast?_append, List.getLast?_singleton]
  rfl

theorem separate_concat {cs : List Tree} {c : Tree} (h : Kind.Separate (cs.map kind))
    (hc : ∀ xs x lb, cs = xs ++ [x] → x.kind = .conflict lb → c.kind ≠ .conflict lb) :
    Kind.Separate ((cs ++ [c]).map kind) := by
  rw [List.map_append]
  rcases cs.eq_nil_or_concat' with rfl | ⟨xs, x, rfl⟩
  · exact List.isChain_singleton _
  · refine h.append (List.isChain_singleton _) fun k hk k' hk' lb hlb => ?_
    obtain rfl : x.kind = k := by simpa using hk
    obtain rfl : c.kind = k' := by simpa using hk'
    exact hc xs x lb rfl hlb

/-- No conflict could absorb its neighbour, at any node. -/
abbrev Coalesced : Tree → Prop := Everywhere fun _ cs => Kind.Separate (cs.map kind)

/-- A conflict absorbs the conflict behind it. -/
inductive Absorbs : Tree → Tree → Prop
  | step {K : Frames} {i c l r c' l' r' : NodeId} {e d dl dr d' dl' dr' : Entry}
      {xs ys ls rs ls' rs' : List Tree} {lb : Labels} :
      d.kind = .conflict lb → d'.kind = .conflict lb → dl.kind = .group → dr.kind = .group →
      dl'.kind = .group → dr'.kind = .group →
      Absorbs
        ((node i e (xs ++ node c d [node l dl ls, node r dr rs] ::
          node c' d' [node l' dl' ls', node r' dr' rs'] :: ys)).under K)
        ((node i e (xs ++ node c d [node l dl (ls ++ ls'), node r dr (rs ++ rs')] :: ys)).under K)

/-! ## What a step keeps -/

section

variable {side : Side} {s s' t t' : Tree} {K : Frames}

theorem PairedAt.replace {kind : Kind} {before after : List Tree}
    (h : PairedAt kind (before ++ s :: after)) (hk : s'.kind = s.kind) :
    PairedAt kind (before ++ s' :: after) := by
  cases kind with
  | leaf l => simp [PairedAt] at h
  | conflict l =>
    obtain ⟨a, b, heq, ha, hb⟩ := h
    rcases Shaped.eq_pair_cases heq with ⟨rfl, rfl, rfl⟩ | ⟨rfl, rfl, rfl⟩
    · exact ⟨s', b, rfl, hk.trans ha, hb⟩
    · exact ⟨a, s', rfl, ha, hk.trans hb⟩
  | scopeConflict l =>
    obtain ⟨a, b, heq, ha, hb⟩ := h
    rcases Shaped.eq_pair_cases heq with ⟨rfl, rfl, rfl⟩ | ⟨rfl, rfl, rfl⟩
    · exact ⟨s', b, rfl, hk ▸ ha, hb⟩
    · exact ⟨a, s', rfl, ha, hk ▸ hb⟩
  | group | scope _ => trivial

/-- What has two conflicts for neighbours below it is not a conflict itself. -/
theorem PairedAt.not_conflict {kind : Kind} {xs ys : List Tree} {a b : Tree} {lb : Labels}
    (h : PairedAt kind (xs ++ a :: b :: ys)) (ha : a.kind = .conflict lb) :
    kind.isConflict = false ∧ ∀ cs, PairedAt kind cs := by
  cases kind with
  | leaf l => simp [PairedAt] at h
  | conflict l =>
    obtain ⟨x, y, heq, hx, hy⟩ := h
    rcases Shaped.eq_pair_cases heq with ⟨rfl, rfl, -⟩ | ⟨rfl, rfl, hn⟩
    · exact absurd (ha.symm.trans hx) (by simp)
    · cases hn
  | scopeConflict l =>
    obtain ⟨x, y, heq, hx, hy⟩ := h
    rcases Shaped.eq_pair_cases heq with ⟨rfl, rfl, -⟩ | ⟨rfl, rfl, hn⟩
    · rw [ha] at hx
      cases hx
    · cases hn
  | group | scope _ => exact ⟨rfl, fun _ => trivial⟩

/-- What a shape has to allow for conflicts to absorb others. -/
structure Absorbing (P : Kind → List Tree → Prop) : Prop where
  group : ∀ cs, P .group cs
  /-- More may be put into the sides of a conflict. -/
  grow : ∀ {lb l r dl dr ls ls' rs rs'}, P (.conflict lb) [node l dl ls, node r dr rs] →
    P (.conflict lb) [node l dl (ls ++ ls'), node r dr (rs ++ rs')]
  /-- What has two conflicts for neighbours below it may have anything. -/
  neighbours : ∀ {kind xs a b ys lb}, P kind (xs ++ a :: b :: ys) → a.kind = .conflict lb →
    ∀ cs, P kind cs
  /-- Of a node that is not bare only the kind matters to the one above. -/
  replace : ∀ {kind before s s' after}, P kind (before ++ s :: after) → s'.kind = s.kind →
    s.children ≠ [] → s'.children ≠ [] → P kind (before ++ s' :: after)

namespace Absorbing

variable {P : Kind → List Tree → Prop}

theorem under (hP : Absorbing P) (h : (s.under K).Everywhere P) (hs' : s'.Everywhere P)
    (hk : s'.kind = s.kind) (hne : s.children ≠ []) (hne' : s'.children ≠ []) :
    (s'.under K).Everywhere P := by
  induction K generalizing s s' with
  | nil => exact hs'
  | cons k K ih =>
    exact ih (s := k.fill s) h (h.refill hs' (hP.replace h.at_frame hk hne hne')) rfl
      (by simp [Frame.fill]) (by simp [Frame.fill])

/-- Such a shape is kept when a conflict absorbs another. -/
theorem absorbs (hP : Absorbing P) (h : Absorbs t t') (ht : t.Everywhere P) :
    t'.Everywhere P := by
  cases h with
  | @step K i c l r c' l' r' e d dl dr d' dl' dr' xs ys ls rs ls' rs' lb hd hd' hl hr _ _ =>
    have hs := ht.of_under
    have hc : (node c d [node l dl ls, node r dr rs]).Everywhere P := hs.of_mem (by simp)
    have hc' : (node c' d' [node l' dl' ls', node r' dr' rs']).Everywhere P :=
      hs.of_mem (by simp)
    -- The sides of the head are groups, so anything may be put into them.
    have hside : ∀ {j : NodeId} {ej : Entry} {us vs : List Tree}, ej.kind = .group →
        (∀ x ∈ us, x.Everywhere P) → (∀ x ∈ vs, x.Everywhere P) →
        (node j ej (us ++ vs)).Everywhere P := by
      intro j ej us vs hj hu hv
      refine .node (by rw [hj]; exact hP.group _) fun x hx => ?_
      exact (List.mem_append.1 hx).elim (hu x) (hv x)
    have hat : P d.kind [node l dl ls, node r dr rs] := hc.at_top
    rw [hd] at hat
    refine hP.under ht (.node (hP.neighbours hs.at_top hd _) fun x hx => ?_) rfl (by simp) (by simp)
    rcases List.mem_append.1 hx with hx | hx
    · exact hs.of_mem (by simp [hx])
    · rcases List.mem_cons.1 hx with rfl | hx
      · refine .node (by rw [hd]; exact hP.grow hat) fun y hy => ?_
        rcases List.mem_pair.1 hy with rfl | rfl
        · exact hside hl (fun x hx => (hc.of_mem List.mem_cons_self).of_mem hx)
            fun x hx => (hc'.of_mem List.mem_cons_self).of_mem hx
        · exact hside hr
            (fun x hx => (hc.of_mem (List.mem_cons_of_mem _ List.mem_cons_self)).of_mem hx)
            fun x hx => (hc'.of_mem (List.mem_cons_of_mem _ List.mem_cons_self)).of_mem hx
      · exact hs.of_mem (by simp [hx])

end Absorbing

theorem absorbing_pairedAt : Absorbing PairedAt where
  group _ := trivial
  grow h := by
    obtain ⟨a, b, heq, ha, hb⟩ := h
    obtain ⟨rfl, rfl⟩ : _ = a ∧ _ = b := by simpa using heq
    exact ⟨_, _, rfl, ha, hb⟩
  neighbours h ha := (PairedAt.not_conflict h ha).2
  replace h hk _ _ := h.replace hk

theorem Absorbs.paired (h : Absorbs t t') (ht : t.Paired) : t'.Paired :=
  absorbing_pairedAt.absorbs h ht

theorem absorbing_sidedAt (bare : Bool) : Absorbing (SidedAt bare) where
  group _ := trivial
  grow := by
    intro lb l r dl dr ls ls' rs rs' h
    have hpair : PairedAt (.conflict lb) [node l dl ls, node r dr rs] := h
    exact absorbing_pairedAt.grow hpair
  neighbours := by
    intro kind xs a b ys lb h ha
    cases kind with
    | leaf l => simp [SidedAt] at h
    | conflict l =>
      have hpair : PairedAt (.conflict l) (xs ++ a :: b :: ys) := h
      exact absurd (hpair.not_conflict ha).1 (by nofun)
    | scopeConflict l =>
      obtain ⟨x, y, heq, hx, -⟩ := h
      rcases Shaped.eq_pair_cases heq with ⟨-, rfl, -⟩ | ⟨-, -, hn⟩
      · rw [ha] at hx
        cases hx
      · cases hn
    | group | scope _ => exact fun _ => trivial
  replace := by
    intro kind before s s' after h hk hne _
    cases kind with
    | leaf l => simp [SidedAt] at h
    | conflict l =>
      have hpair : PairedAt (.conflict l) (before ++ s :: after) := h
      exact hpair.replace hk
    | scopeConflict l =>
      obtain ⟨a, b, heq, ha, hb⟩ := h
      rcases Shaped.eq_pair_cases heq with ⟨rfl, rfl, rfl⟩ | ⟨rfl, rfl, rfl⟩
      · exact ⟨s', b, rfl, hk ▸ ha, hb⟩
      · -- What has something below it is not bare.
        refine ⟨a, s', rfl, ha, ?_⟩
        rcases hb with ⟨-, hnone⟩ | hb
        · exact absurd hnone hne
        · exact .inr (hk ▸ hb)
    | group | scope _ => trivial

theorem Absorbs.sided {bare : Bool} (h : Absorbs t t') (ht : t.Sided bare) : t'.Sided bare :=
  (absorbing_sidedAt bare).absorbs h ht

theorem settledBodies_append (cs ds : List Tree) :
    settledBodies side (cs ++ ds) = settledBodies side cs ++ settledBodies side ds := by
  induction cs with
  | nil => rfl
  | cons c cs ih =>
    obtain ⟨i, e, bs⟩ := c
    rw [List.cons_append, settledBodies, settledBodies, ih, List.cons_append]

/-- Two trees with the same top are settled in the same way. -/
structure SettlesAs (side : Side) (s s' : Tree) : Prop where
  header : s'.header = s.header
  body : settledAll side s'.children = settledAll side s.children
  whole : s'.settled side = s.settled side

theorem SettlesAs.fill (h : SettlesAs side s s') (k : Frame) :
    SettlesAs side (k.fill s) (k.fill s') := by
  obtain ⟨i, e, cs⟩ := s
  obtain ⟨i', e', cs'⟩ := s'
  have hbody : settledAll side (k.before ++ node i' e' cs' :: k.after) =
      settledAll side (k.before ++ node i e cs :: k.after) := by
    rw [settledAll_append, settledAll_append, settledAll, settledAll, h.whole]
  refine ⟨rfl, hbody, ?_⟩
  have hb : settledAll side cs' = settledAll side cs := h.body
  have hh : (node i' e' cs').header = (node i e cs).header := h.header
  unfold Frame.fill settled
  simp only [settledBodies_append, settledBodies, List.map_append, List.map_cons, hb, hh, hbody]

theorem SettlesAs.under (h : SettlesAs side s s') : SettlesAs side (s.under K) (s'.under K) := by
  induction K generalizing s s' with
  | nil => exact h
  | cons k K ih => exact ih (h.fill k)

/-- Absorbing changes nothing about what is left when conflicts are resolved. -/
theorem Absorbs.settlesAs (h : Absorbs t t') (ht : t.Paired) : SettlesAs side t t' := by
  cases h with
  | @step K i c l r c' l' r' e d dl dr d' dl' dr' xs ys ls rs ls' rs' lb hd hd' hl hr _ _ =>
    have hbody : settledAll side
          (xs ++ node c d [node l dl (ls ++ ls'), node r dr (rs ++ rs')] :: ys) =
        settledAll side (xs ++ node c d [node l dl ls, node r dr rs] ::
          node c' d' [node l' dl' ls', node r' dr' rs'] :: ys) := by
      simp only [settledAll_append, settledAll, settled_conflict hd, settled_conflict hd']
      cases side <;> simp [Side.pick, settledAll_append]
    have hnot : e.kind.isConflict = false := (PairedAt.not_conflict ht.of_under.at_top hd).1
    refine SettlesAs.under ⟨rfl, hbody, ?_⟩
    rw [settled_of_not_conflict hnot, settled_of_not_conflict hnot, hbody]

end

/-- Any number of conflicts absorb others, one after the other. -/
abbrev AbsorbsAll : Tree → Tree → Prop := Relation.ReflTransGen Absorbs

theorem Absorbs.fill {t t' : Tree} (h : Absorbs t t') (k : Frame) :
    Absorbs (k.fill t) (k.fill t') := by
  cases h with
  | @step K i c l r c' l' r' e d dl dr d' dl' dr' xs ys ls rs ls' rs' lb hd hd' hl hr hl' hr' =>
    have hfill : ∀ s : Tree, k.fill (s.under K) = s.under (K ++ [k]) := fun s => by
      rw [under_append]
      rfl
    rw [hfill, hfill]
    exact .step hd hd' hl hr hl' hr'

theorem AbsorbsAll.fill {t t' : Tree} (h : AbsorbsAll t t') (k : Frame) :
    AbsorbsAll (k.fill t) (k.fill t') := by
  induction h with
  | refl => exact .refl
  | tail _ hstep ih => exact ih.tail (hstep.fill k)

theorem AbsorbsAll.paired {t t' : Tree} (h : AbsorbsAll t t') (ht : t.Paired) : t'.Paired := by
  induction h with
  | refl => exact ht
  | tail _ hstep ih => exact hstep.paired ih

theorem AbsorbsAll.sided {bare : Bool} {t t' : Tree} (h : AbsorbsAll t t') (ht : t.Sided bare) :
    t'.Sided bare := by
  induction h with
  | refl => exact ht
  | tail _ hstep ih => exact hstep.sided ih

theorem AbsorbsAll.settlesAs {side : Side} {t t' : Tree} (h : AbsorbsAll t t') (ht : t.Paired) :
    SettlesAs side t t' := by
  induction h with
  | refl => exact ⟨rfl, rfl, rfl⟩
  | tail hall hstep ih =>
    have hnext : SettlesAs side _ _ := hstep.settlesAs (AbsorbsAll.paired hall ht)
    exact ⟨hnext.header.trans ih.header, hnext.body.trans ih.body, hnext.whole.trans ih.whole⟩

end Tree

/-! ## What happens to places -/

/-- In lists that go in step each member has a counterpart. -/
theorem exists_of_forall₂ {α β : Type} {R : α → β → Prop} {xs : List α} {ys : List β}
    (h : List.Forall₂ R xs ys) {x : α} (hx : x ∈ xs) : ∃ y ∈ ys, R x y := by
  induction h with
  | nil => cases hx
  | cons hr _ ih =>
    rcases List.mem_cons.1 hx with rfl | hx
    · exact ⟨_, List.mem_cons_self, hr⟩
    · obtain ⟨y, hy, hr⟩ := ih hx
      exact ⟨y, List.mem_cons_of_mem _ hy, hr⟩

/-- What a step says about the place of a node below it, apart from a number. -/
def Step.frame (st : Step) : Kind × Slot := (st.kind, st.slot)

/-- A place is moved from one conflict to another: what is above it looks the same. -/
structure Place.Moved (p q : Place) : Prop where
  id_eq : q.id = p.id
  entry_eq : q.entry = p.entry
  slot_eq : q.slot = p.slot
  above : q.above.map Step.frame = p.above.map Step.frame
  /-- It stays in the same scopes. -/
  scopes : q.above.filter (·.kind.isScope) = p.above.filter (·.kind.isScope)
  /-- What is not a member stays right below what it is below. -/
  fixed : p.slot ≠ .member → q.above.head? = p.above.head?

namespace Place.Moved

variable {p q r : Place}

theorem refl (p : Place) : p.Moved p := ⟨rfl, rfl, rfl, rfl, rfl, fun _ => rfl⟩

theorem trans (h : p.Moved q) (h' : q.Moved r) : p.Moved r :=
  ⟨h'.id_eq.trans h.id_eq, h'.entry_eq.trans h.entry_eq, h'.slot_eq.trans h.slot_eq,
    h'.above.trans h.above, h'.scopes.trans h.scopes,
    fun hp => (h'.fixed (h.slot_eq ▸ hp)).trans (h.fixed hp)⟩

end Place.Moved

/-- A place is lost: it is that of a conflict which is absorbed, or of one of its sides. -/
def Place.Lost (t t' : Tree) (p : Place) : Prop :=
  ∃ st : Step, (∃ lb, st.kind = .conflict lb) ∧
    (p.step = st ∨ (∃ x, p.slot = .side x) ∧ p.above.head? = some st) ∧
    (t.ids.Nodup → st.id ∉ t'.ids)

theorem Place.Lost.isWrapper {t t' : Tree} {p : Place} (h : p.Lost t t') :
    p.step.isWrapper = true := by
  obtain ⟨st, ⟨lb, hst⟩, rfl | ⟨⟨x, hx⟩, -⟩, -⟩ := h
  · rw [Step.isWrapper, hst]
    rfl
  · simp [Step.isWrapper, Place.step, hx]

namespace Tree

theorem moved_placesAt (t : Tree) {slot : Slot} {a a' : List Step}
    (h : a'.map Step.frame = a.map Step.frame)
    (hscopes : a'.filter (·.kind.isScope) = a.filter (·.kind.isScope))
    (hslot : slot ≠ .member → a'.head? = a.head?) :
    List.Forall₂ Place.Moved (t.placesAt slot a) (t.placesAt slot a') := by
  induction t using induct generalizing slot a a' with
  | step i e cs ih =>
    have hcs : ∀ ds, (∀ d ∈ ds, d ∈ cs) → ∀ first,
        List.Forall₂ Place.Moved (placesAll e.kind first (⟨i, e.kind, slot⟩ :: a) ds)
          (placesAll e.kind first (⟨i, e.kind, slot⟩ :: a') ds) := by
      intro ds
      induction ds with
      | nil => exact fun _ _ => .nil
      | cons d ds ihd =>
        intro hd first
        have hhead : (⟨i, e.kind, slot⟩ :: a').map Step.frame =
            (⟨i, e.kind, slot⟩ :: a).map Step.frame := by
          rw [List.map_cons, List.map_cons, h]
        have hmore : (⟨i, e.kind, slot⟩ :: a').filter (·.kind.isScope) =
            (⟨i, e.kind, slot⟩ :: a).filter (·.kind.isScope) := by
          rw [List.filter_cons, List.filter_cons, hscopes]
        rw [placesAll, placesAll]
        exact List.rel_append (ih d (hd d (by simp)) hhead hmore fun _ => rfl)
          (ihd (fun x hx => hd x (by simp [hx])) false)
    rw [placesAt, placesAt]
    exact .cons ⟨rfl, rfl, rfl, h, hscopes, hslot⟩ (hcs cs (fun _ hc => hc) true)

/-- Members are moved from one group to another. -/
theorem moved_placesAll (cs : List Tree) {first first' : Bool} {a a' : List Step}
    (h : a'.map Step.frame = a.map Step.frame)
    (hscopes : a'.filter (·.kind.isScope) = a.filter (·.kind.isScope)) :
    List.Forall₂ Place.Moved (placesAll .group first a cs) (placesAll .group first' a' cs) := by
  induction cs generalizing first first' with
  | nil => exact .nil
  | cons c cs ih =>
    rw [placesAll, placesAll]
    exact List.rel_append (c.moved_placesAt h hscopes fun hne => absurd rfl hne) ih

variable {t t' : Tree}

/-- The numbers that are lost are those of the absorbed conflict and its sides. -/
theorem perm_ids_absorbed {K : Frames} {i c l r c' l' r' : NodeId} {e d dl dr d' dl' dr' : Entry}
    {xs ys ls rs ls' rs' : List Tree} :
    ((node i e (xs ++ node c d [node l dl ls, node r dr rs] ::
      node c' d' [node l' dl' ls', node r' dr' rs'] :: ys)).under K).ids.Perm
      (c' :: l' :: r' :: ((node i e (xs ++
        node c d [node l dl (ls ++ ls'), node r dr (rs ++ rs')] :: ys)).under K).ids) := by
  apply List.perm_iff_count.2
  intro j
  simp only [ids_under, ids, idsAll, idsAll_append, List.count_append, List.count_cons,
    List.append_nil]
  omega

theorem Absorbs.perm_ids (h : Absorbs t t') : ∃ c l r, t.ids.Perm (c :: l :: r :: t'.ids) := by
  cases h with
  | step => exact ⟨_, _, _, perm_ids_absorbed⟩

/-- All places stay but those of the conflict that is absorbed and of its sides, and no others
come in. -/
theorem Absorbs.moves (h : Absorbs t t') (ht : t.Paired) :
    (∀ p ∈ t.places, p.Lost t t' ∨ ∃ q ∈ t'.places, p.Moved q) ∧
      ∀ q ∈ t'.places, ∃ p ∈ t.places, p.Moved q := by
  cases h with
  | @step K i c l r c' l' r' e d dl dr d' dl' dr' xs ys ls rs ls' rs' lb hd hd' hl hr hl' hr' =>
    have hnot : e.kind.isConflict = false := (PairedAt.not_conflict ht.of_under.at_top hd).1
    let A : List Step := ⟨i, e.kind, Frames.slot K⟩ :: Frames.steps K
    let C : List Step := ⟨c, .conflict lb, .member⟩ :: A
    let C' : List Step := ⟨c', .conflict lb, .member⟩ :: A
    -- What is in the sides of the absorbed conflict is moved; the rest stays or goes.
    let L := placesAll .group true (⟨l', .group, .side .left⟩ :: C') ls'
    let R := placesAll .group true (⟨r', .group, .side .right⟩ :: C') rs'
    let L' := placesAll .group (true && ls.isEmpty) (⟨l, .group, .side .left⟩ :: C) ls'
    let R' := placesAll .group (true && rs.isEmpty) (⟨r, .group, .side .right⟩ :: C) rs'
    let gone : List Place := [⟨c', d', .member, A⟩, ⟨l', dl', .side .left, C'⟩,
      ⟨r', dr', .side .right, C'⟩]
    let stay := Frames.placesBefore K ++ ⟨i, e, Frames.slot K, Frames.steps K⟩ ::
      placesAll e.kind true A xs ++ (node c d [node l dl ls, node r dr rs]).placesAt .member A ++
      placesAll e.kind false A ys ++ Frames.placesAfter K
    have hbefore : ∀ p, p ∈ ((node i e (xs ++ node c d [node l dl ls, node r dr rs] ::
        node c' d' [node l' dl' ls', node r' dr' rs'] :: ys)).under K).places ↔
        p ∈ stay ∨ p ∈ gone ∨ p ∈ L ∨ p ∈ R := by
      intro p
      rw [places_under, placesAt, placesAll_append, placesAll_cons, placesAll_cons,
        Kind.slot_eq_member hnot, Kind.slot_eq_member hnot, placesAt_conflict hd' hl' hr']
      simp only [stay, gone, L, R, A, C', List.mem_append, List.mem_cons, List.not_mem_nil]
      grind
    have hafter : ∀ p, p ∈ ((node i e (xs ++
        node c d [node l dl (ls ++ ls'), node r dr (rs ++ rs')] :: ys)).under K).places ↔
        p ∈ stay ∨ p ∈ L' ∨ p ∈ R' := by
      intro p
      rw [places_under, placesAt, placesAll_append, placesAll_cons, Kind.slot_eq_member hnot,
        placesAt_conflict hd hl hr, placesAll_append, placesAll_append]
      simp only [stay, L', R', A, C, List.mem_append, List.mem_cons, placesAt_conflict hd hl hr]
      grind
    have hfresh : ((node i e (xs ++ node c d [node l dl ls, node r dr rs] ::
        node c' d' [node l' dl' ls', node r' dr' rs'] :: ys)).under K).ids.Nodup →
        c' ∉ ((node i e (xs ++
          node c d [node l dl (ls ++ ls'), node r dr (rs ++ rs')] :: ys)).under K).ids := by
      intro hnodup hmem
      have hcons := perm_ids_absorbed.nodup_iff.1 hnodup
      exact (List.nodup_cons.1 hcons).1 (List.mem_cons_of_mem _ (List.mem_cons_of_mem _ hmem))
    have hL : List.Forall₂ Place.Moved L L' := moved_placesAll ls' rfl rfl
    have hR : List.Forall₂ Place.Moved R R' := moved_placesAll rs' rfl rfl
    constructor
    · intro p hp
      rcases (hbefore p).1 hp with hp | hp | hp | hp
      · exact .inr ⟨p, (hafter p).2 (.inl hp), .refl p⟩
      · refine .inl ⟨⟨c', .conflict lb, .member⟩, ⟨lb, rfl⟩, ?_, hfresh⟩
        simp only [gone, List.mem_cons, List.not_mem_nil, or_false] at hp
        rcases hp with rfl | rfl | rfl
        · exact .inl (by simp [Place.step, Place.kind, hd'])
        · exact .inr ⟨⟨.left, rfl⟩, rfl⟩
        · exact .inr ⟨⟨.right, rfl⟩, rfl⟩
      · obtain ⟨q, hq, hm⟩ := exists_of_forall₂ hL hp
        exact .inr ⟨q, (hafter q).2 (.inr (.inl hq)), hm⟩
      · obtain ⟨q, hq, hm⟩ := exists_of_forall₂ hR hp
        exact .inr ⟨q, (hafter q).2 (.inr (.inr hq)), hm⟩
    · intro q hq
      rcases (hafter q).1 hq with hq | hq | hq
      · exact ⟨q, (hbefore q).2 (.inl hq), .refl q⟩
      · obtain ⟨p, hp, hm⟩ := exists_of_forall₂ hL.flip hq
        exact ⟨p, (hbefore p).2 (.inr (.inr (.inl hp))), hm⟩
      · obtain ⟨p, hp, hm⟩ := exists_of_forall₂ hR.flip hq
        exact ⟨p, (hbefore p).2 (.inr (.inr (.inr hp))), hm⟩

/-- Coalescing loses no places but those of conflicts and their sides. -/
theorem AbsorbsAll.exists_moved (h : AbsorbsAll t t') (ht : t.Paired) {p : Place}
    (hp : p ∈ t.places) (hw : p.step.isWrapper = false) : ∃ q ∈ t'.places, p.Moved q := by
  induction h with
  | refl => exact ⟨p, hp, .refl p⟩
  | tail hall hstep ih =>
    obtain ⟨q, hq, hm⟩ := ih
    rcases (hstep.moves (AbsorbsAll.paired hall ht)).1 q hq with hlost | ⟨r, hr, hm'⟩
    · have hwq := hlost.isWrapper
      have hsame : q.step.isWrapper = p.step.isWrapper := by
        simp [Step.isWrapper, Place.step, Place.kind, hm.entry_eq, hm.slot_eq]
      rw [hsame, hw] at hwq
      cases hwq
    · exact ⟨r, hr, hm.trans hm'⟩

/-- Coalescing brings no places in. -/
theorem AbsorbsAll.exists_old (h : AbsorbsAll t t') (ht : t.Paired) {q : Place}
    (hq : q ∈ t'.places) : ∃ p ∈ t.places, p.Moved q := by
  induction h generalizing q with
  | refl => exact ⟨q, hq, .refl q⟩
  | tail hall hstep ih =>
    obtain ⟨r, hr, hm⟩ := (hstep.moves (AbsorbsAll.paired hall ht)).2 q hq
    obtain ⟨p, hp, hm'⟩ := ih hr
    exact ⟨p, hp, hm'.trans hm⟩

/-- Numbers are lost, and none is used twice. -/
theorem AbsorbsAll.ids (h : AbsorbsAll t t') :
    t'.ids ⊆ t.ids ∧ t'.ids.length ≤ t.ids.length ∧ (t.ids.Nodup → t'.ids.Nodup) := by
  induction h with
  | refl => exact ⟨fun _ hi => hi, le_rfl, fun hn => hn⟩
  | tail _ hstep ih =>
    obtain ⟨c, l, r, hperm⟩ := hstep.perm_ids
    obtain ⟨hsub, hlength, hnodup⟩ := ih
    refine ⟨fun i hi => hsub (hperm.mem_iff.2 (by simp [hi])), ?_, fun hn => ?_⟩
    · have hlen := hperm.length_eq
      simp only [List.length_cons] at hlen
      omega
    · have hcons := hperm.nodup_iff.1 (hnodup hn)
      exact (hcons.of_cons.of_cons).of_cons

/-- A place that is no longer there is that of a conflict, or of a side of one that is no longer
there. -/
theorem AbsorbsAll.lost (h : AbsorbsAll t t') (ht : t.Paired) (hn : t.ids.Nodup) {p : Place}
    (hp : p ∈ t.places) (hgone : p.id ∉ t'.ids) : p.kind.isConflict = true ∨
      ∃ st lb, p.above.head? = some st ∧ st.kind = .conflict lb ∧ st.id ∉ t'.ids := by
  induction h with
  | refl => exact absurd (map_id_places t ▸ List.mem_map_of_mem hp) hgone
  | @tail t₁ t' hall hstep ih =>
    by_cases hmid : p.id ∈ t₁.ids
    · -- It was lost in this step, in which it stood where it stood at first.
      rw [← map_id_places] at hmid
      obtain ⟨q, hq, hqid⟩ := List.mem_map.1 hmid
      obtain ⟨p', hp', hm⟩ := AbsorbsAll.exists_old hall ht hq
      obtain rfl : p' = p := place_eq_of_id hn hp' hp (hm.id_eq.symm.trans hqid)
      rcases (hstep.moves (AbsorbsAll.paired hall ht)).1 q hq with hlost | ⟨r, hr, hm'⟩
      · obtain ⟨st, ⟨lb, hst⟩, hat, hfresh⟩ := hlost
        rcases hat with rfl | ⟨⟨x, hx⟩, hhead⟩
        · refine .inl ?_
          have hkind : p'.kind = .conflict lb := by
            rw [Place.kind, ← hm.entry_eq]
            exact hst
          rw [hkind]
          rfl
        · have hslot : p'.slot ≠ .member := by
            rw [← hm.slot_eq, hx]
            simp
          have hnodup := (AbsorbsAll.ids hall).2.2 hn
          exact .inr ⟨st, lb, (hm.fixed hslot).symm.trans hhead, hst, hfresh hnodup⟩
      · refine absurd ?_ hgone
        rw [← hm.id_eq, ← hm'.id_eq, ← map_id_places]
        exact List.mem_map_of_mem hr
    · obtain ⟨c, l, r, hperm⟩ := hstep.perm_ids
      refine (ih hmid).imp_right ?_
      rintro ⟨st, lb, hhead, hst, hfresh⟩
      exact ⟨st, lb, hhead, hst, fun hmem => hfresh (hperm.mem_iff.2 (by simp [hmem]))⟩

end Tree

namespace Forest

variable {f : Forest}

/-! ## The edits -/

theorem Shows.absorb {i c l r c' l' r' : NodeId} {e d dl dr d' dl' dr' : Entry}
    {xs ys ls rs ls' rs' : List Tree} {K : Frames} {ts : List Tree}
    (h : f.Shows ((Tree.node i e (xs ++ .node c d [.node l dl ls, .node r dr rs] ::
      .node c' d' [.node l' dl' ls', .node r' dr' rs'] :: ys)).under K :: ts))
    (hl : dl.kind.isContainer = true) (hr : dr.kind.isContainer = true) :
    ∃ g, f.absorb c c' = .ok g ∧
      g.Shows ((Tree.node i e (xs ++ .node c d [.node l dl (ls ++ ls'), .node r dr (rs ++ rs')] ::
        ys)).under K :: ts) := by
  have hhead : f.Shows ((Tree.node c d [.node l dl ls, .node r dr rs]).under
      (⟨i, e, xs, .node c' d' [.node l' dl' ls', .node r' dr' rs'] :: ys⟩ :: K) :: ts) := h
  have hother : f.Shows ((Tree.node c' d' [.node l' dl' ls', .node r' dr' rs']).under
      (⟨i, e, xs ++ [.node c d [.node l dl ls, .node r dr rs]], ys⟩ :: K) :: ts) := by
    simpa [Tree.under, Frame.fill] using h
  -- First the left sides are joined, then the right sides.
  have hleft : f.Shows ((Tree.node i e (xs ++ .node c d ([] ++ .node l dl ls :: [.node r dr rs]) ::
      .node c' d' ([] ++ .node l' dl' ls' :: [.node r' dr' rs']) :: ys)).under K :: ts) := h
  obtain ⟨g₁, hg₁, h₁⟩ := hleft.moveChildren_neighbour hl
  have hright : g₁.Shows ((Tree.node i e (xs ++
      .node c d ([.node l dl (ls ++ ls')] ++ .node r dr rs :: []) ::
      .node c' d' ([.node l' dl' []] ++ .node r' dr' rs' :: []) :: ys)).under K :: ts) := h₁
  obtain ⟨g₂, hg₂, h₂⟩ := hright.moveChildren_neighbour hr
  have hempty : g₂.Shows ((Tree.node c' d' [.node l' dl' [], .node r' dr' []]).under
      (⟨i, e, xs ++ [.node c d [.node l dl (ls ++ ls'), .node r dr (rs ++ rs')]], ys⟩ :: K) ::
        ts) := by
    simpa [Tree.under, Frame.fill] using h₂
  refine ⟨g₂.detach c', ?_, by simpa using hempty.detach.tail⟩
  rw [Forest.absorb]
  exact (bind_of_ok hhead.sidesOrStop_eq _).trans <| (bind_of_ok hother.sidesOrStop_eq _).trans <|
    (bind_of_ok (attempt_of_ok hg₁) _).trans <| (bind_of_ok (attempt_of_ok hg₂) _).trans rfl

/-! ## Neighbours -/

/-- A conflict absorbs the one behind it, if their labels are the same. It grows, but it keeps its
number and its labels. -/
theorem Shows.absorb_neighbour {i : NodeId} {e : Entry} {x y : Tree} {xs ys : List Tree}
    {K : Frames} {ts : List Tree} {lb : Labels}
    (h : f.Shows ((Tree.node i e (xs ++ x :: y :: ys)).under K :: ts)) (hx : x.Sided false)
    (hy : y.Sided false) (hkx : x.kind = .conflict lb) (hky : y.kind = .conflict lb) :
    ∃ g x', f.absorb x.id y.id = .ok g ∧ x'.id = x.id ∧ x'.kind = x.kind ∧
      g.Shows ((Tree.node i e (xs ++ x' :: ys)).under K :: ts) ∧
      Tree.Absorbs (.node i e (xs ++ x :: y :: ys)) (.node i e (xs ++ x' :: ys)) := by
  obtain ⟨c, d, cs⟩ := x
  obtain ⟨c', d', cs'⟩ := y
  have hd : d.kind = .conflict lb := hkx
  have hd' : d'.kind = .conflict lb := hky
  have hatx : Tree.SidedAt false d.kind cs := hx.at_top
  have haty : Tree.SidedAt false d'.kind cs' := hy.at_top
  rw [hd] at hatx
  rw [hd'] at haty
  obtain ⟨⟨l, dl, ls⟩, ⟨r, dr, rs⟩, rfl, hl, hr⟩ := hatx
  obtain ⟨⟨l', dl', ls'⟩, ⟨r', dr', rs'⟩, rfl, hl', hr'⟩ := haty
  have hl₀ : dl.kind = .group := hl
  have hr₀ : dr.kind = .group := hr
  obtain ⟨g, hg, hshows⟩ := h.absorb (by rw [hl₀]; rfl) (by rw [hr₀]; rfl)
  exact ⟨g, .node c d [.node l dl (ls ++ ls'), .node r dr (rs ++ rs')], hg, rfl, rfl, hshows,
    .step (K := []) hd hd' hl₀ hr₀ hl' hr'⟩

/-- Going over neighbours is a series of steps, after which none is left to make. The children `xs`
were gone over, and the head is the last of them if that is a conflict. -/
theorem coalesceRun_spec {f : Forest} {i : NodeId} {e : Entry} {xs ys : List Tree} {K : Frames}
    {ts : List Tree} {head : Option NodeId}
    (h : f.Shows ((Tree.node i e (xs ++ ys)).under K :: ts))
    (hp : (Tree.node i e (xs ++ ys)).Sided false) (hhead : head = Tree.lastConflict? xs)
    (hxs : Kind.Separate (xs.map Tree.kind)) :
    ∃ g zs, f.coalesceRun head (ys.map Tree.id) = .ok g ∧
      g.Shows ((Tree.node i e zs).under K :: ts) ∧
      Tree.AbsorbsAll (.node i e (xs ++ ys)) (.node i e zs) ∧
      Kind.Separate (zs.map Tree.kind) := by
  induction ys generalizing f xs head with
  | nil => exact ⟨f, xs, rfl, by simpa using h, by rw [List.append_nil], hxs⟩
  | cons y ys ih =>
    have hview : f.Shows (y.under (⟨i, e, xs, ys⟩ :: K) :: ts) := h
    have hkind : f.kind y.id = y.kind := hview.kind_eq
    have hpy : y.Sided false := hp.of_mem (by simp)
    -- Unless `y` is absorbed, it is what was gone over last.
    have hnext : ∀ {head' : Option NodeId}, head' = y.kind.labels?.map (fun _ => y.id) →
        (∀ xs' x lb, xs = xs' ++ [x] → x.kind = .conflict lb → y.kind ≠ .conflict lb) →
        ∃ g zs, f.coalesceRun head' (ys.map Tree.id) = .ok g ∧
          g.Shows ((Tree.node i e zs).under K :: ts) ∧
          Tree.AbsorbsAll (.node i e (xs ++ y :: ys)) (.node i e zs) ∧
          Kind.Separate (zs.map Tree.kind) := by
      intro head' hhead' hlast
      rw [List.append_cons] at h hp ⊢
      exact ih h hp (hhead'.trans (Tree.lastConflict?_concat xs y).symm)
        (Tree.separate_concat hxs hlast)
    rw [List.map_cons, coalesceRun, hkind]
    cases hk : y.kind with
    | conflict lb =>
      cases hh : head.filter fun j => f.kind j == .conflict lb with
      | none =>
        refine hnext (by rw [hk]; rfl) fun xs' x lb' hx hkx hky => ?_
        -- A last conflict with the same labels would have been the head.
        subst hx
        obtain rfl : lb' = lb := Kind.conflict.inj (hky.symm.trans hk)
        have hviewx : f.Shows (x.under (⟨i, e, xs', y :: ys⟩ :: K) :: ts) := by
          simpa [Tree.under, Frame.fill] using h
        have hhead' : head = some x.id := by
          rw [hhead, Tree.lastConflict?_concat, hkx]
          rfl
        have hnot := Option.filter_eq_none_iff.1 hh x.id hhead'
        rw [hviewx.kind_eq, hkx] at hnot
        simp at hnot
      | some j =>
        obtain ⟨hj, heq⟩ := Option.filter_eq_some_iff.1 hh
        obtain ⟨xs', x, rfl, rfl⟩ : ∃ xs' x, xs = xs' ++ [x] ∧ x.id = j := by
          rcases xs.eq_nil_or_concat' with rfl | ⟨xs', x, rfl⟩
          · rw [hhead] at hj
            cases hj
          · rw [hhead, Tree.lastConflict?_concat] at hj
            obtain ⟨-, -, hid⟩ := Option.map_eq_some_iff.1 hj
            exact ⟨xs', x, rfl, hid⟩
        have hviewx : f.Shows (x.under (⟨i, e, xs', y :: ys⟩ :: K) :: ts) := by
          simpa [Tree.under, Frame.fill] using h
        have hkx : x.kind = .conflict lb := by
          rw [← hviewx.kind_eq]
          simpa using heq
        rw [List.append_assoc, List.singleton_append] at h hp ⊢
        obtain ⟨g₁, x', hg₁, hid, hkx', h₁, hstep⟩ :=
          h.absorb_neighbour (hp.of_mem (by simp)) hpy hkx hk
        rw [List.append_cons xs' x'] at h₁ hstep
        -- The head has grown, but it is the same conflict.
        have hgrown : some x.id = Tree.lastConflict? (xs' ++ [x']) := by
          rw [Tree.lastConflict?_concat, hkx', hkx, ← hid]
          rfl
        obtain ⟨g, zs, hg, hshows, hall, hzs⟩ := ih h₁ (hstep.sided hp) hgrown
          (by simpa [hkx'] using hxs)
        exact ⟨g, zs, (bind_of_ok hg₁ _).trans hg, hshows, .head hstep hall, hzs⟩
    | _ => exact hnext (by rw [hk]; rfl) fun _ _ _ _ _ hky => by rw [hk] at hky; cases hky

/-! ## All the way down -/

/-- Coalescing below a node, down to a depth, is a series of steps below that node. If it goes deep
enough, none is left to make. -/
def CoalescesTo (depth : Nat) : Prop :=
  ∀ {f : Forest} {i : NodeId} {e : Entry} {cs : List Tree} {K : Frames} {ts : List Tree},
    f.Shows ((Tree.node i e cs).under K :: ts) → (Tree.node i e cs).Sided false →
    ∃ g zs, f.coalesceTo depth i = .ok g ∧ g.Shows ((Tree.node i e zs).under K :: ts) ∧
      Tree.AbsorbsAll (.node i e cs) (.node i e zs) ∧
      ((Tree.idsAll cs).length < depth → (Tree.node i e zs).Coalesced)

/-- The children of a node from some place on are coalesced one after the other. -/
theorem CoalescesTo.children {depth : Nat} (hdepth : CoalescesTo depth) {f : Forest} {i : NodeId}
    {e : Entry} {xs ys : List Tree} {K : Frames} {ts : List Tree}
    (h : f.Shows ((Tree.node i e (xs ++ ys)).under K :: ts)) (hys : ∀ y ∈ ys, y.Sided false) :
    ∃ g zs, (ys.map Tree.id).foldlM (fun f child =>
        if (f.kind child).isContainer then f.coalesceTo depth child else .ok f) f = .ok g ∧
      g.Shows ((Tree.node i e (xs ++ zs)).under K :: ts) ∧
      Tree.AbsorbsAll (.node i e (xs ++ ys)) (.node i e (xs ++ zs)) ∧
      zs.map Tree.kind = ys.map Tree.kind ∧
      ((Tree.idsAll ys).length ≤ depth → ∀ z ∈ zs, z.Coalesced) := by
  induction ys generalizing f xs with
  | nil => exact ⟨f, [], rfl, h, .refl, rfl, fun _ _ hz => by cases hz⟩
  | cons y ys ih =>
    obtain ⟨j, d, ds⟩ := y
    obtain ⟨hy, hys'⟩ := List.forall_mem_cons.1 hys
    have hview : f.Shows ((Tree.node j d ds).under (⟨i, e, xs, ys⟩ :: K) :: ts) := h
    have hkind : f.kind j = d.kind := hview.kind_eq
    rw [List.map_cons, List.foldlM_cons, Tree.id_node, hkind]
    simp only [Tree.idsAll, Tree.ids, List.length_append, List.length_cons]
    by_cases hd : d.kind.isContainer = true
    · rw [if_pos hd]
      obtain ⟨g₁, ds', hg₁, hshows₁, hall₁, hds'⟩ := hdepth hview hy
      have hall₂ : Tree.AbsorbsAll (.node i e (xs ++ .node j d ds :: ys))
          (.node i e (xs ++ .node j d ds' :: ys)) := hall₁.fill ⟨i, e, xs, ys⟩
      have hview₁ : g₁.Shows ((Tree.node i e (xs ++ .node j d ds' :: ys)).under K :: ts) := hshows₁
      rw [List.append_cons xs (.node j d ds')] at hview₁ hall₂
      obtain ⟨g₂, zs, hg₂, hshows₂, hall₃, hkinds, hzs⟩ := ih hview₁ hys'
      rw [List.append_assoc, List.singleton_append] at hshows₂
      refine ⟨g₂, .node j d ds' :: zs, (bind_of_ok hg₁ _).trans hg₂, hshows₂, ?_, ?_, ?_⟩
      · rw [List.append_cons xs (.node j d ds')]
        exact hall₂.trans hall₃
      · rw [List.map_cons, List.map_cons, hkinds]
        rfl
      · intro hlength
        exact List.forall_mem_cons.2 ⟨hds' (by omega), hzs (by omega)⟩
    · rw [if_neg hd]
      obtain ⟨l, hl⟩ := Kind.exists_leaf (Bool.not_eq_true _ ▸ hd)
      have hbare : Tree.SidedAt false d.kind ds := hy.at_top
      rw [hl] at hbare
      obtain rfl : ds = [] := hbare
      rw [List.append_cons] at h
      obtain ⟨g₂, zs, hg₂, hshows₂, hall₂, hkinds, hzs⟩ := ih h hys'
      simp only [List.append_assoc, List.singleton_append] at hshows₂ hall₂
      refine ⟨g₂, .node j d [] :: zs, hg₂, hshows₂, hall₂, ?_, fun hlength => ?_⟩
      · rw [List.map_cons, List.map_cons, hkinds]
      · have hnil : (Tree.node j d []).Coalesced := .node List.isChain_nil (by simp)
        exact List.forall_mem_cons.2 ⟨hnil, hzs (by omega)⟩

theorem coalesceTo_spec (depth : Nat) : CoalescesTo depth := by
  intro f i e cs K ts h hp
  induction depth generalizing f i e cs K ts with
  | zero => exact ⟨f, cs, rfl, h, .refl, fun hlength => absurd hlength (Nat.not_lt_zero _)⟩
  | succ depth ih =>
    have hc : f.children i = cs.map Tree.id := h.children_eq
    have hrun : f.Shows ((Tree.node i e ([] ++ cs)).under K :: ts) := h
    obtain ⟨g₁, ds, hg₁, hshows₁, hall₁, hds⟩ := coalesceRun_spec hrun hp rfl List.isChain_nil
    have hall₁' : Tree.AbsorbsAll (.node i e cs) (.node i e ds) := hall₁
    have hc₁ : g₁.children i = ds.map Tree.id := hshows₁.children_eq
    have hfrom : g₁.Shows ((Tree.node i e ([] ++ ds)).under K :: ts) := hshows₁
    have hsided : (Tree.node i e ds).Sided false := hall₁'.sided hp
    have hdepth : CoalescesTo depth := ih
    obtain ⟨g₂, zs, hg₂, hshows₂, hall₂, hkinds, hzs⟩ :=
      hdepth.children hfrom fun c hc => hsided.of_mem hc
    refine ⟨g₂, zs, ?_, hshows₂, hall₁'.trans hall₂, fun hlength => ?_⟩
    · rw [coalesceTo, hc]
      refine (bind_of_ok hg₁ _).trans ?_
      rw [hc₁]
      exact hg₂
    · have hle := hall₁'.ids.2.1
      simp only [Tree.ids, List.length_cons] at hle
      exact .node (by rwa [hkinds]) (hzs (by omega))

/-- Coalescing comes to an end without an error and is a series of steps. -/
theorem coalesce_spec {f : Forest} {e : Entry} {cs : List Tree} {ts : List Tree}
    (h : f.Shows (.node root e cs :: ts)) (hp : (Tree.node root e cs).Sided false) :
    ∃ g zs, f.coalesce = .ok g ∧ g.Shows (.node root e zs :: ts) ∧
      Tree.AbsorbsAll (.node root e cs) (.node root e zs) := by
  obtain ⟨g, zs, hg, hshows, hall, -⟩ := coalesceTo_spec f.size (K := []) h hp
  exact ⟨g, zs, hg, hshows, hall⟩

end Forest

end StubMerge
