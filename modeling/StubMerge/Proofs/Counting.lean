import StubMerge.Proofs.Extension

/-!
# Conflicts and their records

A merge writes a record when two declarations do not agree, and it makes a conflict in the tree
when there is none that it can use. So there are never more conflicts than records. And there is a
conflict as soon as there is a record: one that makes no conflict of its own belongs to a conflict
that is there already, be it that a tree joins the right side of one (`Sets.join`) or that a third
header meets two that are in conflict (`OpensScope.third`).

`Merger.Counted` is that invariant. Coalescing takes conflicts away, but never the last one, and
resolving takes all of them away.
-/

namespace StubMerge

namespace Tree

mutual
/-- How many conflicts a tree has. -/
def conflicts : Tree → Nat
  | node _ e cs => (if e.kind.isConflict then 1 else 0) + conflictsAll cs
/-- How many conflicts several trees have. -/
def conflictsAll : List Tree → Nat
  | [] => 0
  | c :: cs => c.conflicts + conflictsAll cs
end

@[simp] theorem conflictsAll_append (cs ds : List Tree) :
    conflictsAll (cs ++ ds) = conflictsAll cs + conflictsAll ds := by
  induction cs with
  | nil => simp [conflictsAll]
  | cons c cs ih => simp [conflictsAll, ih, Nat.add_assoc]

/-- What is no conflict has those below it. -/
theorem conflicts_of_not_conflict {i : NodeId} {e : Entry} {cs : List Tree}
    (h : e.kind.isConflict = false) : (node i e cs).conflicts = conflictsAll cs := by
  simp [conflicts, h]

theorem conflicts_of_conflict {i : NodeId} {e : Entry} {cs : List Tree}
    (h : e.kind.isConflict = true) : (node i e cs).conflicts = conflictsAll cs + 1 := by
  simp [conflicts, h, Nat.add_comm]

end Tree

/-- How many conflicts there are apart from the missing tree. -/
def Frames.conflicts : Frames → Nat
  | [] => 0
  | k :: K => (if k.entry.kind.isConflict then 1 else 0) + Tree.conflictsAll k.before +
      Tree.conflictsAll k.after + conflicts K

theorem Tree.conflicts_under (t : Tree) (K : Frames) :
    (t.under K).conflicts = t.conflicts + Frames.conflicts K := by
  induction K generalizing t with
  | nil => rfl
  | cons k K ih =>
    rw [under_cons, ih, Frames.conflicts, Frame.fill, conflicts, conflictsAll_append, conflictsAll]
    omega

/-- Below a conflict, and only there, a node is not a member. -/
theorem Frames.conflicts_pos {K : Frames} (h : slot K ≠ .member) : 0 < conflicts K := by
  cases K with
  | nil => exact absurd rfl h
  | cons k K =>
    have hk : k.entry.kind.isConflict = true := by
      by_contra hk
      exact h (Kind.slot_eq_member (by simpa using hk) _)
    rw [conflicts, if_pos hk]
    omega

/-! ## The count of a forest -/

namespace Tree

theorem countP_placesAt (t : Tree) (slot : Slot) (above : List Step) :
    (t.placesAt slot above).countP (fun p => p.kind.isConflict) = t.conflicts := by
  induction t using induct generalizing slot above with
  | step i e cs ih =>
    have hcs : ∀ ds, (∀ d ∈ ds, d ∈ cs) → ∀ first above,
        (placesAll e.kind first above ds).countP (fun p => p.kind.isConflict) =
          conflictsAll ds := by
      intro ds
      induction ds with
      | nil => intros; rfl
      | cons d ds ihd =>
        intro hd first above
        rw [placesAll, List.countP_append, ih d (hd d (by simp)), conflictsAll,
          ihd fun x hx => hd x (by simp [hx])]
    rw [placesAt, List.countP_cons, conflicts, hcs cs fun _ h => h]
    exact Nat.add_comm _ _

/-- There are no conflicts if no place is one. -/
theorem conflicts_eq_zero {t : Tree} :
    t.conflicts = 0 ↔ ∀ p ∈ t.places, p.kind.isConflict = false := by
  rw [← countP_placesAt t .member [], List.countP_eq_zero]
  simp [places]

end Tree

/-- The conflicts that the root reaches are those of its tree. -/
theorem Forest.Shows.conflictCount_eq {f : Forest} {t : Tree} {ts : List Tree}
    (h : f.Shows (t :: ts)) (htop : t.id = root) (hgroup : t.kind = .group) :
    f.conflictCount = t.conflicts := by
  have hroot : (f.kind root).isConflict = false := by
    have hkind : f.kind t.id = t.kind := h.kind_eq (s := t) (K := [])
    rw [← htop, hkind, hgroup]
    rfl
  calc f.conflictCount
      = (root :: f.descendants root).countP (fun n => (f.kind n).isConflict) := by
        rw [conflictCount, List.countP_cons, hroot]
        simp
    _ = t.places.countP ((fun n => (f.kind n).isConflict) ∘ Place.id) := by
        rw [h.reached_eq htop, List.countP_map]
    _ = t.places.countP fun p => p.kind.isConflict := by
        refine List.countP_congr fun p hp => ?_
        rw [Function.comp_apply, h.kind_of_mem hp]
    _ = t.conflicts := t.countP_placesAt _ _

/-! ## What a merge does to the count -/

namespace Merger

variable {m m' : Merger} {t t' : Tree} {scopes : List NodeId} {keys : List String} {d : Entry}
  {i : NodeId}

/-- There are no more conflicts than records, and none only if there is no record. -/
structure Counted (m : Merger) (t : Tree) : Prop where
  le : t.conflicts ≤ m.conflicts.size
  zero : t.conflicts = 0 → m.conflicts = #[]

/-- Without a record the count stays as it is. -/
theorem Counted.of_same (h : Counted m t) (hm : m'.conflicts = m.conflicts)
    (ht : t'.conflicts = t.conflicts) : Counted m' t' :=
  ⟨by rw [hm, ht]; exact h.le, fun h₀ => by rw [hm]; exact h.zero (ht ▸ h₀)⟩

/-- With a record there may be a conflict more, and there is one. -/
theorem Counted.of_record (h : Counted m t)
    (hm : m'.conflicts = (m.record keys d i).conflicts) (ht : t'.conflicts ≤ t.conflicts + 1)
    (hpos : 0 < t'.conflicts) : Counted m' t' := by
  refine ⟨?_, fun h₀ => absurd h₀ (Nat.ne_of_gt hpos)⟩
  rw [hm, record, Array.size_push]
  exact ht.trans (Nat.succ_le_succ h.le)

/-- A bare node that is no conflict brings none in. -/
theorem conflicts_bare (h : d.kind.isConflict = false) : (Tree.node i d []).conflicts = 0 := by
  rw [Tree.conflicts_of_not_conflict h, Tree.conflictsAll]

/-- Setting a tree against a node uses a conflict that is there, or makes one. -/
theorem Sets.conflicts {l : Labels} {n : NodeId} {p : Place} {c : Tree} (h : Sets l n p c t t')
    (hc : c.conflicts = 0) : t'.conflicts ≤ t.conflicts + 1 ∧ 0 < t'.conflicts := by
  cases h with
  | @join K i e cs hK _ _ _ =>
    have hpos : 0 < Frames.conflicts K := Frames.conflicts_pos (by rw [hK]; simp)
    simp only [Tree.conflicts_under, Tree.conflicts, Tree.conflictsAll_append, Tree.conflictsAll, hc]
    omega
  | @wrap K s _ _ _ _ _ =>
    simp only [Tree.conflicts_under, Tree.opposed, Tree.conflicts, Tree.conflictsAll, hc,
      Kind.isConflict, if_true, Bool.false_eq_true, if_false]
    omega

theorem AddsLeaf.counted (h : AddsLeaf m scopes keys d t m' t') (hd : d.kind.isContainer = false)
    (hi : Counted m t) : Counted m' t' := by
  obtain ⟨l, hl⟩ := Kind.exists_leaf hd
  have hd : d.kind.isConflict = false := by rw [hl]; rfl
  cases h with
  | new _ _ _ hm =>
    refine hi.of_same hm ?_
    simp only [Tree.conflicts_under, Tree.conflicts, Tree.conflictsAll_append, Tree.conflictsAll,
      hd, Bool.false_eq_true, if_false, Nat.add_zero]
  | fold _ _ hagree hm =>
    refine hi.of_same hm ?_
    have hconf : ∀ e : Entry, e.kind.agrees d.kind = true →
        (e.fold d).kind.isConflict = e.kind.isConflict := by
      intro e he
      have hgrows := (Entry.growsTo_fold he).kind
      generalize e.kind = k, (e.fold d).kind = k' at hgrows
      cases hgrows <;> rfl
    simp only [Tree.conflicts_under, Tree.conflicts, hconf _ hagree]
  | oppose _ _ _ _ hm hsets =>
    obtain ⟨hle, hpos⟩ := hsets.conflicts (conflicts_bare hd)
    exact hi.of_record hm hle hpos

theorem OpensScope.counted (h : OpensScope m scopes keys d t m' t' i)
    (hd : d.kind.isScope = true) (hi : Counted m t) : Counted m' t' := by
  have hd : d.kind.isConflict = false := Kind.isConflict_of_scope hd
  cases h with
  | new _ _ _ hm =>
    refine hi.of_same hm ?_
    simp only [Tree.conflicts_under, Tree.conflicts, Tree.conflictsAll_append, Tree.conflictsAll,
      hd, Bool.false_eq_true, if_false, Nat.add_zero]
  | oppose _ _ _ _ hm hsets =>
    obtain ⟨hle, hpos⟩ := hsets.conflicts (conflicts_bare hd)
    exact hi.of_record hm hle hpos
  | fold _ _ _ hm => exact hi.of_same hm (by simp only [Tree.conflicts_under, Tree.conflicts]; rfl)
  | foldOther _ _ _ _ _ _ _ hm =>
    exact hi.of_same hm (by simp only [Tree.conflicts_under, Tree.conflicts]; rfl)
  | @third k K i e cs b l m' _ hk _ _ _ _ _ hm =>
    -- The two headers that are there are in conflict.
    refine hi.of_record hm (Nat.le_succ _) ?_
    have hpos : 0 < Frames.conflicts (k :: K) :=
      Frames.conflicts_pos (by rw [Frames.slot, hk]; simp [Kind.slot])
    rw [Tree.conflicts_under]
    omega
  | @second K i e cs _ _ _ _ _ hm =>
    have hcount : (Tree.opposedHeaders m.output.size m.labels (.node i e cs) d).conflicts =
        (Tree.node i e cs).conflicts + 1 := by
      rw [Tree.opposedHeaders, Tree.conflicts_of_conflict rfl, Tree.conflictsAll,
        Tree.conflictsAll, conflicts_bare hd, Tree.conflictsAll]
    refine hi.of_record hm ?_ ?_ <;> rw [Tree.conflicts_under, hcount]
    · rw [Tree.conflicts_under]
      omega
    · omega

/-- The invariant is kept by every pass after the first. -/
theorem keeps_counted (base : String) (all : List Declaration) :
    Keeps base all fun m t _ _ => Counted m t where
  close h := h
  comments _ _ _ hi := hi.of_same rfl (by simp only [Tree.conflicts_under, Tree.conflicts]; rfl)
  leaf _ he _ _ hi _ _ hcase := hcase.counted he hi
  scope _ he _ _ hi _ _ hcase := hcase.counted he hi

end Merger

namespace Merger

/-- After the first pass there are no conflicts. -/
theorem conflicts_firstTree {s : Source} (hs : s.root.isConflictFree = true) :
    (firstTree s).conflicts = 0 :=
  Tree.conflicts_eq_zero.2 fun p hp => (quiet_firstTree hs p hp).kind

/-- Any number of outlines can be merged, and their conflicts are counted. -/
theorem exists_counted (labels : Labels) {ss : List Source}
    (hss : ∀ s ∈ ss, s.root.isConflictFree = true) :
    ∃ m t, ss.foldlM Merger.add { labels } = .ok m ∧ m.Stands t ∧ Counted m t := by
  have hfirst : ∀ {s : Source} {m : Merger}, s.root.isConflictFree = true → m.conflicts = #[] →
      Counted m (firstTree s) := by
    intro s m hs hconflicts
    have hzero := conflicts_firstTree hs
    exact ⟨by rw [hzero]; exact Nat.zero_le _, fun _ => hconflicts⟩
  obtain ⟨m, t, hfold, hm, -, hcount⟩ := exists_foldlM_keeps labels keeps_counted
    ⟨Nat.zero_le _, fun _ => rfl⟩ hfirst hss
  exact ⟨m, t, hfold, hm, hcount⟩

end Merger

/-! ## Coalescing and resolving -/

namespace Tree

variable {t t' : Tree}

/-- A conflict that absorbs its neighbour is there afterwards. -/
theorem Absorbs.conflicts (h : Absorbs t t') : t.conflicts = t'.conflicts + 1 ∧ 0 < t'.conflicts := by
  cases h with
  | @step K i c l r c' l' r' e d dl dr d' dl' dr' xs ys ls rs ls' rs' lb hd hd' hl hr hl' hr' =>
    have hconflict : ∀ {x y z : NodeId} {g gl gr : Entry} {us vs : List Tree},
        g.kind = .conflict lb → gl.kind = .group → gr.kind = .group →
        (node x g [node y gl us, node z gr vs]).conflicts =
          conflictsAll us + conflictsAll vs + 1 := by
      intro x y z g gl gr us vs hg hgl hgr
      rw [conflicts_of_conflict (by rw [hg]; rfl), conflictsAll, conflictsAll, conflictsAll,
        conflicts_of_not_conflict (by rw [hgl]; rfl), conflicts_of_not_conflict (by rw [hgr]; rfl)]
      rfl
    simp only [conflicts_under, Tree.conflicts.eq_1 i, conflictsAll_append, conflictsAll,
      hconflict hd hl hr, hconflict hd' hl' hr']
    omega

/-- Coalescing leaves no more conflicts, and some if there were some. -/
theorem AbsorbsAll.conflicts (h : t.AbsorbsAll t') :
    t'.conflicts ≤ t.conflicts ∧ (t'.conflicts = 0 → t.conflicts = 0) := by
  induction h with
  | refl => exact ⟨Nat.le_refl _, fun h₀ => h₀⟩
  | tail _ hstep ih =>
    obtain ⟨hcount, hpos⟩ := hstep.conflicts
    exact ⟨by omega, fun h₀ => by omega⟩

/-- What is settled has no conflicts. -/
theorem conflicts_settled (side : Side) (t : Tree) (ht : t.Paired) :
    conflictsAll (t.settled side) = 0 ∧ conflictsAll (settledAll side t.children) = 0 := by
  induction t using induct with
  | step i e cs ih =>
    have hall : ∀ ds : List Tree, (∀ d ∈ ds, d ∈ cs) → conflictsAll (settledAll side ds) = 0 := by
      intro ds
      induction ds with
      | nil => intro _; rfl
      | cons d ds ihd =>
        intro hd
        have hmem := hd d List.mem_cons_self
        rw [settledAll, conflictsAll_append, (ih d hmem (ht.of_mem hmem)).1,
          ihd fun x hx => hd x (List.mem_cons_of_mem _ hx)]
    refine ⟨?_, hall cs fun _ h => h⟩
    by_cases hconf : e.kind.isConflict = true
    · have hat : PairedAt e.kind cs := ht.at_top
      cases hk : e.kind with
      | conflict lb =>
        rw [hk] at hat
        obtain ⟨⟨l, d, ls⟩, ⟨r, d', rs⟩, rfl, -, -⟩ := hat
        rw [settled_conflict hk]
        cases side with
        | left => exact (ih (node l d ls) (by simp) (ht.of_mem (by simp))).2
        | right => exact (ih (node r d' rs) (by simp) (ht.of_mem (by simp))).2
      | scopeConflict lb =>
        rw [hk] at hat
        obtain ⟨⟨a, da, as⟩, ⟨b, db, bs⟩, rfl, ha, hb⟩ := hat
        replace ha : da.kind.isScope = true := ha
        replace hb : db.kind.isScope = true := hb
        have has : conflictsAll (settledAll side as) = 0 :=
          (ih (node a da as) (by simp) (ht.of_mem (by simp))).2
        have hbs : conflictsAll (settledAll side bs) = 0 :=
          (ih (node b db bs) (by simp) (ht.of_mem (by simp))).2
        rw [settled_headers hk ha hb, keptHeader]
        cases side with
        | left =>
          rw [Side.pick, settled_of_not_conflict (Kind.isConflict_of_scope ha), conflictsAll,
            conflicts_of_not_conflict (Kind.isConflict_of_scope ha), has, conflictsAll]
        | right =>
          rw [Side.pick, settled_of_not_conflict (Kind.isConflict_of_scope hb), conflictsAll,
            conflicts_of_not_conflict (Kind.isConflict_of_scope hb), settledAll_append,
            conflictsAll_append, has, hbs, conflictsAll]
      | group | scope _ | leaf _ => simp [hk, Kind.isConflict] at hconf
    · have hconf : e.kind.isConflict = false := by simpa using hconf
      rw [settled_of_not_conflict hconf, conflictsAll, conflicts_of_not_conflict hconf,
        hall cs fun _ h => h, conflictsAll]

end Tree

namespace Merger

variable {m : Merger} {t t' : Tree} {g : Forest}

/-- The conflicts of a merge that was ended, and its records. -/
theorem Counted.conflictCount (hi : Counted m t) (hm : m.Stands t) (hall : t.AbsorbsAll t')
    (hshows : g.Shows [t']) (htop : t'.id = Forest.root) :
    g.conflictCount ≤ m.conflicts.toList.length ∧
      (g.conflictCount = 0 ↔ m.conflicts.toList = []) := by
  have hgroup : t'.kind = .group := hm.group_of_absorbsAll hall
  obtain ⟨hle, hzero⟩ := hall.conflicts
  rw [hshows.conflictCount_eq htop hgroup]
  refine ⟨hle.trans hi.le, fun h₀ => ?_, fun h₀ => ?_⟩
  · rw [hi.zero (hzero h₀)]
  · have hsize : m.conflicts.size = 0 := by
      rw [← Array.length_toList, h₀, List.length_nil]
    exact Nat.le_zero.1 (hsize ▸ hle.trans hi.le)

/-- A merge that was ended can be resolved, and then has no conflicts. -/
theorem Stands.conflictCount_resolve (hm : m.Stands t) (hall : t.AbsorbsAll t')
    (hshows : g.Shows [t']) (side : Side) :
    ∃ r, g.resolve side = .ok r ∧ r.conflictCount = 0 := by
  obtain ⟨r, us, hr, hres⟩ := hm.resolve hall hshows side
  have hgroup : t.entry.kind = .group := hm.group
  refine ⟨r, hr, ?_⟩
  rw [hres.conflictCount_eq rfl hgroup, Tree.conflicts_of_not_conflict (by rw [hgroup]; rfl)]
  exact (Tree.conflicts_settled side t hm.shaped.paired).2

/-- However many outlines are merged: there are at most as many conflicts as records, there is a
conflict if there is a record, and after resolving to a side there is none. -/
theorem exists_finish (labels : Labels) {ss : List Source}
    (hss : ∀ s ∈ ss, s.root.isConflictFree = true) :
    ∃ m res, ss.foldlM Merger.add { labels } = .ok m ∧ m.finish = .ok res ∧
      res.forest.conflictCount ≤ res.conflicts.length ∧
      (res.forest.conflictCount = 0 ↔ res.conflicts = []) ∧
      ∀ side, ∃ r, res.forest.resolve side = .ok r ∧ r.conflictCount = 0 := by
  obtain ⟨m, t, hfold, hm, hcount⟩ := exists_counted labels hss
  obtain ⟨g, t', hfinish, -, hshows, htop, hall⟩ := hm.finish
  obtain ⟨hle, hzero⟩ := hcount.conflictCount hm hall hshows htop
  exact ⟨m, _, hfold, hfinish, hle, hzero, hm.conflictCount_resolve hall hshows⟩

end Merger

end StubMerge
