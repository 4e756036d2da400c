import StubMerge.Proofs.Extension
import StubMerge.Proofs.Soundness

/-!
# What every merge comes to

A merge of outlines without conflicts never fails, however many there are, and what it puts out is
a forest in which every conflict has its shape. That is put together from what is known of the
parts: passes can be made (`Merger.exists_foldlM_add`), they keep forests (`Merger.Sound`), and the
tree they leave is shaped (`Merger.Stands`). Coalescing keeps both.

**Open scopes.** `Merger.visit` is given the scopes that are open. `Walk` has them in its state
instead: a scope is pushed when it is opened, and when its body is done the scopes are cut down to
as many as there were before. Both come to the same (`Walk.visit_eq`), so after a pass no scope is
left open.
-/

namespace StubMerge

/-! ## Open scopes as a stack -/

/-- A merge together with the scopes that are open, the innermost first. -/
structure Walk where
  merger : Merger
  scopes : List NodeId := []

namespace Walk

/-- Cuts the open scopes down to as many as there were at the start. -/
def reset (w : Walk) (start : Nat) : Walk :=
  { w with scopes := w.scopes.drop (w.scopes.length - start) }

mutual
/-- Merges an outline into the innermost open scope. -/
def visit (w : Walk) (path : String) : Outline → Except EditError Walk
  | .node entry cs =>
    match entry.kind with
    | .group =>
      let m := w.merger
      let f := m.output.unionComments (Merger.currentScope w.scopes) entry.comments
      visitAll { w with merger := { m with output := f } } path cs
    | .conflict _ | .scopeConflict _ => do
      let (m, _) ← w.merger.copyInto (Merger.currentScope w.scopes) (.node entry cs)
      return { w with merger := m }
    | .scope _ => do
      let (m, scope) ← w.merger.openScope w.scopes path entry
      let body ← visitAll { merger := m, scopes := scope :: w.scopes } (entry.kind.within path) cs
      return body.reset w.scopes.length
    | .leaf _ => do
      let m ← w.merger.addLeaf w.scopes path (.node entry cs)
      return { w with merger := m }
/-- Merges outlines, one after the other. -/
def visitAll (w : Walk) (path : String) : List Outline → Except EditError Walk
  | [] => .ok w
  | c :: cs => do
    let w ← w.visit path c
    w.visitAll path cs
end

/-- Takes in an outline. -/
def add (w : Walk) (s : Source) : Except EditError Walk :=
  let m := w.merger
  let f := m.output.unionComments Forest.root s.root.entry.comments
  let ready : Walk := { w with merger := { m with output := f, started := true } }
  if m.started then ready.visitAll s.path s.root.children
  else do
    let m ← ready.merger.copyAll s.root.children
    return { ready with merger := m }

mutual
/-- A visit leaves open what was open. -/
theorem visit_eq : ∀ (o : Outline) (m : Merger) (scopes : List NodeId) (path : String),
    visit ⟨m, scopes⟩ path o = (m.visit scopes path o).map (⟨·, scopes⟩)
  | .node entry cs, m, scopes, path => by
    rw [visit, Merger.visit]
    cases entry.kind with
    | group => exact visitAll_eq cs _ _ _
    | conflict l | scopeConflict l =>
      simp only
      cases m.copyInto (Merger.currentScope scopes) (.node entry cs) <;> rfl
    | scope s =>
      simp only
      cases m.openScope scopes path entry with
      | error e => rfl
      | ok made =>
        obtain ⟨m', i⟩ := made
        simp only [bind, Except.bind, visitAll_eq cs]
        cases m'.visitAll (i :: scopes) ((Kind.scope s).within path) cs with
        | error e => rfl
        | ok m'' =>
          -- One scope was opened, so one is cut off.
          simp [Except.map, reset, pure, Except.pure]
    | leaf l =>
      simp only
      cases m.addLeaf scopes path (.node entry cs) <;> rfl
/-- Visits leave open what was open. -/
theorem visitAll_eq : ∀ (os : List Outline) (m : Merger) (scopes : List NodeId) (path : String),
    visitAll ⟨m, scopes⟩ path os = (m.visitAll scopes path os).map (⟨·, scopes⟩)
  | [], m, scopes, path => rfl
  | o :: os, m, scopes, path => by
    rw [visitAll, Merger.visitAll, visit_eq o]
    cases m.visit scopes path o with
    | error e => rfl
    | ok m' => exact visitAll_eq os m' scopes path
end

/-- A pass that starts with no open scope ends with none. -/
theorem add_eq (m : Merger) (s : Source) : add ⟨m, []⟩ s = (m.add s).map (⟨·, []⟩) := by
  rw [add, Merger.add]
  simp only
  split
  · exact visitAll_eq _ _ _ _
  · cases Merger.copyAll _ s.root.children <;> rfl

theorem foldlM_add_eq (ss : List Source) (m : Merger) :
    ss.foldlM add ⟨m, []⟩ = (ss.foldlM Merger.add m).map (⟨·, []⟩) := by
  induction ss generalizing m with
  | nil => rfl
  | cons s ss ih =>
    rw [List.foldlM_cons, List.foldlM_cons, add_eq]
    cases m.add s with
    | error e => rfl
    | ok m' => exact ih m'

end Walk

/-! ## The shape of conflicts in a forest -/

namespace Tree

theorem absorbing_shapeAt : Absorbing ShapeAt where
  group _ := trivial
  grow h := by
    obtain ⟨a, b, heq, ha, hb, hna, hnb⟩ := h
    obtain ⟨rfl, rfl⟩ : _ = a ∧ _ = b := by simpa using heq
    refine ⟨_, _, rfl, ha, hb, fun hnil => ?_, fun hnil => ?_⟩
    · exact hna (List.append_eq_nil_iff.1 hnil).1
    · exact hnb (List.append_eq_nil_iff.1 hnil).1
  neighbours := by
    intro kind xs a b ys lb h ha
    obtain ⟨hconf, -⟩ := (PairedAt.of_shapeAt h).not_conflict ha
    cases kind with
    | group | scope _ => exact fun _ => trivial
    | conflict _ | scopeConflict _ => cases hconf
    | leaf _ => simp [ShapeAt] at h
  replace := by
    intro kind before s s' after h hk hne hne'
    refine Shaped.shapeAt_replace h hk (fun _ => hne') fun hright => absurd ?_ hne
    cases kind with
    | scopeConflict l =>
      obtain ⟨a, b, sa, sb, heq, -, -, -, hbare⟩ := h
      rcases Shaped.eq_pair_cases heq with ⟨rfl, -, -⟩ | ⟨-, rfl, -⟩
      · cases hright
      · exact hbare
    | _ => simp [Kind.slot] at hright

/-- Absorbing a neighbour keeps the shape of all conflicts. -/
theorem Absorbs.shaped {t t' : Tree} (h : Absorbs t t') (ht : t.Shaped) : t'.Shaped :=
  absorbing_shapeAt.absorbs h ht

theorem AbsorbsAll.shaped {t t' : Tree} (h : AbsorbsAll t t') (ht : t.Shaped) : t'.Shaped := by
  induction h with
  | refl => exact ht
  | tail _ hstep ih => exact hstep.shaped ih

end Tree

namespace Forest

variable {f : Forest}

/-- What a forest has below a node: below a leaf nothing, below a conflict two groups with
something in them, below a conflict between headers two scopes that do not agree, of which the
second is bare. -/
def ShapedAt (f : Forest) (n : NodeId) : Prop :=
  match f.kind n with
  | .leaf _ => f.children n = []
  | .conflict _ => ∃ l r, f.children n = [l, r] ∧ f.kind l = .group ∧ f.kind r = .group ∧
      f.children l ≠ [] ∧ f.children r ≠ []
  | .scopeConflict _ => ∃ l r, f.children n = [l, r] ∧ (f.kind l).isScope = true ∧
      (f.kind r).isScope = true ∧ (f.kind l).agrees (f.kind r) = false ∧ f.children r = []
  | .group | .scope _ => True

/-- The links of a forest fit together, and every node that the root reaches has its shape. -/
structure WellShaped (f : Forest) : Prop where
  links : f.IsForest
  shape : ∀ n ∈ root :: f.descendants root, f.ShapedAt n

/-- What holds a shaped tree has the shape of its nodes. -/
theorem Shows.shapedAt {t : Tree} {ts : List Tree} (h : f.Shows (t :: ts)) (ht : t.Shaped)
    (htop : t.id = root) {n : NodeId} (hn : n ∈ root :: f.descendants root) : f.ShapedAt n := by
  rw [h.reached_eq htop] at hn
  obtain ⟨p, hp, rfl⟩ := List.mem_map.1 hn
  obtain ⟨K, ⟨i, e, cs⟩, rfl, rfl⟩ := Tree.mem_places.1 hp
  have hat : Tree.ShapeAt e.kind cs := ht.of_under.at_top
  have hkind : f.kind i = e.kind := h.kind_eq
  have hchildren : f.children i = cs.map Tree.id := h.children_eq
  -- A child is below one frame more.
  have hchild : ∀ c ∈ cs, f.kind c.id = c.kind ∧ f.children c.id = c.children.map Tree.id := by
    intro c hc
    obtain ⟨before, after, rfl⟩ := List.append_of_mem hc
    have hview : f.Shows (c.under (⟨i, e, before, after⟩ :: K) :: ts) := h
    exact ⟨hview.kind_eq, hview.children_eq⟩
  show f.ShapedAt i
  rw [ShapedAt, hkind, hchildren]
  cases hk : e.kind with
  | group | scope _ => trivial
  | leaf l =>
    rw [hk] at hat
    simp [show cs = [] from hat]
  | conflict l =>
    rw [hk] at hat
    obtain ⟨a, b, rfl, ha, hb, hna, hnb⟩ := hat
    obtain ⟨hka, hca⟩ := hchild a (by simp)
    obtain ⟨hkb, hcb⟩ := hchild b (by simp)
    exact ⟨a.id, b.id, rfl, hka.trans ha, hkb.trans hb, by simpa [hca], by simpa [hcb]⟩
  | scopeConflict l =>
    rw [hk] at hat
    obtain ⟨a, b, sa, sb, rfl, ha, hb, hagree, hnb⟩ := hat
    obtain ⟨hka, -⟩ := hchild a (by simp)
    obtain ⟨hkb, hcb⟩ := hchild b (by simp)
    refine ⟨a.id, b.id, rfl, ?_, ?_, ?_, by simp [hcb, hnb]⟩
    · rw [hka, ha]; rfl
    · rw [hkb, hb]; rfl
    · rw [hka, hkb, ha, hb]
      exact hagree

end Forest

/-- **No merge of outlines without conflicts fails.** All passes can be made and the merge can be
ended, after each pass no scope is open, and before as after the end the output is well shaped. -/
theorem foldlM_add_wellShaped (labels : Labels) (ss : List Source)
    (hss : ∀ s ∈ ss, s.root.isConflictFree = true) :
    ∃ m res, ss.foldlM Walk.add { merger := { labels } } = .ok { merger := m, scopes := [] } ∧
      ss.foldlM Merger.add { labels } = .ok m ∧ m.finish = .ok res ∧
      m.output.WellShaped ∧ res.forest.WellShaped := by
  obtain ⟨m, t, hfold, hm, -⟩ := Merger.exists_foldlM_add labels hss
  obtain ⟨g, t', hfinish, hcoalesce, hshows, htop, hall⟩ := hm.finish
  have hsound := (Merger.Sound.start labels).foldlM_add hfold
  refine ⟨m, _, ?_, hfold, hfinish, ⟨hsound.forest, fun n hn => ?_⟩, ?_, fun n hn => ?_⟩
  · rw [Walk.foldlM_add_eq, hfold]
    rfl
  · exact hm.shows.shapedAt hm.shaped hm.top hn
  · exact Forest.coalesce_isForest hsound.forest hcoalesce
  · exact hshows.shapedAt (Tree.AbsorbsAll.shaped hall hm.shaped) htop hn

/-- The cars, merged in three passes. -/
theorem cars_wellShaped :
    ∃ m res, [{ root := oldCars }, { root := newCars }, { root := oldCars }].foldlM Walk.add
        { merger := { labels := ⟨"old", "new"⟩ } } = .ok { merger := m, scopes := [] } ∧
      [{ root := oldCars }, { root := newCars }, { root := oldCars }].foldlM Merger.add
        { labels := ⟨"old", "new"⟩ } = .ok m ∧ m.finish = .ok res ∧
      m.output.WellShaped ∧ res.forest.WellShaped :=
  foldlM_add_wellShaped _ _ (by decide)

end StubMerge
