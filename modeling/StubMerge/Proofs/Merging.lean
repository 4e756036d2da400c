import StubMerge.Proofs.Coalescing
import StubMerge.Proofs.Passes

/-!
# Merging two outlines

A merge of two outlines is a first pass, a second pass and a series of steps in which conflicts
absorb their neighbours. Here the parts are put together: a merge of outlines without conflicts
comes to an end without an error (`Keeps.merge`), and its result can be resolved to either side
(`Stands.resolve`), with what resolving would leave before anything was absorbed.
-/

namespace StubMerge

namespace Merger

variable {left right : Source}
  {I : Merger → Tree → List Opened → List Declaration → Prop}

/-- A merge that stands can be ended, and the result shows what was absorbed. -/
theorem Stands.finish {m : Merger} {t : Tree} (hm : m.Stands t) :
    ∃ g t', m.finish = .ok ⟨g, m.conflicts.toList⟩ ∧ m.output.coalesce = .ok g ∧ g.Shows [t'] ∧
      t'.id = Forest.root ∧ t.AbsorbsAll t' := by
  obtain ⟨i, e, cs⟩ := t
  obtain rfl : i = Forest.root := hm.top
  obtain ⟨g, zs, hg, hshows, hall⟩ := Forest.coalesce_spec hm.shows (hm.shaped.sided _)
  exact ⟨g, _, by rw [Merger.finish, hg], hg, hshows, rfl, hall⟩

/-- What holds after the first pass and is kept by every step of the second holds of the merge,
before conflicts are coalesced. -/
theorem Follows.merge {I : Merger → Tree → List Opened → List Visit → Prop} (labels : Labels)
    (hI : Follows right.path right.declarations right.groups I) (hl : left.root.isConflictFree = true)
    (hr : right.root.isConflictFree = true)
    (hfirst : ∀ m, m.Stands (firstTree left) → m.labels = labels → m.conflicts = #[] →
      I m (firstTree left) [] []) :
    ∃ m₁ m t g t', ({ labels } : Merger).add left = .ok m₁ ∧ m₁.Stands (firstTree left) ∧
      m.Stands t ∧ m.labels = labels ∧
      (m₁.visits right).map (Visit.declaration right.path) = right.declarations ∧
      I m t [] (m₁.visits right) ∧
      StubMerge.merge labels left right = .ok ⟨g, m.conflicts.toList⟩ ∧
      g.Shows [t'] ∧ t'.id = Forest.root ∧ t.AbsorbsAll t' := by
  obtain ⟨m₁, hadd₁, hm₁, hlabels₁, hstarted₁, hconflicts₁⟩ := add_first labels hl
  obtain ⟨m, t, hadd, hm, hlabels, -, hvisits, hi⟩ :=
    hI.add hr hm₁ hstarted₁ (hfirst m₁ hm₁ hlabels₁ hconflicts₁)
  obtain ⟨g, t', hfinish, -, hshows, htop, hall⟩ := hm.finish
  refine ⟨m₁, m, t, g, t', hadd₁, hm₁, hm, hlabels.trans hlabels₁, hvisits, hi, ?_, hshows, htop,
    hall⟩
  rw [StubMerge.merge]
  exact (bind_of_ok hadd₁ _).trans ((bind_of_ok hadd _).trans hfinish)

/-- As `Follows.merge`, for what speaks of declarations only. -/
theorem Keeps.merge (labels : Labels) (hI : Keeps right.path right.declarations I)
    (hl : left.root.isConflictFree = true) (hr : right.root.isConflictFree = true)
    (hfirst : ∀ m, m.Stands (firstTree left) → m.labels = labels → m.conflicts = #[] →
      I m (firstTree left) [] []) :
    ∃ m₁ m t g t', ({ labels } : Merger).add left = .ok m₁ ∧ m₁.Stands (firstTree left) ∧
      m.Stands t ∧ m.labels = labels ∧ I m t [] right.declarations ∧
      StubMerge.merge labels left right = .ok ⟨g, m.conflicts.toList⟩ ∧
      g.Shows [t'] ∧ t'.id = Forest.root ∧ t.AbsorbsAll t' := by
  obtain ⟨m₁, m, t, g, t', hadd, hm₁, hm, hlabels, hvisits, hi, hrest⟩ :=
    (hI.follows right.groups).merge labels hl hr hfirst
  exact ⟨m₁, m, t, g, t', hadd, hm₁, hm, hlabels, by rwa [hvisits] at hi, hrest⟩

/-- The root is still a group after conflicts were coalesced. -/
theorem Stands.group_of_absorbsAll {m : Merger} {t t' : Tree} (hm : m.Stands t)
    (hall : t.AbsorbsAll t') : t'.kind = .group := by
  have hsettles : Tree.SettlesAs .left t t' := Tree.AbsorbsAll.settlesAs hall hm.shaped.paired
  rw [← hm.group]
  exact congrArg (fun x : NodeId × Entry => x.2.kind) hsettles.header

/-- A merge can be resolved to either side after conflicts were coalesced. -/
theorem Stands.resolve {m : Merger} {t t' : Tree} {g : Forest} (hm : m.Stands t)
    (hall : t.AbsorbsAll t') (hshows : g.Shows [t']) (side : Side) :
    ∃ r us, g.resolve side = .ok r ∧
      r.Shows (.node Forest.root t.entry (Tree.settledAll side t.children) :: us) := by
  have hpaired := Tree.AbsorbsAll.paired hall hm.shaped.paired
  have hsettles : Tree.SettlesAs side t t' := Tree.AbsorbsAll.settlesAs hall hm.shaped.paired
  obtain ⟨i, e, cs⟩ := t
  obtain ⟨i', e', cs'⟩ := t'
  obtain ⟨rfl, rfl⟩ := Prod.mk.inj hsettles.header
  obtain rfl : i' = Forest.root := hm.top
  have hgroup : e'.kind = .group := hm.group
  obtain ⟨r, us, hr, hres⟩ := Forest.resolve_spec (K := []) hshows (fun c hc => hpaired.of_mem hc)
    (by rw [hgroup]; rfl) side
  refine ⟨r, us ++ [], hr, ?_⟩
  rw [show Tree.settledAll side cs' = Tree.settledAll side cs from hsettles.body] at hres
  exact hres

end Merger

/-! ## Two outlines

Two outlines of one library in which every kind of conflict comes up: `Car` has two headers, `MAX`
has two values, and each of `Plan` and `VERSION` is a scope in one of them only. -/

/-- The first of the two. -/
def oldCars : Outline :=
  .node {} [
    .node { kind := .scope (.classOf "Car" (some "Vehicle")), comments := ["A car."] } [
      .node { kind := .leaf (.method { name := "wheels" }) } [],
      .node { kind := .leaf (.const "MAX" "1") } []],
    .node { kind := .scope (.moduleOf "Plan") } [
      .node { kind := .leaf (.method { name := "go" }) } []],
    .node { kind := .leaf (.const "VERSION" "1") } []]

/-- The second of the two. -/
def newCars : Outline :=
  .node {} [
    .node { kind := .scope (.classOf "Car" (some "Machine")), comments := ["A machine."] } [
      .node { kind := .leaf (.method
        { name := "wheels", signatures := [{ result := some "Integer" }] }) } [],
      .node { kind := .leaf (.const "MAX" "2") } [],
      .node { kind := .leaf (.method { name := "doors" }) } []],
    .node { kind := .leaf (.const "Plan" "nil") } [],
    .node { kind := .scope (.moduleOf "VERSION") } [
      .node { kind := .leaf (.method { name := "major" }) } []]]

end StubMerge
