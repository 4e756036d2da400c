import StubMerge.Proofs.Resolving
import StubMerge.Proofs.Viewing

/-!
# Resolving comes to an end

`Forest.resolve` counts its steps, and a count that runs out would look like success. `Resolves`
says what the loop does without a count: it goes on until there is no child at the place where it
looks, or until an edit fails. A derivation is finite, so a loop that has one comes to an end.

**Theorem (`resolve_settles`).** In every forest whose leaves are bare, the loop comes to an end
with the answer that `resolve` gives. If that answer is a forest, its root reaches no conflict. If
every conflict that the root reaches has two sides, the answer is a forest, its tree is the settled
one, nothing else has changed, and resolving it again changes nothing.

A forest may have conflicts with other than two sides, or with sides of any kind, so the run has to
be followed through edits that fail. What one edit does is `Shows.resolveAt`: it fails, or it puts
trees in the place of the conflict that have fewer nodes than the conflict had. That is why a step
for each node is enough (`resolveFrom_resolves`).
-/

namespace StubMerge

namespace Tree

/-- Only containers have something below them. -/
abbrev LeavesBare : Tree → Prop := Everywhere fun kind cs => kind.isContainer = false → cs = []

/-- No node of a tree is a conflict. -/
abbrev Conflictless : Tree → Prop := Everywhere fun kind _ => kind.isConflict = false

/-- Two numbers are those of two trees. -/
theorem exists_pair {cs : List Tree} {a b : NodeId} (h : cs.map id = [a, b]) :
    ∃ s t, cs = [s, t] ∧ s.id = a ∧ t.id = b := by
  obtain ⟨s, cs, rfl, hs, h⟩ := List.map_eq_cons_iff.1 h
  obtain ⟨t, cs, rfl, ht, h⟩ := List.map_eq_cons_iff.1 h
  rw [List.map_eq_nil_iff.1 h]
  exact ⟨s, t, rfl, hs, ht⟩

theorem leavesBare_pick {l r : Tree} {ls rs : List Tree} (side : Side) (hl : l.LeavesBare)
    (hr : r.LeavesBare) (hls : l.children = ls) (hrs : r.children = rs) :
    ∀ c ∈ side.pick ls rs, c.LeavesBare := by
  subst hls hrs
  intro c hc
  rcases side.pick_cases l.children r.children with hp | hp <;> rw [hp] at hc
  · exact hl.of_mem hc
  · exact hr.of_mem hc

theorem leavesBare_keptHeader {a b : NodeId} {da db : Entry} {as bs : List Tree} {side : Side}
    (ha : (node a da as).LeavesBare) (hb : (node b db bs).LeavesBare)
    (hright : side = .right → db.kind.isContainer = true) :
    (keptHeader side a b da db as bs).LeavesBare := by
  cases side with
  | left => exact ha
  | right =>
    refine .node (fun hkind => ?_) fun c hc => ?_
    · rw [hright rfl] at hkind
      cases hkind
    · rcases List.mem_append.1 hc with hc | hc
      · exact hb.of_mem hc
      · exact ha.of_mem hc

end Tree

namespace Forest

variable {f g : Forest} {side : Side} {i c n : NodeId}

/-! ## What nodes carry -/

/-- What the nodes carry, in the order in which they were made. -/
def entries (f : Forest) : Array Entry := f.nodes.map Node.entry

theorem entries_modify (f : Forest) (i : NodeId) {change : Node → Node}
    (h : ∀ n, (change n).entry = n.entry) : (f.modify i change).entries = f.entries := by
  apply Array.ext
  · simp [entries, modify]
  · intro j hj hj'
    simp only [entries, modify, Array.getElem_map, Array.getElem_modify]
    split
    · exact h _
    · rfl

@[simp] theorem entries_setChildren (f : Forest) (i : NodeId) (cs : List NodeId) :
    (f.setChildren i cs).entries = f.entries := f.entries_modify i fun _ => rfl

@[simp] theorem entries_setParent (f : Forest) (i : NodeId) (p : Option NodeId) :
    (f.setParent i p).entries = f.entries := f.entries_modify i fun _ => rfl

@[simp] theorem entries_detach (f : Forest) (i : NodeId) : (f.detach i).entries = f.entries := by
  rw [Forest.detach]
  split <;> simp

theorem entry_eq_of_entries (h : g.entries = f.entries) (i : NodeId) : g.entry i = f.entry i := by
  have hread : ∀ k : Forest, k.entry i = (k.entries[i]?).getD {} := by
    intro k
    rw [entry, node, entries, Array.getElem?_map]
    cases k.nodes[i]? <;> rfl
  rw [hread, hread, h]

theorem size_eq_of_entries (h : g.entries = f.entries) : g.size = f.size := by
  simpa [entries, size] using congrArg Array.size h

theorem kind_eq_of_entries (h : g.entries = f.entries) (i : NodeId) : g.kind i = f.kind i := by
  rw [kind, kind, entry_eq_of_entries h]

theorem entries_insert {p : NodeId} (h : f.insert p n c = .ok g) : g.entries = f.entries := by
  obtain ⟨-, -, -, rfl⟩ := insert_eq_ok h
  simp

theorem entries_replace {old new : NodeId} (h : f.replace old new = .ok g) :
    g.entries = f.entries := by
  obtain ⟨p, xs, ys, -, -, -, -, rfl⟩ := replace_eq_ok h
  simp

theorem entries_setParents (cs : List NodeId) (f : Forest) (p : Option NodeId) :
    (cs.foldl (fun f child => f.setParent child p) f).entries = f.entries := by
  induction cs generalizing f with
  | nil => rfl
  | cons c cs ih => rw [List.foldl_cons, ih, entries_setParent]

theorem entries_moveChildren {a b : NodeId} (h : f.moveChildren a b = .ok g) :
    g.entries = f.entries ∧ (f.kind b).isContainer = true := by
  obtain ⟨hkind, -, k, rfl, rfl⟩ := moveChildren_eq_ok h
  refine ⟨?_, hkind⟩
  rw [entries_setChildren, entries_setParents, entries_setChildren]

theorem entries_splice {ids : List NodeId} (h : f.splice i n ids = .ok g) :
    g.entries = f.entries := by
  induction ids generalizing f n with
  | nil =>
    obtain rfl := Except.ok.inj h
    rfl
  | cons j ids ih =>
    obtain ⟨f₁, h₁, h⟩ := exists_of_bind_eq_ok h
    rw [ih h, entries_insert (attempt_eq_ok h₁), entries_detach]

theorem entries_resolveGroups (h : f.resolveGroups side i n c = .ok g) :
    g.entries = f.entries := by
  obtain ⟨⟨l, r⟩, -, h⟩ := exists_of_bind_eq_ok h
  rw [entries_splice h, entries_detach]

/-- A conflict between headers can be resolved only if it has two sides. If the right one is to
stay, it has to be a container. -/
theorem resolveHeaders_cases (h : f.resolveHeaders side c = .ok g) : g.entries = f.entries ∧
    ∃ a b, f.children c = [a, b] ∧ (side = .right → (f.kind b).isContainer = true) := by
  obtain ⟨⟨a, b⟩, hsides, h⟩ := exists_of_bind_eq_ok h
  have hchildren := children_of_sidesOrStop hsides
  cases side with
  | left =>
    have hreplace := entries_replace (attempt_eq_ok h)
    exact ⟨by simpa using hreplace, a, b, hchildren, fun hside => by cases hside⟩
  | right =>
    obtain ⟨f₁, h₁, h⟩ := exists_of_bind_eq_ok h
    have hreplace := entries_replace (attempt_eq_ok h)
    obtain ⟨hentries, hkind⟩ := entries_moveChildren (attempt_eq_ok h₁)
    have hdetached : ((f.detach a).detach b).entries = f.entries := by simp
    rw [kind_eq_of_entries hdetached] at hkind
    exact ⟨by rw [hreplace, hentries, hdetached], a, b, hchildren, fun _ => hkind⟩

/-! ## The loop without a count -/

/-- Resolves one conflict among the children of a node. -/
def resolveAt (f : Forest) (side : Side) (container position conflict : NodeId) :
    Except Stopped Forest :=
  match f.kind conflict with
  | .scopeConflict _ => f.resolveHeaders side conflict
  | _ => f.resolveGroups side container position conflict

theorem entries_resolveAt (h : f.resolveAt side i n c = .ok g) : g.entries = f.entries := by
  unfold Forest.resolveAt at h
  split at h
  · exact (resolveHeaders_cases h).1
  · exact entries_resolveGroups h

/-- What the loop over the children of a node from a place on ends with. -/
inductive Resolves (side : Side) : Forest → NodeId → Nat → Except Stopped Forest → Prop
  | done {f : Forest} {c n : NodeId} : (f.children c)[n]? = none → Resolves side f c n (.ok f)
  | conflict {f g : Forest} {c n j : NodeId} {r : Except Stopped Forest} :
      (f.children c)[n]? = some j → (f.kind j).isConflict = true → f.resolveAt side c n j = .ok g →
      Resolves side g c n r → Resolves side f c n r
  | stopped {f : Forest} {c n j : NodeId} {s : Stopped} :
      (f.children c)[n]? = some j → (f.kind j).isConflict = true →
      f.resolveAt side c n j = .error s → Resolves side f c n (.error s)
  | leaf {f : Forest} {c n j : NodeId} {r : Except Stopped Forest} :
      (f.children c)[n]? = some j → (f.kind j).isContainer = false →
      Resolves side f c (n + 1) r → Resolves side f c n r
  | inner {f g : Forest} {c n j : NodeId} {r : Except Stopped Forest} :
      (f.children c)[n]? = some j → (f.kind j).isContainer = true →
      (f.kind j).isConflict = false → Resolves side f j 0 (.ok g) →
      Resolves side g c (n + 1) r → Resolves side f c n r
  | innerStopped {f : Forest} {c n j : NodeId} {s : Stopped} :
      (f.children c)[n]? = some j → (f.kind j).isContainer = true →
      (f.kind j).isConflict = false → Resolves side f j 0 (.error s) →
      Resolves side f c n (.error s)

section Steps

variable {steps j : Nat} (hj : (f.children c)[n]? = some j)

include hj

theorem resolveFrom_conflict (hk : (f.kind j).isConflict = true) :
    f.resolveFrom side (steps + 1) c n =
      f.resolveAt side c n j >>= fun g => g.resolveFrom side steps c n := by
  rw [resolveFrom, hj, resolveAt]
  cases hkind : f.kind j with
  | conflict _ | scopeConflict _ => simp only [hkind]
  | _ => rw [hkind] at hk; cases hk

theorem resolveFrom_leaf (hk : (f.kind j).isContainer = false) :
    f.resolveFrom side (steps + 1) c n = f.resolveFrom side steps c (n + 1) := by
  rw [resolveFrom, hj]
  obtain ⟨l, hl⟩ := Kind.exists_leaf hk
  simp only [hl]

theorem resolveFrom_inner (hk : (f.kind j).isContainer = true)
    (hc : (f.kind j).isConflict = false) : f.resolveFrom side (steps + 1) c n =
      f.resolveFrom side steps j 0 >>= fun g => g.resolveFrom side steps c (n + 1) := by
  rw [resolveFrom, hj]
  cases hkind : f.kind j with
  | group | scope _ => simp only [hkind]
  | leaf _ => rw [hkind] at hk; cases hk
  | conflict _ | scopeConflict _ => rw [hkind] at hc; cases hc

end Steps

/-- One edit fails, or puts trees with fewer nodes in the place of a conflict. -/
theorem Shows.resolveAt {e d : Entry} {xs ys cs : List Tree} {K : Frames} {ts : List Tree}
    (h : f.Shows ((Tree.node i e (xs ++ .node c d cs :: ys)).under K :: ts))
    (he : e.kind.isContainer = true) (hc : (Tree.node c d cs).LeavesBare)
    (hg : f.resolveAt side i xs.length c = .ok g) :
    ∃ zs us, g.Shows ((Tree.node i e (xs ++ (zs ++ ys))).under K :: (us ++ ts)) ∧
      (∀ z ∈ zs, z.LeavesBare) ∧ (Tree.idsAll zs).length ≤ (Tree.idsAll cs).length := by
  have hview : f.Shows ((Tree.node c d cs).under (⟨i, e, xs, ys⟩ :: K) :: ts) := h
  have hchildren : f.children c = cs.map Tree.id := hview.children_eq
  unfold Forest.resolveAt at hg
  split at hg
  · -- A conflict between headers leaves one of them.
    obtain ⟨-, a, b, hab, hright⟩ := resolveHeaders_cases hg
    rw [hchildren] at hab
    obtain ⟨⟨a, da, as⟩, ⟨b, db, bs⟩, rfl, rfl, rfl⟩ := Tree.exists_pair hab
    have hviewB : f.Shows ((Tree.node b db bs).under
        (⟨c, d, [.node a da as], []⟩ :: ⟨i, e, xs, ys⟩ :: K) :: ts) := hview
    have hkind : f.kind b = db.kind := hviewB.kind_eq
    have hright' : side = .right → db.kind.isContainer = true := fun hside => hkind ▸ hright hside
    obtain ⟨g', us, hg', hshows⟩ := hview.resolveHeaders side hright'
    obtain rfl : g' = g := Except.ok.inj (hg'.symm.trans hg)
    have ha : (Tree.node a da as).LeavesBare := hc.of_mem List.mem_cons_self
    have hb : (Tree.node b db bs).LeavesBare :=
      hc.of_mem (List.mem_cons_of_mem _ List.mem_cons_self)
    have hlength := Tree.length_ids_keptHeader side a b da db as bs
    refine ⟨[_], us, hshows, ?_, ?_⟩
    · exact List.forall_mem_singleton.2 (Tree.leavesBare_keptHeader ha hb hright')
    · simp only [Tree.idsAll, Tree.ids, List.length_append, List.length_cons, List.append_nil]
      omega
  · -- A conflict between groups leaves what one of them holds.
    obtain ⟨⟨a, b⟩, hsides, -⟩ := exists_of_bind_eq_ok hg
    have hab := children_of_sidesOrStop hsides
    rw [hchildren] at hab
    obtain ⟨⟨a, da, as⟩, ⟨b, db, bs⟩, rfl, rfl, rfl⟩ := Tree.exists_pair hab
    obtain ⟨g', us, hg', hshows⟩ := h.resolveGroups he
    obtain rfl : g' = g := Except.ok.inj (hg'.symm.trans hg)
    have hlength := Tree.length_idsAll_pick side as bs
    refine ⟨_, us, hshows, ?_, ?_⟩
    · exact Tree.leavesBare_pick side (hc.of_mem List.mem_cons_self)
        (hc.of_mem (List.mem_cons_of_mem _ List.mem_cons_self)) rfl rfl
    · simp only [Tree.idsAll, Tree.ids, List.length_append, List.length_cons, List.append_nil]
      omega

/-- The loop from the place behind `xs` on has come to an end. If no edit has failed, only links
have changed, and there is no conflict left. -/
def SettlesFrom (side : Side) (f : Forest) (i : NodeId) (e : Entry) (xs : List Tree) (K : Frames)
    (r : Except Stopped Forest) : Prop :=
  f.Resolves side i xs.length r ∧ ∀ g, r = .ok g → g.entries = f.entries ∧
    ∃ zs us, g.Shows ((Tree.node i e (xs ++ zs)).under K :: us) ∧ ∀ z ∈ zs, z.Conflictless

/-- So many steps are enough for the loop wherever fewer nodes are to be gone over. -/
def Suffices (side : Side) (steps : Nat) : Prop :=
  ∀ {f : Forest} {i : NodeId} {e : Entry} {xs ys : List Tree} {K : Frames} {ts : List Tree},
    f.Shows ((Tree.node i e (xs ++ ys)).under K :: ts) → (∀ y ∈ ys, y.LeavesBare) →
    e.kind.isContainer = true → (Tree.idsAll ys).length < steps →
    SettlesFrom side f i e xs K (f.resolveFrom side steps i xs.length)

namespace Suffices

variable {steps : Nat} {f : Forest} {i j : NodeId} {e d : Entry} {xs ys cs : List Tree} {K : Frames}
  {ts : List Tree}

/-- A conflict gives way to trees with fewer nodes. -/
theorem conflict (hs : Suffices side steps)
    (h : f.Shows ((Tree.node i e (xs ++ .node j d cs :: ys)).under K :: ts))
    (hy : (Tree.node j d cs).LeavesBare) (hys : ∀ y ∈ ys, y.LeavesBare)
    (he : e.kind.isContainer = true)
    (hsteps : (Tree.idsAll cs).length + (Tree.idsAll ys).length < steps)
    (hk : d.kind.isConflict = true) :
    SettlesFrom side f i e xs K (f.resolveFrom side (steps + 1) i xs.length) := by
  have hget : (f.children i)[xs.length]? = some j := h.getElem?_children
  have hview : f.Shows ((Tree.node j d cs).under (⟨i, e, xs, ys⟩ :: K) :: ts) := h
  have hkind : f.kind j = d.kind := hview.kind_eq
  rw [← hkind] at hk
  rw [resolveFrom_conflict hget hk]
  cases hat : f.resolveAt side i xs.length j with
  | error s => exact ⟨.stopped hget hk hat, fun g hg => by cases hg⟩
  | ok f₁ =>
    obtain ⟨zs, us, h₁, hzs, hlength⟩ := h.resolveAt he hy hat
    have hbare : ∀ y ∈ zs ++ ys, y.LeavesBare := List.forall_mem_append.2 ⟨hzs, hys⟩
    obtain ⟨hresolves, hok⟩ := hs h₁ hbare he
      (by rw [Tree.idsAll_append, List.length_append]; omega)
    refine ⟨.conflict hget hk hat hresolves, fun g hg => ?_⟩
    obtain ⟨hentries, hshows⟩ := hok g hg
    exact ⟨hentries.trans (entries_resolveAt hat), hshows⟩

/-- In a container, first what is inside is gone over, then what comes behind. -/
theorem inner (hs : Suffices side steps)
    (h : f.Shows ((Tree.node i e (xs ++ .node j d cs :: ys)).under K :: ts))
    (hy : (Tree.node j d cs).LeavesBare) (hys : ∀ y ∈ ys, y.LeavesBare)
    (he : e.kind.isContainer = true)
    (hsteps : (Tree.idsAll cs).length + (Tree.idsAll ys).length < steps)
    (hcont : d.kind.isContainer = true) (hk : d.kind.isConflict = false) :
    SettlesFrom side f i e xs K (f.resolveFrom side (steps + 1) i xs.length) := by
  have hget : (f.children i)[xs.length]? = some j := h.getElem?_children
  have hbody : f.Shows ((Tree.node j d ([] ++ cs)).under (⟨i, e, xs, ys⟩ :: K) :: ts) := h
  have hkind : f.kind j = d.kind := hbody.kind_eq
  obtain ⟨hinner, hokinner⟩ := hs hbody (fun c hc => hy.of_mem hc) hcont (by omega)
  rw [← hkind] at hk hcont
  rw [resolveFrom_inner hget hcont hk]
  cases hrun : f.resolveFrom side steps j 0 with
  | error s =>
    rw [List.length_nil, hrun] at hinner
    exact ⟨.innerStopped hget hcont hk hinner, fun g hg => by cases hg⟩
  | ok f₁ =>
    rw [List.length_nil, hrun] at hinner
    obtain ⟨hentries₁, cs', us, h₁, hcs'⟩ := hokinner f₁ hrun
    have h₂ : f₁.Shows ((Tree.node i e (xs ++ [.node j d cs'] ++ ys)).under K :: us) := by
      simpa [Tree.under, Frame.fill] using h₁
    obtain ⟨hresolves, hok⟩ := hs h₂ hys he (by omega)
    rw [List.length_append, List.length_singleton] at hresolves hok
    refine ⟨.inner hget hcont hk hinner hresolves, fun g hg => ?_⟩
    obtain ⟨hentries, zs, us, hshows, hzs⟩ := hok g hg
    rw [List.append_assoc] at hshows
    refine ⟨hentries.trans hentries₁, _, us, hshows, List.forall_mem_cons.2 ⟨?_, hzs⟩⟩
    exact .node (hkind ▸ hk) hcs'

/-- A leaf is passed. -/
theorem leaf (hs : Suffices side steps)
    (h : f.Shows ((Tree.node i e (xs ++ .node j d cs :: ys)).under K :: ts))
    (hy : (Tree.node j d cs).LeavesBare) (hys : ∀ y ∈ ys, y.LeavesBare)
    (he : e.kind.isContainer = true) (hsteps : (Tree.idsAll ys).length < steps)
    (hcont : d.kind.isContainer = false) (hk : d.kind.isConflict = false) :
    SettlesFrom side f i e xs K (f.resolveFrom side (steps + 1) i xs.length) := by
  have hget : (f.children i)[xs.length]? = some j := h.getElem?_children
  have hview : f.Shows ((Tree.node j d cs).under (⟨i, e, xs, ys⟩ :: K) :: ts) := h
  have hcont' : (f.kind j).isContainer = false := by
    rw [show f.kind j = d.kind from hview.kind_eq]
    exact hcont
  obtain rfl : cs = [] := hy.at_top hcont
  have h' : f.Shows ((Tree.node i e (xs ++ [.node j d []] ++ ys)).under K :: ts) := by
    simpa using h
  obtain ⟨hresolves, hok⟩ := hs h' hys he hsteps
  rw [List.length_append, List.length_singleton] at hresolves hok
  rw [resolveFrom_leaf hget hcont']
  refine ⟨.leaf hget hcont' hresolves, fun g hg => ?_⟩
  obtain ⟨hentries, zs, us, hshows, hzs⟩ := hok g hg
  rw [List.append_assoc] at hshows
  exact ⟨hentries, _, us, hshows, List.forall_mem_cons.2 ⟨.node hk (by simp), hzs⟩⟩

end Suffices

/-- With a step for each node the loop comes to an end, and if no edit has failed there is no
conflict left. -/
theorem resolveFrom_resolves (side : Side) (steps : Nat) : Suffices side steps := by
  intro f i e xs ys K ts h hys he hsteps
  induction steps generalizing f i e xs ys K ts with
  | zero => omega
  | succ steps ih =>
    have hs : Suffices side steps := ih
    cases ys with
    | nil =>
      have hget : (f.children i)[xs.length]? = none := h.getElem?_children
      have hdone : f.resolveFrom side (steps + 1) i xs.length = .ok f := by rw [resolveFrom, hget]
      rw [hdone]
      refine ⟨.done hget, fun g hg => ?_⟩
      obtain rfl := Except.ok.inj hg
      exact ⟨rfl, [], ts, h, by simp⟩
    | cons y ys =>
      obtain ⟨j, d, cs⟩ := y
      obtain ⟨hy, hys'⟩ := List.forall_mem_cons.1 hys
      simp only [Tree.idsAll, Tree.ids, List.length_append, List.length_cons] at hsteps
      by_cases hk : d.kind.isConflict = true
      · exact hs.conflict h hy hys' he (by omega) hk
      · rw [Bool.not_eq_true] at hk
        by_cases hcont : d.kind.isContainer = true
        · exact hs.inner h hy hys' he (by omega) hcont hk
        · rw [Bool.not_eq_true] at hcont
          exact hs.leaf h hy hys' he (by omega) hcont hk

/-- Where there is no conflict, nothing is done. -/
theorem Draws.resolveFrom_eq {t : Tree} (h : f.Draws t) (ht : ∀ c ∈ t.children, c.Conflictless)
    (steps n : Nat) : f.resolveFrom side steps t.id n = .ok f := by
  induction steps generalizing t n with
  | zero => rfl
  | succ steps ih =>
    cases hj : (f.children t.id)[n]? with
    | none => rw [resolveFrom, hj]
    | some j =>
      have hmem : j ∈ t.children.map Tree.id := h.children_eq ▸ List.mem_of_getElem? hj
      obtain ⟨c, hc, rfl⟩ := List.mem_map.1 hmem
      have hnone : (f.kind c.id).isConflict = false := by
        rw [(h.of_mem hc).kind_eq]
        exact (ht c hc).at_top
      by_cases hcont : (f.kind c.id).isContainer = true
      · rw [resolveFrom_inner hj hcont hnone]
        exact (bind_of_ok (ih (h.of_mem hc) (fun d hd => (ht c hc).of_mem hd) 0) _).trans
          (ih h ht (n + 1))
      · rw [resolveFrom_leaf hj (by simpa using hcont)]
        exact ih h ht (n + 1)

/-! ## Whole forests -/

/-- Only containers have children. -/
def LeavesBare (f : Forest) : Prop :=
  ∀ i < f.size, (f.kind i).isContainer = false → f.children i = []

instance (f : Forest) : Decidable f.LeavesBare := Nat.decidableBallLT _ _

/-- Whether a node has two groups below it if it is a conflict, and two scopes if it is a conflict
between headers. -/
def isPaired (f : Forest) (i : NodeId) : Bool :=
  match f.kind i, f.children i with
  | .conflict _, [a, b] => f.kind a == .group && f.kind b == .group
  | .scopeConflict _, [a, b] => (f.kind a).isScope && (f.kind b).isScope
  | kind, _ => !kind.isConflict

theorem LeavesBare.children_eq (h : f.LeavesBare) (hi : (f.kind i).isContainer = false) :
    f.children i = [] := by
  by_cases hlt : i < f.size
  · exact h i hlt hi
  · rw [children, node_of_size_le (Nat.le_of_not_lt hlt)]

theorem LeavesBare.isContainer (h : f.LeavesBare) (hi : f.children i ≠ []) :
    (f.entry i).kind.isContainer = true := by
  by_contra hleaf
  exact hi (h.children_eq (Bool.not_eq_true _ ▸ hleaf))

theorem LeavesBare.tree {t : Tree} (h : f.LeavesBare) (ht : f.Draws t) : t.LeavesBare := by
  refine ht.everywhere fun s hs _ hkind => ?_
  have hnil : f.children s.id = [] := h.children_eq (hs.kind_eq ▸ hkind)
  rw [hs.children_eq] at hnil
  exact List.map_eq_nil_iff.1 hnil

theorem Draws.pairedAt {t : Tree} (h : f.Draws t) (hbare : f.LeavesBare)
    (hpaired : f.isPaired t.id = true) : Tree.PairedAt t.kind t.children := by
  rw [isPaired, h.kind_eq, h.children_eq] at hpaired
  have hkinds : ∀ c ∈ t.children, f.kind c.id = c.kind := fun c hc => (h.of_mem hc).kind_eq
  cases hk : t.kind with
  | leaf l => exact (hbare.tree h).at_top (by rw [hk]; rfl)
  | group | scope _ => trivial
  | conflict lb | scopeConflict lb =>
    rw [hk] at hpaired
    generalize t.children = cs at hpaired hkinds
    rcases cs with _ | ⟨a, _ | ⟨b, _ | ⟨c, cs⟩⟩⟩
    · simp [Kind.isConflict] at hpaired
    · simp [Kind.isConflict] at hpaired
    · have ha := hkinds a (by simp)
      have hb := hkinds b (by simp)
      simp only [List.map_cons, List.map_nil, ha, hb, Bool.and_eq_true, beq_iff_eq] at hpaired
      exact ⟨a, b, rfl, hpaired⟩
    · simp [Kind.isConflict] at hpaired

/-- The trees below a node are paired if the nodes there are. -/
theorem IsForest.paired_children (h : f.IsForest) (hbare : f.LeavesBare)
    (hpaired : ∀ j ∈ f.descendants i, f.isPaired j = true) :
    ∀ c ∈ (f.tree i).children, c.Paired := by
  intro c hc
  have hdraws : f.Draws (f.tree i) := h.draws_treeTo (Nat.le_add_right _ _)
  refine (hdraws.of_mem hc).everywhere fun s hs hmem => hs.pairedAt hbare (hpaired _ ?_)
  rw [h.descendants_eq]
  exact Tree.mem_idsAll.2 ⟨c, hc, hmem⟩

/-- No conflict is below a node whose trees have none. -/
theorem Shows.conflictless_descendants {e : Entry} {cs : List Tree} {K : Frames} {ts : List Tree}
    (h : f.Shows ((Tree.node i e cs).under K :: ts)) (hcs : ∀ c ∈ cs, c.Conflictless) :
    ∀ j ∈ f.descendants i, (f.kind j).isConflict = false := by
  intro j hj
  have hdesc : f.descendants i = Tree.idsAll cs := h.descendants_eq
  rw [hdesc] at hj
  obtain ⟨c, hc, hj⟩ := Tree.mem_idsAll.1 hj
  obtain ⟨s, rfl, hs, hs'⟩ := (h.draws_under.of_mem hc).exists_at (hcs c hc) hj
  rw [hs.kind_eq]
  exact hs'.at_top

/-- Tables that show the same around a node and have the same entries agree on all nodes that are
not at or below it. -/
theorem Shows.node_eq_of_entries {s t : Tree} {K : Frames} {ts us : List Tree}
    (hf : f.Shows (s.under K :: ts)) (hg : g.Shows (t.under K :: (us ++ ts))) (hid : t.id = s.id)
    (hall : ∀ j < f.size, j ∈ (s.under K).ids ∨ j ∈ Tree.idsAll ts)
    (hentries : g.entries = f.entries) {j : NodeId} (hj : j ≠ s.id)
    (hdesc : j ∉ f.descendants s.id) : g.node j = f.node j := by
  by_cases hlt : j < f.size
  · refine hf.node_eq_of_outside hg hid (hall j hlt) ?_
    rw [Tree.ids_eq, ← hf.descendants_eq]
    simp [hj, hdesc]
  · have hge : f.size ≤ j := Nat.le_of_not_lt hlt
    rw [node_of_size_le hge, node_of_size_le (size_eq_of_entries hentries ▸ hge)]

theorem resolve_of_children_eq_nil (h : f.children root = []) : f.resolve side = .ok f := by
  rw [resolve, resolveFrom, h]
  rfl

theorem root_lt_size (h : f.children root ≠ []) : root < f.size := by
  by_contra hge
  exact h (by rw [children, node_of_size_le (Nat.le_of_not_lt hge)])

/-- In a forest whose leaves are bare resolving comes to an end, and what it gives has no conflict
that the root reaches. If each of these conflicts has two sides it does give a forest: the tree of
the root is settled, no node carries anything else than before, what the root does not reach is as
before, and resolving has nothing left to do, whichever side is kept. -/
theorem resolve_settles (h : f.IsForest) (hbare : f.LeavesBare) (side : Side) :
    f.Resolves side root 0 (f.resolve side) ∧
      (∀ g, f.resolve side = .ok g → ∀ i ∈ g.descendants root, (g.kind i).isConflict = false) ∧
      ((∀ i ∈ f.descendants root, f.isPaired i = true) →
        ∃ g, f.resolve side = .ok g ∧
          g.tree root =
            .node root (f.entry root) (Tree.settledAll side (f.tree root).children) ∧
          g.entries = f.entries ∧
          (∀ i, i ≠ root → i ∉ f.descendants root → g.node i = f.node i) ∧
          ∀ other, g.resolve other = .ok g) := by
  by_cases hnil : f.children root = []
  · -- There is nothing to look at.
    have hres : ∀ side, f.resolve side = .ok f := fun _ => resolve_of_children_eq_nil hnil
    rw [hres]
    refine ⟨.done (by rw [hnil]; rfl), fun g hg i hi => ?_, fun _ => ⟨f, rfl, ?_, rfl, ?_, hres⟩⟩
    · obtain rfl := Except.ok.inj hg
      rw [h.descendants_eq, tree_of_children_eq_nil hnil] at hi
      cases hi
    · rw [tree_of_children_eq_nil hnil]
      rfl
    · intro i _ _
      rfl
  · obtain ⟨K, ts, hshows, hall⟩ := h.exists_shows (root_lt_size hnil)
    have hcont := hbare.isContainer hnil
    have hcs : ∀ c ∈ (f.tree root).children, c.LeavesBare := fun c hc =>
      (hbare.tree hshows.draws_under).of_mem hc
    have hpairs := h.paired_children hbare (i := root)
    rw [tree_eq] at hshows hall
    generalize (f.tree root).children = cs at hshows hall hcs hpairs
    have hview : f.Shows ((Tree.node root (f.entry root) ([] ++ cs)).under K :: ts) := hshows
    obtain ⟨hresolves, hok⟩ :=
      resolveFrom_resolves side _ hview hcs hcont (Nat.lt_succ_of_lt hshows.length_idsAll_lt)
    refine ⟨hresolves, fun g hg => ?_, fun hpaired => ?_⟩
    · obtain ⟨-, zs, us, hgshows, hzs⟩ := hok g hg
      exact hgshows.conflictless_descendants hzs
    · obtain ⟨g, us, hg, hgshows⟩ := resolve_spec hshows (hpairs hpaired) hcont side
      obtain ⟨hentries, zs, us', hgzs, hzs⟩ := hok g hg
      refine ⟨g, hg, hgshows.tree_eq, hentries, fun i hi hdesc => ?_, fun other => ?_⟩
      · exact hshows.node_eq_of_entries hgshows rfl hall hentries hi hdesc
      · exact hgzs.draws_under.resolveFrom_eq hzs _ 0

/-- A module with a class that has two headers and with a conflict, of which one side has such a
class too; and a node that the root does not reach. -/
def standoff : Forest :=
  let lane : Outline := .node { kind := .leaf (.helper "lane") } []
  let sign : Outline := .node { kind := .leaf (.helper "sign") } []
  let headers (name : String) : Outline := .node { kind := .scopeConflict ⟨"ours", "theirs"⟩ }
    [.node { kind := .scope (.classOf name none), comments := ["drives"] } [lane],
      .node { kind := .scope (.classOf name (some "Vehicle")) } [sign]]
  let groups : Outline := .node { kind := .conflict ⟨"ours", "theirs"⟩ }
    [.node {} [headers "Bus"], .node {} [.node { kind := .leaf (.const "Bus" "1") } []]]
  let street : Outline := .node { kind := .scope (.moduleOf "Street") } [headers "Car", groups]
  ((empty.graftAll root [street]).graft lane).1

theorem standoff_isForest : standoff.IsForest :=
  ((IsForest.empty.graftAll (by decide) _).1.graft _).1

theorem standoff_settles :
    standoff.LeavesBare ∧ (∀ i ∈ standoff.descendants root, standoff.isPaired i = true) ∧
      standoff.Resolves .right root 0 (standoff.resolve .right) ∧
      ∃ g, standoff.resolve .right = .ok g ∧ g.descendants root = [1, 5, 6, 4, 15] ∧
        (g.kind 5).isConflict = false ∧ g.node 16 = standoff.node 16 ∧
        g.resolve .left = .ok g := by
  have hbare : standoff.LeavesBare := by decide
  have hpaired : ∀ i ∈ standoff.descendants root, standoff.isPaired i = true := by decide
  have hrun : (standoff.resolve .right).toOption.map (·.descendants root) =
      some [1, 5, 6, 4, 15] := by decide
  obtain ⟨hresolves, hnone, hsettled⟩ := resolve_settles standoff_isForest hbare .right
  obtain ⟨g, hg, -, -, hsame, hagain⟩ := hsettled hpaired
  rw [hg] at hrun
  have hdesc : g.descendants root = [1, 5, 6, 4, 15] := Option.some.inj hrun
  exact ⟨hbare, hpaired, hresolves, g, hg, hdesc, hnone g hg 5 (by rw [hdesc]; simp),
    hsame 16 (by decide) (by decide), hagain .left⟩

end Forest

end StubMerge
