import StubMerge.Merge.Settle
import StubMerge.Proofs.Edits
import StubMerge.Proofs.Shape

/-!
# Resolving

`Forest.resolve` goes over the children of a node by position, moves trees between nodes and looks
again at what it has moved. What it comes to is said by a recursion on trees: `Tree.settled` gives
the trees that take the place of a tree. A conflict leaves what its kept side holds, a conflict
between headers leaves the kept header with the body that both share, and any other node stays,
with its children settled.

`resolve_spec` says that resolving never fails where conflicts have two sides, and that it comes
to this; the number of steps that it allows itself is enough.
-/

namespace StubMerge

theorem Side.pick_cases {α : Type} (side : Side) (a b : α) :
    side.pick a b = a ∨ side.pick a b = b := by
  cases side
  · exact .inl rfl
  · exact .inr rfl

namespace Tree

/-- A tree without what is below its top. -/
def header (t : Tree) : NodeId × Entry := (t.id, t.entry)

mutual
/-- The trees that take the place of a tree when its conflicts are resolved to one side. -/
def settled (side : Side) : Tree → List Tree
  | node i e cs =>
    match e.kind, cs.map header, settledBodies side cs with
    | .conflict _, _, [ls, rs] => side.pick ls rs
    | .scopeConflict _, [(a, d), (b, d')], [as, bs] =>
      side.pick [node a d as] [node b d' (bs ++ as)]
    | _, _, _ => [node i e (settledAll side cs)]
/-- The trees that take the place of several. -/
def settledAll (side : Side) : List Tree → List Tree
  | [] => []
  | c :: cs => c.settled side ++ settledAll side cs
/-- For each tree, those that take the place of its children. -/
def settledBodies (side : Side) : List Tree → List (List Tree)
  | [] => []
  | node _ _ ds :: cs => settledAll side ds :: settledBodies side cs
end

variable {side : Side}

theorem settledAll_append (cs ds : List Tree) :
    settledAll side (cs ++ ds) = settledAll side cs ++ settledAll side ds := by
  induction cs with
  | nil => rfl
  | cons c cs ih => simp [settledAll, ih]

theorem settled_of_not_conflict {i : NodeId} {e : Entry} {cs : List Tree}
    (h : e.kind.isConflict = false) :
    (node i e cs).settled side = [node i e (settledAll side cs)] := by
  unfold settled
  split
  · simp_all [Kind.isConflict]
  · simp_all [Kind.isConflict]
  · rfl

theorem settled_conflict {i l r : NodeId} {e d d' : Entry} {lb : Labels} {ls rs : List Tree}
    (h : e.kind = .conflict lb) : (node i e [node l d ls, node r d' rs]).settled side =
      settledAll side (side.pick ls rs) := by
  unfold settled
  simp only [h, settledBodies]
  cases side <;> rfl

/-- The header of a conflict between headers that is kept, with the body. -/
def keptHeader (side : Side) (a b : NodeId) (da db : Entry) (as bs : List Tree) : Tree :=
  side.pick (node a da as) (node b db (bs ++ as))

theorem settled_headers {i a b : NodeId} {e da db : Entry} {lb : Labels} {as bs : List Tree}
    (h : e.kind = .scopeConflict lb) (ha : da.kind.isScope = true) (hb : db.kind.isScope = true) :
    (node i e [node a da as, node b db bs]).settled side =
      (keptHeader side a b da db as bs).settled side := by
  have hpick : (node i e [node a da as, node b db bs]).settled side =
      side.pick [node a da (settledAll side as)]
        [node b db (settledAll side bs ++ settledAll side as)] := by
    unfold settled
    simp only [h, settledBodies]
    rfl
  rw [hpick]
  cases side with
  | left => exact (settled_of_not_conflict (Kind.isConflict_of_scope ha)).symm
  | right =>
    rw [← settledAll_append]
    exact (settled_of_not_conflict (Kind.isConflict_of_scope hb)).symm

/-- What a side of a conflict holds is of the right shape. -/
theorem paired_pick {i l r : NodeId} {e d d' : Entry} {ls rs : List Tree} (side : Side)
    (h : (node i e [node l d ls, node r d' rs]).Paired) : ∀ c ∈ side.pick ls rs, c.Paired := by
  intro c hc
  rcases side.pick_cases ls rs with hp | hp <;> rw [hp] at hc
  · exact (h.of_mem List.mem_cons_self).of_mem hc
  · exact (h.of_mem (List.mem_cons_of_mem _ List.mem_cons_self)).of_mem hc

theorem length_idsAll_pick (side : Side) (ls rs : List Tree) :
    (idsAll (side.pick ls rs)).length ≤ (idsAll ls).length + (idsAll rs).length := by
  rcases side.pick_cases ls rs with hp | hp <;> rw [hp] <;> omega

theorem paired_keptHeader {a b : NodeId} {da db : Entry} {as bs : List Tree}
    (ha : (node a da as).Paired) (hb : (node b db bs).Paired) (hs : db.kind.isScope = true) :
    (keptHeader side a b da db as bs).Paired := by
  cases side with
  | left => exact ha
  | right =>
    obtain ⟨s, hs⟩ := Kind.exists_scope hs
    refine .node (by rw [hs]; trivial) fun c hc => ?_
    rcases List.mem_append.1 hc with hc | hc
    · exact hb.of_mem hc
    · exact ha.of_mem hc

theorem length_ids_keptHeader (side : Side) (a b : NodeId) (da db : Entry) (as bs : List Tree) :
    (keptHeader side a b da db as bs).ids.length ≤
      (idsAll as).length + (idsAll bs).length + 1 := by
  cases side with
  | left => simp [keptHeader, Side.pick, ids]
  | right =>
    simp only [keptHeader, Side.pick, ids, idsAll_append, List.length_cons, List.length_append]
    omega

end Tree

namespace Forest

variable {f : Forest} {side : Side}

/-! ## The edits -/

theorem attempt_of_ok {g : Forest} {x : Except EditError Forest} (h : x = .ok g) :
    f.attempt x = .ok g := by
  rw [h]
  rfl

theorem Shows.sidesOrStop_eq {i : NodeId} {e : Entry} {a b : Tree} {K : Frames} {ts : List Tree}
    (h : f.Shows ((Tree.node i e [a, b]).under K :: ts)) :
    f.sidesOrStop i = .ok (a.id, b.id) := by
  have hc : f.children i = [a.id, b.id] := h.children_eq
  rw [sidesOrStop, sides, hc]
  rfl

/-- The children of one node are put at a place among those of a node in another tree. -/
theorem Shows.splice {i j : NodeId} {e d : Entry} {xs ys ks : List Tree} {G K : Frames}
    {ts : List Tree}
    (h : f.Shows ((Tree.node j d ks).under G :: (Tree.node i e (xs ++ ys)).under K :: ts))
    (he : e.kind.isContainer = true) :
    ∃ g, f.splice i xs.length (ks.map Tree.id) = .ok g ∧
      g.Shows ((Tree.node j d []).under G :: (Tree.node i e (xs ++ (ks ++ ys))).under K :: ts) := by
  induction ks generalizing f xs with
  | nil => exact ⟨f, rfl, h⟩
  | cons c ks ih =>
    have hview : f.Shows (c.under (⟨j, d, [], ks⟩ :: G) ::
        (Tree.node i e (xs ++ ys)).under K :: ts) := h
    have h₁ : (f.detach c.id).Shows
        (c :: (Tree.node i e (xs ++ ys)).under K :: (Tree.node j d ks).under G :: ts) :=
      hview.detach.reorder (by simp only [Tree.rowsAll, List.nil_append]; abel)
    obtain ⟨g₁, hg₁, -, h₂⟩ := h₁.insert he
    have h₃ : g₁.Shows ((Tree.node j d ks).under G ::
        (Tree.node i e (xs ++ [c] ++ ys)).under K :: ts) :=
      h₂.reorder (by simp only [Tree.rowsAll, List.append_assoc, List.singleton_append]; abel)
    obtain ⟨g, hg, hshows⟩ := ih h₃
    refine ⟨g, ?_, by simpa using hshows⟩
    rw [List.map_cons, Forest.splice]
    rw [List.length_append, List.length_singleton] at hg
    exact (bind_of_ok (attempt_of_ok hg₁) _).trans hg

/-- What one side of a conflict holds takes the place of the conflict. -/
theorem Shows.resolveGroups {i c l r : NodeId} {e d dl dr : Entry} {xs ys ls rs : List Tree}
    {K : Frames} {ts : List Tree}
    (h : f.Shows ((Tree.node i e (xs ++ .node c d [.node l dl ls, .node r dr rs] :: ys)).under K ::
      ts)) (he : e.kind.isContainer = true) :
    ∃ g us, f.resolveGroups side i xs.length c = .ok g ∧
      g.Shows ((Tree.node i e (xs ++ (side.pick ls rs ++ ys))).under K :: (us ++ ts)) := by
  have hview : f.Shows ((Tree.node c d [.node l dl ls, .node r dr rs]).under
      (⟨i, e, xs, ys⟩ :: K) :: ts) := h
  have hsides : f.sidesOrStop c = .ok (l, r) := hview.sidesOrStop_eq
  have h₁ : (f.detach c).Shows ((Tree.node c d [.node l dl ls, .node r dr rs]) ::
      (Tree.node i e (xs ++ ys)).under K :: ts) := hview.detach
  rw [Forest.resolveGroups]
  cases side with
  | left =>
    have hkept : (f.detach c).Shows ((Tree.node l dl ls).under [⟨c, d, [], [.node r dr rs]⟩] ::
        (Tree.node i e (xs ++ ys)).under K :: ts) := h₁
    have hc : (f.detach c).children l = ls.map Tree.id := hkept.children_eq
    obtain ⟨g, hg, hshows⟩ := hkept.splice he
    refine ⟨g, [_], (bind_of_ok hsides _).trans ?_, hshows.swap⟩
    simpa [Side.pick, hc] using hg
  | right =>
    have hkept : (f.detach c).Shows ((Tree.node r dr rs).under [⟨c, d, [.node l dl ls], []⟩] ::
        (Tree.node i e (xs ++ ys)).under K :: ts) := h₁
    have hc : (f.detach c).children r = rs.map Tree.id := hkept.children_eq
    obtain ⟨g, hg, hshows⟩ := hkept.splice he
    refine ⟨g, [_], (bind_of_ok hsides _).trans ?_, hshows.swap⟩
    simpa [Side.pick, hc] using hg

/-- One header of a conflict takes its place, with the body. -/
theorem Shows.resolveHeaders {c a b : NodeId} {d da db : Entry} {as bs : List Tree} {k : Frame}
    {K : Frames} {ts : List Tree}
    (h : f.Shows ((Tree.node c d [.node a da as, .node b db bs]).under (k :: K) :: ts))
    (side : Side) (hb : side = .right → db.kind.isContainer = true) :
    ∃ g us, f.resolveHeaders side c = .ok g ∧
      g.Shows ((Tree.keptHeader side a b da db as bs).under (k :: K) :: (us ++ ts)) := by
  have hsides : f.sidesOrStop c = .ok (a, b) := h.sidesOrStop_eq
  -- Both headers are taken off, the left one first.
  have hviewA : f.Shows ((Tree.node a da as).under
      (⟨c, d, [], [.node b db bs]⟩ :: k :: K) :: ts) := h
  have hviewB : (f.detach a).Shows ((Tree.node b db bs).under (⟨c, d, [], []⟩ :: k :: K) ::
      .node a da as :: ts) :=
    hviewA.detach.swap
  have hboth : ((f.detach a).detach b).Shows (.node a da as :: .node b db bs ::
      (Tree.node c d []).under (k :: K) :: ts) :=
    hviewB.detach.reorder (by simp only [Tree.rowsAll, List.nil_append]; abel)
  rw [Forest.resolveHeaders]
  cases side with
  | left =>
    have hput : ((f.detach a).detach b).Shows (.node a da as ::
        (Tree.node c d []).under (k :: K) :: .node b db bs :: ts) :=
      hboth.reorder (by simp only [Tree.rowsAll]; abel)
    obtain ⟨g, hg, -, hshows⟩ := hput.replace
    exact ⟨g, [_, _], (bind_of_ok hsides _).trans (attempt_of_ok hg), hshows.swap⟩
  | right =>
    obtain ⟨g₁, hg₁, hmoved⟩ := hboth.moveChildren (hb rfl)
    have hput : g₁.Shows (.node b db (bs ++ as) ::
        (Tree.node c d []).under (k :: K) :: .node a da [] :: ts) :=
      hmoved.reorder (by simp only [Tree.rowsAll]; abel)
    obtain ⟨g, hg, -, hshows⟩ := hput.replace
    exact ⟨g, [_, _], (bind_of_ok hsides _).trans ((bind_of_ok (attempt_of_ok hg₁) _).trans
      (attempt_of_ok hg)), hshows.swap⟩

/-! ## The whole -/

/-- The child at a place, read off the trees. -/
theorem Shows.getElem?_children {i : NodeId} {e : Entry} {xs ys : List Tree} {K : Frames} {ts : List Tree}
    (h : f.Shows ((Tree.node i e (xs ++ ys)).under K :: ts)) :
    (f.children i)[xs.length]? = (ys.map Tree.id).head? := by
  have hc : f.children i = xs.map Tree.id ++ ys.map Tree.id := by
    rw [← List.map_append]
    exact h.children_eq
  rw [hc, List.getElem?_append_right (by simp), List.head?_eq_getElem?]
  simp

theorem Shows.length_idsAll_lt {i : NodeId} {e : Entry} {cs : List Tree} {K : Frames}
    {ts : List Tree} (h : f.Shows ((Tree.node i e cs).under K :: ts)) :
    (Tree.idsAll cs).length < f.size := by
  have hlength := h.length_ids_le
  simp only [Tree.ids_under, Tree.ids, List.length_append, List.length_cons] at hlength
  omega

/-- The children of a node from a place on are settled, if there is a step for each of their
nodes. -/
theorem resolveFrom_spec (side : Side) (steps : Nat) {f : Forest} {i : NodeId} {e : Entry}
    {xs ys : List Tree} {K : Frames} {ts : List Tree}
    (h : f.Shows ((Tree.node i e (xs ++ ys)).under K :: ts))
    (hys : ∀ y ∈ ys, y.Paired) (he : e.kind.isContainer = true)
    (hsteps : (Tree.idsAll ys).length < steps) :
    ∃ g us, f.resolveFrom side steps i xs.length = .ok g ∧
      g.Shows ((Tree.node i e (xs ++ Tree.settledAll side ys)).under K :: (us ++ ts)) := by
  induction steps generalizing f i e xs ys K ts with
  | zero => omega
  | succ steps ih =>
    rw [resolveFrom, h.getElem?_children]
    cases ys with
    | nil => exact ⟨f, [], rfl, by simpa [Tree.settledAll] using h⟩
    | cons y ys =>
      obtain ⟨j, d, cs⟩ := y
      have hview : f.Shows ((Tree.node j d cs).under (⟨i, e, xs, ys⟩ :: K) :: ts) := h
      have hkind : f.kind j = d.kind := hview.kind_eq
      have hy : (Tree.node j d cs).Paired := hys _ (by simp)
      have hys' : ∀ y ∈ ys, y.Paired := fun y hy => hys y (by simp [hy])
      have hat : Tree.PairedAt d.kind cs := hy.at_top
      rw [List.map_cons, List.head?_cons, Tree.id_node]
      simp only [hkind]
      simp only [Tree.idsAll, Tree.ids, List.length_append, List.length_cons] at hsteps
      rw [Tree.settledAll]
      cases hk : d.kind with
      | leaf l =>
        rw [Tree.settled_of_not_conflict (by rw [hk]; rfl)]
        rw [hk] at hat
        obtain rfl : cs = [] := hat
        have h' : f.Shows ((Tree.node i e (xs ++ [.node j d []] ++ ys)).under K :: ts) := by
          simpa using h
        obtain ⟨g, us, hg, hshows⟩ := ih h' hys' he (by omega)
        exact ⟨g, us, by simpa using hg, by simpa [Tree.settledAll] using hshows⟩
      | group | scope _ =>
        rw [Tree.settled_of_not_conflict (by rw [hk]; rfl)]
        have hcont : d.kind.isContainer = true := by rw [hk]; rfl
        have hbody : f.Shows ((Tree.node j d ([] ++ cs)).under (⟨i, e, xs, ys⟩ :: K) :: ts) := hview
        obtain ⟨g₁, us₁, hg₁, h₁⟩ := ih hbody (fun c hc => hy.of_mem hc) hcont (by omega)
        have h₂ : g₁.Shows ((Tree.node i e
            (xs ++ [.node j d (Tree.settledAll side cs)] ++ ys)).under K :: (us₁ ++ ts)) := by
          simpa [Tree.under, Frame.fill] using h₁
        obtain ⟨g, us, hg, hshows⟩ := ih h₂ hys' he (by omega)
        exact ⟨g, us ++ us₁, (bind_of_ok hg₁ _).trans (by simpa using hg), by simpa using hshows⟩
      | conflict lb =>
        rw [hk] at hat
        obtain ⟨⟨l, dl, ls⟩, ⟨r, dr, rs⟩, rfl, -, -⟩ := hat
        rw [Tree.settled_conflict hk, ← Tree.settledAll_append]
        obtain ⟨g₁, us₁, hg₁, h₁⟩ := h.resolveGroups he
        have hpaired := Tree.paired_pick side hy
        have hlength := Tree.length_idsAll_pick side ls rs
        simp only [Tree.idsAll, Tree.ids, List.length_append, List.length_cons] at hsteps
        obtain ⟨g, us, hg, hshows⟩ := ih h₁
          (fun c hc => (List.mem_append.1 hc).elim (hpaired c) (hys' c)) he
          (by rw [Tree.idsAll_append, List.length_append]; omega)
        exact ⟨g, us ++ us₁, (bind_of_ok hg₁ _).trans hg, by rwa [List.append_assoc us]⟩
      | scopeConflict lb =>
        rw [hk] at hat
        obtain ⟨⟨a, da, as⟩, ⟨b, db, bs⟩, rfl, ha, hb⟩ := hat
        have ha' : da.kind.isScope = true := ha
        have hb' : db.kind.isScope = true := hb
        rw [Tree.settled_headers hk ha' hb']
        have hcont : db.kind.isContainer = true := Kind.isContainer_of_scope hb'
        obtain ⟨g₁, us₁, hg₁, h₁⟩ := hview.resolveHeaders side fun _ => hcont
        have hpaired : (Tree.keptHeader side a b da db as bs).Paired :=
          Tree.paired_keptHeader (hy.of_mem List.mem_cons_self)
            (hy.of_mem (List.mem_cons_of_mem _ List.mem_cons_self)) hb'
        have hlength := Tree.length_ids_keptHeader side a b da db as bs
        simp only [Tree.idsAll, Tree.ids, List.length_append, List.length_cons] at hsteps
        have h₂ : g₁.Shows ((Tree.node i e (xs ++ Tree.keptHeader side a b da db as bs :: ys)).under
            K :: (us₁ ++ ts)) := h₁
        obtain ⟨g, us, hg, hshows⟩ := ih h₂ (List.forall_mem_cons.2 ⟨hpaired, hys'⟩) he
          (by rw [Tree.idsAll, List.length_append]; omega)
        exact ⟨g, us ++ us₁, (bind_of_ok hg₁ _).trans hg, by rwa [List.append_assoc us]⟩

/-- Resolving comes to an end without an error, and all conflicts that the root reaches are
settled. -/
theorem resolve_spec {f : Forest} {e : Entry} {cs : List Tree} {K : Frames} {ts : List Tree}
    (h : f.Shows ((Tree.node root e cs).under K :: ts)) (hcs : ∀ c ∈ cs, c.Paired)
    (he : e.kind.isContainer = true) (side : Side) :
    ∃ g us, f.resolve side = .ok g ∧
      g.Shows ((Tree.node root e (Tree.settledAll side cs)).under K :: (us ++ ts)) := by
  have hroot : f.Shows ((Tree.node root e ([] ++ cs)).under K :: ts) := h
  exact resolveFrom_spec side (f.size + 1) hroot hcs he (Nat.lt_succ_of_lt h.length_idsAll_lt)

end Forest

end StubMerge
