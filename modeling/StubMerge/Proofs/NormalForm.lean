import StubMerge.Proofs.Coalescing
import StubMerge.Proofs.Settling

/-!
# What coalescing leaves behind

A forest is coalesced when no conflict has a neighbour with the same labels. `coalesce_normalises`
says that coalescing makes a forest so, in every forest whose conflicts have two sides, and what
it keeps on the way: all nodes but the conflicts that are absorbed and their sides, the scopes that
each of them is in, what the nodes carry, and both ways in which the conflicts can be resolved.

What is kept is known of the steps (`Tree.AbsorbsAll`), each of which puts the sides of one conflict
behind those of another. It remains to read that off the table. The root of the table may itself be
below some other node, so the scopes of a node are those in the tree of the root and then those
above the root, on which nothing has changed.
-/

namespace StubMerge

theorem Tree.Paired.sided {t : Tree} (h : t.Paired) : t.Sided false := by
  refine h.mono fun kind cs hat => ?_
  cases kind with
  | leaf l => exact hat
  | conflict lb => exact hat
  | scopeConflict lb =>
    obtain ⟨a, b, hcs, ha, hb⟩ := hat
    exact ⟨a, b, hcs, ha, .inr ⟨rfl, .inl hb⟩⟩
  | group | scope _ => trivial

theorem foldlM_of_fixed {ε α β : Type} {step : β → α → Except ε β} {b : β} {xs : List α}
    (h : ∀ x ∈ xs, step b x = .ok b) : xs.foldlM step b = .ok b := by
  induction xs with
  | nil => rfl
  | cons x xs ih =>
    rw [List.foldlM_cons]
    exact (bind_of_ok (h x (by simp)) _).trans (ih fun y hy => h y (by simp [hy]))

namespace Forest

variable {f g : Forest} {i : NodeId}

/-! ## What nodes carry -/

theorem entries_absorb {head other : NodeId} (h : f.absorb head other = .ok g) :
    g.entries = f.entries := by
  obtain ⟨⟨hl, hr⟩, -, h⟩ := exists_of_bind_eq_ok h
  obtain ⟨⟨l, r⟩, -, h⟩ := exists_of_bind_eq_ok h
  obtain ⟨f₁, h₁, h⟩ := exists_of_bind_eq_ok h
  obtain ⟨f₂, h₂, h⟩ := exists_of_bind_eq_ok h
  obtain rfl := Except.ok.inj h
  rw [entries_detach, (entries_moveChildren (attempt_eq_ok h₂)).1,
    (entries_moveChildren (attempt_eq_ok h₁)).1]

theorem entries_coalesceRun {head : Option NodeId} {ids : List NodeId}
    (h : f.coalesceRun head ids = .ok g) : g.entries = f.entries := by
  induction ids generalizing f head with
  | nil =>
    obtain rfl := Except.ok.inj h
    rfl
  | cons j ids ih =>
    rw [coalesceRun] at h
    split at h
    · split at h
      · obtain ⟨f₁, h₁, h⟩ := exists_of_bind_eq_ok h
        rw [ih h, entries_absorb h₁]
      · exact ih h
    · exact ih h

theorem entries_foldlM {step : Forest → NodeId → Except Stopped Forest}
    (hstep : ∀ {f g j}, step f j = .ok g → g.entries = f.entries) {ids : List NodeId}
    (h : ids.foldlM step f = .ok g) : g.entries = f.entries := by
  induction ids generalizing f with
  | nil =>
    obtain rfl := Except.ok.inj h
    rfl
  | cons j ids ih =>
    rw [List.foldlM_cons] at h
    obtain ⟨f₁, h₁, h⟩ := exists_of_bind_eq_ok h
    rw [ih h, hstep h₁]

theorem entries_coalesceTo {depth : Nat} (h : f.coalesceTo depth i = .ok g) :
    g.entries = f.entries := by
  induction depth generalizing f g i with
  | zero =>
    obtain rfl := Except.ok.inj h
    rfl
  | succ depth ih =>
    obtain ⟨f₁, h₁, h⟩ := exists_of_bind_eq_ok h
    rw [← entries_coalesceRun h₁]
    refine entries_foldlM (fun {f g j} hstep => ?_) h
    split at hstep
    · exact ih hstep
    · obtain rfl := Except.ok.inj hstep
      rfl

/-! ## Nothing left to absorb -/

/-- Going over neighbours that are separate changes nothing. -/
theorem coalesceRun_of_separate {head : Option NodeId} {ids : List NodeId}
    (h : Kind.Separate ((head.toList ++ ids).map f.kind)) : f.coalesceRun head ids = .ok f := by
  induction ids generalizing head with
  | nil => rfl
  | cons j ids ih =>
    rw [List.map_append] at h
    have hrest : Kind.Separate ((j :: ids).map f.kind) := h.right_of_append
    rw [coalesceRun]
    cases hk : f.kind j with
    | conflict lb =>
      have hnone : head.filter (fun x => f.kind x == .conflict lb) = none := by
        refine Option.filter_eq_none_iff.2 fun x hx heq => ?_
        subst hx
        exact (List.isChain_cons_cons.1 h).1 lb (by simpa using heq) hk
      simp only [hnone]
      exact ih hrest
    | _ => exact ih hrest.tail

theorem Draws.map_kind_children {t : Tree} (h : f.Draws t) :
    (f.children t.id).map f.kind = t.children.map Tree.kind := by
  rw [h.children_eq, List.map_map]
  exact List.map_congr_left fun c hc => (h.of_mem hc).kind_eq

/-- Where no conflict could absorb its neighbour, nothing is done. -/
theorem Draws.coalesceTo_eq {t : Tree} (h : f.Draws t) (ht : t.Coalesced) (depth : Nat) :
    f.coalesceTo depth t.id = .ok f := by
  induction depth generalizing t with
  | zero => rfl
  | succ depth ih =>
    have hrun : f.coalesceRun none (f.children t.id) = .ok f := by
      apply coalesceRun_of_separate
      rw [Option.toList_none, List.nil_append, h.map_kind_children]
      exact ht.at_top
    rw [coalesceTo]
    refine (bind_of_ok hrun _).trans (foldlM_of_fixed fun j hj => ?_)
    rw [h.children_eq] at hj
    obtain ⟨c, hc, rfl⟩ := List.mem_map.1 hj
    split
    · exact ih (h.of_mem hc) (ht.of_mem hc)
    · rfl

/-- Where a tree is coalesced its nodes have separate children. -/
theorem Draws.separate {t : Tree} (h : f.Draws t) (ht : t.Coalesced) (hi : i ∈ t.ids) :
    Kind.Separate ((f.children i).map f.kind) := by
  obtain ⟨s, rfl, hs, hs'⟩ := h.exists_at ht hi
  rw [hs.map_kind_children]
  exact hs'.at_top

/-! ## Whole forests -/

theorem coalesce_of_children_eq_nil (h : f.children root = []) : f.coalesce = .ok f := by
  rw [coalesce]
  cases f.size with
  | zero => rfl
  | succ n =>
    rw [coalesceTo, h]
    refine (bind_of_ok (a := f) rfl _).trans ?_
    rw [h]
    rfl

section Steps

variable {s s' : Tree} {K : Frames} {ts : List Tree}

theorem Shows.nodup_ids_under (h : f.Shows (s.under K :: ts)) : s.ids.Nodup := by
  have hnodup := h.nodup_ids
  rw [Tree.ids_under] at hnodup
  exact hnodup.of_append_left.of_append_right

/-- What is below a node is in its tree, and is not the node itself. -/
theorem Shows.mem_descendants_iff (h : f.Shows (s.under K :: ts)) :
    i ∈ f.descendants s.id ↔ i ∈ s.ids ∧ i ≠ s.id := by
  have hnodup := h.nodup_ids_under
  rw [Tree.ids_eq] at hnodup ⊢
  rw [h.descendants_eq, List.mem_cons]
  constructor
  · intro hi
    refine ⟨.inr hi, ?_⟩
    rintro rfl
    exact (List.nodup_cons.1 hnodup).1 hi
  · rintro ⟨hi | hi, hne⟩
    · exact absurd hi hne
    · exact hi

theorem Shows.parent_of_mem (h : f.Shows (s.under K :: ts)) {p : Place} (hp : p ∈ s.places)
    {st : Step} (hst : p.above.head? = some st) : f.parent p.id = some st.id := by
  obtain ⟨G, x, rfl, rfl⟩ := Tree.mem_places.1 hp
  rw [← Tree.under_append] at h
  cases G with
  | nil => cases hst
  | cons k G =>
    obtain rfl : (⟨k.id, k.entry.kind, Frames.slot G⟩ : Step) = st := Option.some.inj hst
    exact h.parent_eq

/-- A node that is still there is there once and in the same scopes. -/
theorem Shows.kept_of_absorbsAll (hf : f.Shows (s.under K :: ts)) (hg : g.Shows (s'.under K :: ts))
    (hall : s.AbsorbsAll s') (hs : s.Paired) (hid : s'.id = s.id) (hentries : g.entries = f.entries)
    (hi : i ∈ f.descendants s.id) (hin : i ∈ s'.ids) :
    (g.descendants s.id).count i = 1 ∧ g.scopesAbove i = f.scopesAbove i := by
  obtain ⟨hmem, hne⟩ := hf.mem_descendants_iff.1 hi
  have hkept : i ∈ g.descendants s'.id := hg.mem_descendants_iff.2 ⟨hin, hid ▸ hne⟩
  constructor
  · have hnodup := hg.nodup_ids_under
    rw [Tree.ids_eq, ← hg.descendants_eq] at hnodup
    rw [← hid]
    exact List.count_eq_one_of_mem hnodup.of_cons hkept
  · -- Its place was moved from where it stood.
    rw [← Tree.map_id_places] at hmem hin
    obtain ⟨q, hq, rfl⟩ := List.mem_map.1 hin
    obtain ⟨p, hp, hm⟩ := hall.exists_old hs hq
    rw [hg.scopesAbove_eq hq, hm.scopes, hm.id_eq, hf.scopesAbove_eq hp]
    congr 1
    exact List.filter_congr fun a _ => by rw [kind_eq_of_entries hentries]

/-- A node that is no longer there is a conflict, or a side of one that is no longer there. -/
theorem Shows.lost_of_absorbsAll (hf : f.Shows (s.under K :: ts)) (hg : g.Shows (s'.under K :: ts))
    (hall : s.AbsorbsAll s') (hs : s.Paired) (hid : s'.id = s.id)
    (hi : i ∈ f.descendants s.id) (hgone : i ∉ s'.ids) : (f.kind i).isConflict = true ∨
      ∃ c lb, f.parent i = some c ∧ f.kind c = .conflict lb ∧ c ∈ f.descendants s.id ∧
        c ∉ g.descendants s.id := by
  have hmem := (hf.mem_descendants_iff.1 hi).1
  rw [← Tree.map_id_places] at hmem
  obtain ⟨p, hp, rfl⟩ := List.mem_map.1 hmem
  rcases hall.lost hs hf.nodup_ids_under hp hgone with hconflict | ⟨st, lb, hst, hk, hfresh⟩
  · refine .inl ?_
    obtain ⟨G, x, rfl, rfl⟩ := Tree.mem_places.1 hp
    rw [← Tree.under_append] at hf
    rw [show (x.placeIn G).id = x.id from rfl, hf.kind_eq]
    exact hconflict
  · have habove : st ∈ p.above := List.mem_of_head? hst
    obtain ⟨q, hq, rfl⟩ := Tree.exists_place_of_step hp habove
    have hqmem : q.id ∈ s.ids := Tree.map_id_places s ▸ List.mem_map_of_mem hq
    have hqne : q.id ≠ s.id := fun heq => hfresh (by
      rw [show q.step.id = q.id from rfl, heq, ← hid]
      exact s'.id_mem_ids)
    refine .inr ⟨q.id, lb, hf.parent_of_mem hp hst, ?_, hf.mem_descendants_iff.2 ⟨hqmem, hqne⟩,
      fun hmem => hfresh (hg.mem_descendants_iff.1 (hid.symm ▸ hmem)).1⟩
    obtain ⟨G, x, rfl, rfl⟩ := Tree.mem_places.1 hq
    rw [← Tree.under_append] at hf
    exact hf.kind_eq.trans hk

end Steps

/-- Resolving gives the same tree before and after a series of steps. -/
theorem Shows.resolve_of_absorbsAll {e : Entry} {cs zs : List Tree} {K : Frames} {ts : List Tree}
    (hf : f.Shows ((Tree.node root e cs).under K :: ts))
    (hg : g.Shows ((Tree.node root e zs).under K :: ts))
    (hall : Tree.AbsorbsAll (.node root e cs) (.node root e zs))
    (hpair : (Tree.node root e cs).Paired) (he : e.kind.isContainer = true) (side : Side) :
    ∃ f' g', f.resolve side = .ok f' ∧ g.resolve side = .ok g' ∧ g'.tree root = f'.tree root := by
  have hsettles : Tree.SettlesAs side _ _ := hall.settlesAs hpair
  have hbody : Tree.settledAll side zs = Tree.settledAll side cs := hsettles.body
  have hpair' := hall.paired hpair
  obtain ⟨f', us, hf', hfshows⟩ := resolve_spec hf (fun c hc => hpair.of_mem hc) he side
  obtain ⟨g', us', hg', hgshows⟩ := resolve_spec hg (fun c hc => hpair'.of_mem hc) he side
  rw [hbody] at hgshows
  exact ⟨f', g', hf', hg', hgshows.tree_eq.trans hfshows.tree_eq.symm⟩

/-- In a forest whose conflicts have two sides coalescing succeeds. Afterwards no two neighbours
are conflicts with the same labels; what is neither a conflict nor a side of one that was absorbed
is still there, once and in the same scopes; no node carries anything else than before; coalescing
has nothing left to do; and on both sides the conflicts are resolved to the same tree as before. -/
theorem coalesce_normalises (h : f.IsForest) (hbare : f.LeavesBare)
    (hpaired : ∀ i ∈ root :: f.descendants root, f.isPaired i = true) :
    ∃ g, f.coalesce = .ok g ∧
      (∀ i ∈ root :: g.descendants root, Kind.Separate ((g.children i).map g.kind)) ∧
      (∀ i ∈ f.descendants root, (f.kind i).isConflict = false →
        (g.descendants root).count i = 1 ∧ g.scopesAbove i = f.scopesAbove i ∨
          ∃ c lb, f.parent i = some c ∧ f.kind c = .conflict lb ∧ c ∈ f.descendants root ∧
            c ∉ g.descendants root) ∧
      g.entries = f.entries ∧ g.coalesce = .ok g ∧
      ∀ side, ∃ f' g', f.resolve side = .ok f' ∧ g.resolve side = .ok g' ∧
        g'.tree root = f'.tree root := by
  by_cases hnil : f.children root = []
  · -- There is nothing to look at.
    have hdesc : f.descendants root = [] := by
      rw [h.descendants_eq, tree_of_children_eq_nil hnil]
      rfl
    have hsame : f.coalesce = .ok f := coalesce_of_children_eq_nil hnil
    refine ⟨f, hsame, fun i hi => ?_, fun i hi => ?_, rfl, hsame, fun side => ?_⟩
    · rw [hdesc] at hi
      obtain rfl : i = root := by simpa using hi
      rw [hnil]
      exact List.isChain_nil
    · rw [hdesc] at hi
      cases hi
    · have hres : f.resolve side = .ok f := resolve_of_children_eq_nil hnil
      exact ⟨f, f, hres, hres, rfl⟩
  · obtain ⟨K, ts, hshows, -⟩ := h.exists_shows (root_lt_size hnil)
    have hcont := hbare.isContainer hnil
    have hdraws : f.Draws (f.tree root) := hshows.draws_under
    have hreached : root :: f.descendants root = (f.tree root).ids := by
      rw [h.descendants_eq, tree_eq]
      rfl
    have hpair : (f.tree root).Paired :=
      hdraws.everywhere fun s hs hmem => hs.pairedAt hbare (hpaired _ (hreached ▸ hmem))
    rw [tree_eq] at hshows hpair
    generalize (f.tree root).children = cs at hshows hpair
    obtain ⟨g, zs, hg, hgshows, hall, hdone⟩ := coalesceTo_spec f.size hshows hpair.sided
    have hcoalesced := hdone hshows.length_idsAll_lt
    have hentries := entries_coalesceTo hg
    refine ⟨g, hg, fun i hi => ?_, fun i hi hk => ?_, hentries,
      hgshows.draws_under.coalesceTo_eq hcoalesced _, fun side => ?_⟩
    · refine hgshows.draws_under.separate hcoalesced ?_
      rwa [Tree.ids_eq, ← hgshows.descendants_eq]
    · by_cases hin : i ∈ (Tree.node root (f.entry root) zs).ids
      · exact .inl (hshows.kept_of_absorbsAll hgshows hall hpair rfl hentries hi hin)
      · refine .inr ((hshows.lost_of_absorbsAll hgshows hall hpair rfl hi hin).resolve_left ?_)
        rw [hk]
        simp
    · exact hshows.resolve_of_absorbsAll hgshows hall hpair hcont side

/-- A module with three conflicts in a row, of which two have the same labels. -/
def threeConflicts : Forest :=
  let helper (name : String) : Outline := .node { kind := .leaf (.helper name) } []
  let car : Outline := .node { kind := .scope (.classOf "Car" none) } [helper "drive"]
  let clash (right : String) (ls rs : List Outline) : Outline :=
    .node { kind := .conflict ⟨"ours", right⟩ } [.node {} ls, .node {} rs]
  let street : Outline := .node { kind := .scope (.moduleOf "Street") }
    [clash "theirs" [helper "lane"] [helper "sign"], clash "theirs" [car] [],
      clash "upstream" [] [helper "lamp"]]
  empty.graftAll root [street]

theorem threeConflicts_isForest : threeConflicts.IsForest :=
  (IsForest.empty.graftAll (by decide) _).1

/-- The second conflict is gone with its sides, and what was in them is still in its scopes. -/
theorem threeConflicts_normalises : threeConflicts.LeavesBare ∧
    (∀ i ∈ root :: threeConflicts.descendants root, threeConflicts.isPaired i = true) ∧
    ∃ g, threeConflicts.coalesce = .ok g ∧
      g.descendants root = [1, 2, 3, 4, 9, 10, 5, 6, 12, 13, 14, 15] ∧
      Kind.Separate ((g.children 1).map g.kind) ∧ (g.descendants root).count 10 = 1 ∧
      g.scopesAbove 10 = [9, 1] ∧ g.coalesce = .ok g ∧
      ∃ f' g', threeConflicts.resolve .left = .ok f' ∧ g.resolve .left = .ok g' ∧
        g'.tree root = f'.tree root := by
  have hbare : threeConflicts.LeavesBare := by decide
  have hpaired : ∀ i ∈ root :: threeConflicts.descendants root,
      threeConflicts.isPaired i = true := by decide
  have hrun : threeConflicts.coalesce.toOption.map (·.descendants root) =
      some [1, 2, 3, 4, 9, 10, 5, 6, 12, 13, 14, 15] := by decide
  have hparent : threeConflicts.parent 10 = some 9 ∧ (threeConflicts.kind 9).isConflict = false ∧
      threeConflicts.scopesAbove 10 = [9, 1] := by decide
  obtain ⟨g, hg, hseparate, hkept, -, hagain, hresolve⟩ :=
    coalesce_normalises threeConflicts_isForest hbare hpaired
  rw [hg] at hrun
  have hdesc : g.descendants root = [1, 2, 3, 4, 9, 10, 5, 6, 12, 13, 14, 15] :=
    Option.some.inj hrun
  obtain ⟨hcount, hscopes⟩ : (g.descendants root).count 10 = 1 ∧
      g.scopesAbove 10 = threeConflicts.scopesAbove 10 := by
    refine (hkept 10 (by decide) (by decide)).resolve_right ?_
    rintro ⟨c, lb, hc, hk, -, -⟩
    obtain rfl : 9 = c := Option.some.inj (hparent.1.symm.trans hc)
    rw [hk] at hparent
    exact absurd hparent.2.1 (by simp [Kind.isConflict])
  exact ⟨hbare, hpaired, g, hg, hdesc, hseparate 1 (by rw [hdesc]; simp), hcount,
    hscopes.trans hparent.2.2, hagain, hresolve .left⟩

end Forest

end StubMerge
