import StubMerge.Proofs.PlainPairs

/-!
# Meeting a namesake

While a plain pair is merged, the tree has the traces that `tracesAfter` foretells. Then the next
declaration of the second outline finds its namesake as the first outline has it, at one place, or
it finds nothing. This module says what becomes of the traces of the tree in each of the ways in
which the two can meet: it is what `Trace.after` says, at the namesake, below it and beside it.
-/

namespace StubMerge

/-! ## What the next declaration finds -/

namespace PlainPair

variable {left right : Outline} {t : Tree} {l r : Declaration} {done later : List Declaration}
  {p q : Place} (h : PlainPair left right) (hall : right.declarations = done ++ r :: later)
  (htraces : t.traces.Perm (tracesAfter left.declarations done))

include h hall htraces

/-- What shares a name with the next declaration is its namesake. -/
theorem exists_namesake (hp : p ∈ t.places) (hk : p.kind.isDeclaration = true) {key : String}
    (hkey : key ∈ p.keys) (hkeyr : key ∈ r.keys) :
    ∃ l, r.namesake? left.declarations = some l ∧ p.trace = l.trace := by
  have hmem := htraces.mem_iff.1 (Tree.trace_mem_traces hp hk)
  obtain ⟨l, hl, hkeys, htrace⟩ := h.eq_of_mem_tracesAfter hall hmem hkey hkeyr
  exact ⟨l, (h.namesake?_left (mem_of_next hall).1).2 ⟨hl, hkeys⟩, htrace⟩

theorem exists_namesake_of_keys (hp : p ∈ t.places) (hk : p.kind.isDeclaration = true)
    (hkeys : p.keys = r.keys) :
    ∃ l, r.namesake? left.declarations = some l ∧ p.trace = l.trace := by
  obtain ⟨key, hkey⟩ := List.exists_mem_of_ne_nil _ (h.right.keys r (mem_of_next hall).1)
  exact h.exists_namesake hall htraces hp hk (hkeys ▸ hkey) hkey

/-- There is one place with the names of the next declaration at most. -/
theorem keys_ne_of_split {X Y : List Place} (hsplit : t.places = X ++ p :: Y)
    (hk : p.kind.isDeclaration = true) (hkeys : p.keys = r.keys) (hq : q ∈ X ++ Y)
    (hkq : q.kind.isDeclaration = true) : q.keys ≠ r.keys := by
  intro hqkeys
  obtain ⟨l, hl, -⟩ := h.exists_namesake_of_keys hall htraces (by simp [hsplit]) hk hkeys
  obtain ⟨hl, hlkeys⟩ := (h.namesake?_left (mem_of_next hall).1).1 hl
  have hparts : t.traces = X.filterMap Place.trace? ++ p.trace :: Y.filterMap Place.trace? := by
    rw [Tree.traces, hsplit, List.filterMap_append,
      List.filterMap_cons_some (Place.trace?_eq_some hk)]
  have hpkeys : p.trace.keys = r.keys := hkeys
  have hfilter := htraces.filter (fun x => x.keys = r.keys)
  rw [h.filter_tracesAfter hall hl hlkeys, List.perm_singleton, hparts, List.filter_append,
    List.filter_cons_of_pos (by simpa using hpkeys), List.append_eq_singleton_iff] at hfilter
  -- So nothing of what is before or behind is left by the filter.
  have hleft : ∀ {P : List Place}, q ∈ P →
      q.trace ∈ (P.filterMap Place.trace?).filter (fun x => x.keys = r.keys) := by
    intro P hqP
    have hqtrace : q.trace.keys = r.keys := hqkeys
    exact List.mem_filter.2
      ⟨List.mem_filterMap.2 ⟨q, hqP, Place.trace?_eq_some hkq⟩, by simpa using hqtrace⟩
  have hmem := (List.mem_append.1 hq).imp hleft hleft
  rcases hfilter with ⟨hX, hY⟩ | ⟨-, hY⟩
  · obtain ⟨-, hY⟩ := List.cons.inj hY
    rw [hX, hY] at hmem
    simp at hmem
  · cases hY

/-- What the next declaration hides is in a scope with its names. -/
theorem exists_scope_of_hides (hq : q ∈ t.places) (hh : r.hides (scopesAlong q.above) = true) :
    ∃ y ∈ t.places, y.kind.isScope = true ∧ y.keys = r.keys ∧ y.step ∈ q.above := by
  obtain ⟨-, name, hname, hmem⟩ := Declaration.hides_iff.1 hh
  obtain ⟨y, hy, hscope, hkeys, hstep⟩ := Tree.exists_scope_place hq hmem
  have hdecl : y.kind.isDeclaration = true := Kind.isDeclaration_of_scope hscope
  obtain ⟨l, hl, htrace⟩ := h.exists_namesake hall htraces hy hdecl (by simp [hkeys]) hname
  obtain ⟨-, hlkeys⟩ := (h.namesake?_left (mem_of_next hall).1).1 hl
  exact ⟨y, hy, hscope, (congrArg Trace.keys htrace).trans hlkeys, hstep⟩

/-- A declaration without a namesake leaves all traces alone. -/
theorem map_after_of_new (hnone : r.namesake? left.declarations = none) :
    t.traces.map (Trace.after r) = t.traces := by
  have hkeys : ∀ q ∈ t.places, q.kind.isDeclaration = true → q.keys ≠ r.keys := by
    intro q hq hk hqkeys
    obtain ⟨l, hl, -⟩ := h.exists_namesake_of_keys hall htraces hq hk hqkeys
    rw [hnone] at hl
    cases hl
  refine (List.map_congr_left fun x hx => ?_).trans (List.map_id _)
  obtain ⟨q, hq, hk, rfl⟩ := Tree.mem_traces.1 hx
  refine Trace.after_eq_self (hkeys q hq hk) (Bool.eq_false_iff.2 fun hh => ?_)
  obtain ⟨y, hy, hscope, hykeys, -⟩ := h.exists_scope_of_hides hall htraces hq hh
  exact hkeys y hy (Kind.isDeclaration_of_scope hscope) hykeys

end PlainPair

/-! ## What merging the next declaration changes -/

section Found

variable {left right : Outline} {l r : Declaration} {done later : List Declaration} {i : NodeId}
  {e : Entry} {cs : List Tree} {K : Frames} (h : PlainPair left right)
  (hall : right.declarations = done ++ r :: later)
  (htraces : ((Tree.node i e cs).under K).traces.Perm (tracesAfter left.declarations done))
  (hk : e.kind.isDeclaration = true) (hkeys : ((Tree.node i e cs).placeIn K).keys = r.keys)

include h hall htraces hk hkeys

theorem keys_ne_of_beside {q : Place} (hq : q ∈ Frames.placesBefore K ∨
    q ∈ Tree.placesAll e.kind true (⟨i, e.kind, Frames.slot K⟩ :: Frames.steps K) cs ∨
    q ∈ Frames.placesAfter K) (hkq : q.kind.isDeclaration = true) : q.keys ≠ r.keys :=
  h.keys_ne_of_split hall htraces (Tree.places_node_under i e cs K) hk hkeys
    (by simpa using hq) hkq

/-- Beside the namesake nothing changes. -/
theorem map_after_beside (hnodup : ((Tree.node i e cs).under K).ids.Nodup) {P : List Place}
    (hP : ∀ q ∈ P, q ∈ Frames.placesBefore K ∨ q ∈ Frames.placesAfter K) :
    (P.filterMap Place.trace?).map (Trace.after r) = P.filterMap Place.trace? := by
  refine (List.map_congr_left fun x hx => ?_).trans (List.map_id _)
  obtain ⟨q, hq, htrace⟩ := List.mem_filterMap.1 hx
  have hbeside := hP q hq
  have hmem : q ∈ ((Tree.node i e cs).under K).places := by
    rw [Tree.places_under]
    rcases hbeside with hq | hq
    · exact List.mem_append_left _ (List.mem_append_left _ hq)
    · exact List.mem_append_right _ hq
  obtain ⟨hkq, rfl⟩ := Place.trace?_eq_some_iff.1 htrace
  have hne := keys_ne_of_beside h hall htraces hk hkeys (hbeside.imp_right .inr) hkq
  refine Trace.after_eq_self hne (Bool.eq_false_iff.2 fun hh => ?_)
  -- What is hidden is in the scope that was found, and so not beside it.
  obtain ⟨y, hy, hscope, hykeys, hstep⟩ := h.exists_scope_of_hides hall htraces hmem hh
  have hplace : y ≠ (Tree.node i e cs).placeIn K := by
    rintro rfl
    exact Frames.ne_of_above hnodup hbeside hstep rfl
  rw [Tree.places_node_under, List.mem_append, List.mem_cons, List.mem_append] at hy
  exact keys_ne_of_beside h hall htraces hk hkeys (by simpa [hplace] using hy)
    (Kind.isDeclaration_of_scope hscope) hykeys

/-- Below the namesake nothing changes if the declaration is a scope. -/
theorem map_after_below (hr : r.kind.isScope = true) :
    ((Tree.placesAll e.kind true (⟨i, e.kind, Frames.slot K⟩ :: Frames.steps K) cs).filterMap
        Place.trace?).map (Trace.after r) =
      (Tree.placesAll e.kind true (⟨i, e.kind, Frames.slot K⟩ :: Frames.steps K) cs).filterMap
        Place.trace? := by
  refine (List.map_congr_left fun x hx => ?_).trans (List.map_id _)
  obtain ⟨q, hq, htrace⟩ := List.mem_filterMap.1 hx
  obtain ⟨hkq, rfl⟩ := Place.trace?_eq_some_iff.1 htrace
  refine Trace.after_eq_self (keys_ne_of_beside h hall htraces hk hkeys (.inr (.inl hq)) hkq) ?_
  simp [Declaration.hides, Kind.isContainer_of_scope hr]

/-- Only what is at the namesake and below it has to be looked at. -/
theorem perm_traces_of_found (hnodup : ((Tree.node i e cs).under K).ids.Nodup) {s : Tree}
    {extra : List Trace}
    (hs : ((s.placesAt (Frames.slot K) (Frames.steps K)).filterMap Place.trace?).Perm
      (((Tree.node i e cs).placeIn K).trace.meet r ::
        ((Tree.placesAll e.kind true (⟨i, e.kind, Frames.slot K⟩ :: Frames.steps K) cs).filterMap
          Place.trace?).map (Trace.after r) ++ extra)) :
    (s.under K).traces.Perm
      (((Tree.node i e cs).under K).traces.map (Trace.after r) ++ extra) := by
  have hbefore := map_after_beside h hall htraces hk hkeys hnodup (P := Frames.placesBefore K)
    fun q hq => .inl hq
  have hafter := map_after_beside h hall htraces hk hkeys hnodup (P := Frames.placesAfter K)
    fun q hq => .inr hq
  have htop : ((Tree.node i e cs).placeIn K).trace.after r =
      ((Tree.node i e cs).placeIn K).trace.meet r := Trace.after_of_keys hkeys
  have hsome : ((Tree.node i e cs).placeIn K).trace? = some _ := Place.trace?_eq_some hk
  rw [Tree.traces_under, Tree.traces, Tree.places_node_under, List.filterMap_append,
    List.filterMap_cons_some hsome, List.filterMap_append, List.map_append, List.map_cons,
    List.map_append, hbefore, hafter, htop]
  refine ((hs.append_left _).append_right _).trans ?_
  simp only [List.append_assoc, List.cons_append]
  exact .append_left _ (.cons _ (.append_left _ List.perm_append_comm))

/-! The four ways in which a namesake is met. -/

variable (hnodup : ((Tree.node i e cs).under K).ids.Nodup)

include hnodup in
/-- A leaf is folded into its namesake. -/
theorem perm_traces_fold_leaf (hagree : e.kind.agrees r.kind = true) (hcs : cs = []) :
    ((Tree.node i (e.fold r.entry) cs).under K).traces.Perm
      (((Tree.node i e cs).under K).traces.map (Trace.after r) ++ []) := by
  subst hcs
  refine perm_traces_of_found h hall htraces hk hkeys hnodup (.of_eq ?_)
  have hgrows : e.kind.GrowsTo (e.kind.fold r.kind) := Kind.growsTo_fold hagree
  have hdecl : (e.fold r.entry).kind.isDeclaration = true := by
    have hfold : (e.fold r.entry).kind = e.kind.fold r.kind := rfl
    rw [hfold, Kind.isDeclaration, hgrows.isScope_eq, hgrows.isContainer_eq]
    exact hk
  have hsome : Place.trace? ⟨i, e.fold r.entry, Frames.slot K, Frames.steps K⟩ = some _ :=
    Place.trace?_eq_some hdecl
  have hmeet : ((Tree.node i e []).placeIn K).trace.meet r =
      Place.trace ⟨i, e.fold r.entry, Frames.slot K, Frames.steps K⟩ := by
    have hmeeting : ((Tree.node i e []).placeIn K).trace.kind.meeting r.kind = .fold :=
      Kind.meeting_eq_fold hagree
    simp only [Trace.meet, hmeeting]
    have hkeys' : Place.keys ⟨i, e.fold r.entry, Frames.slot K, Frames.steps K⟩ =
        ((Tree.node i e []).placeIn K).keys := hgrows.keys_eq _
    simp only [Place.trace, hkeys']
    rfl
  rw [Tree.placesAt, Tree.placesAll, List.filterMap_cons_some hsome, hmeet]
  rfl

include hnodup in
/-- A scope is folded into its namesake. -/
theorem perm_traces_fold_scope (hagree : e.kind.agrees r.kind = true) (he : e.kind.isScope = true)
    (hr : r.kind.isScope = true) (xs : List String) :
    ((Tree.node i (e.addComments xs) cs).under K).traces.Perm
      (((Tree.node i e cs).under K).traces.map (Trace.after r) ++ []) := by
  refine perm_traces_of_found h hall htraces hk hkeys hnodup (.of_eq ?_)
  have hmeet : ((Tree.node i e cs).placeIn K).trace.meet r =
      ((Tree.node i e cs).placeIn K).trace := by
    have hmeeting : ((Tree.node i e cs).placeIn K).trace.kind.meeting r.kind = .fold :=
      Kind.meeting_eq_fold hagree
    obtain ⟨s, hs⟩ := Kind.exists_scope he
    have hfold : e.kind.fold r.kind = e.kind := by rw [hs]; rfl
    simp only [Trace.meet, hmeeting]
    have hkind : ((Tree.node i e cs).placeIn K).trace.kind.fold r.kind =
      ((Tree.node i e cs).placeIn K).trace.kind := hfold
    rw [hkind]
  have hsome : Place.trace? ⟨i, e.addComments xs, Frames.slot K, Frames.steps K⟩ =
      some ((Tree.node i e cs).placeIn K).trace := Place.trace?_eq_some hk
  rw [map_after_below h hall htraces hk hkeys hr, hmeet, Tree.placesAt,
    List.filterMap_cons_some hsome, List.append_nil]
  rfl

include hnodup in
/-- A declaration and its namesake are put on two sides. -/
theorem perm_traces_sides (hmeeting : e.kind.meeting r.kind = .sides)
    (hK : Frames.slot K = .member) (hcs : e.kind.isContainer = false → cs = []) (n n' : NodeId)
    (lb : Labels) :
    ((Tree.opposed n lb (.node i e cs) (.node n' r.entry [])).under K).traces.Perm
      (((Tree.node i e cs).under K).traces.map (Trace.after r) ++
        (Place.trace? ⟨n', r.entry, .member, ⟨n + 2, .group, .side .right⟩ ::
          ⟨n, .conflict lb, .member⟩ :: Frames.steps K⟩).toList) := by
  refine perm_traces_of_found h hall htraces hk hkeys hnodup (.of_eq ?_)
  have hsome : Place.trace? ⟨i, e, .member, Frames.steps K⟩ =
      some ((Tree.node i e cs).placeIn K).trace := by
    rw [Tree.placeIn, hK]
    exact Place.trace?_eq_some hk
  have hmeet : ((Tree.node i e cs).placeIn K).trace.meet r =
      ((Tree.node i e cs).placeIn K).trace.restrict true false := by
    have hkind : ((Tree.node i e cs).placeIn K).trace.kind.meeting r.kind = .sides := hmeeting
    simp only [Trace.meet, hkind]
  -- All that is below the namesake is hidden.
  have hbelow : ((Tree.placesAll e.kind true (⟨i, e.kind, .member⟩ :: Frames.steps K)
        cs).filterMap Place.trace?).map (Trace.restrict true false) =
      ((Tree.placesAll e.kind true (⟨i, e.kind, .member⟩ :: Frames.steps K) cs).filterMap
        Place.trace?).map (Trace.after r) := by
    refine List.map_congr_left fun x hx => ?_
    obtain ⟨q, hq, htrace⟩ := List.mem_filterMap.1 hx
    obtain ⟨hkq, rfl⟩ := Place.trace?_eq_some_iff.1 htrace
    have hne := keys_ne_of_beside h hall htraces hk hkeys (.inr (.inl (by rw [hK]; exact hq))) hkq
    have he : e.kind.isScope = true := by
      cases hcont : e.kind.isContainer with
      | true => simpa [Kind.isDeclaration, hcont] using hk
      | false =>
        rw [hcs hcont] at hq
        simp [Tree.placesAll] at hq
    have hleaf : r.kind.isContainer = false := by
      have hdecl := Outline.isDeclaration_declarationsOf _ r (PlainPair.mem_of_next hall).1
      have hr : r.kind.isScope = false :=
        (Kind.isScope_of_sides hmeeting).resolve_left (by simp [he])
      simpa [Kind.isDeclaration, hr] using hdecl
    refine (Trace.after_of_hides hne (Declaration.hides_iff.2 ⟨hleaf, _, ?_,
      Tree.mem_scopesAlong_of_below hq he⟩)).symm
    have hown : ((Tree.node i e cs).placeIn K).keys = [e.kind.within (pathAlong K.steps)] :=
      Kind.keys_of_scope he _
    rw [← hkeys, hown]
    exact List.mem_singleton_self _
  rw [hK, Tree.traces_opposed, Tree.placesAt, List.filterMap_cons_some hsome, List.map_cons, hbelow,
    hmeet, Tree.placesAt, Tree.placesAll, filterMap_cons_toList, List.filterMap_nil,
    List.append_nil]

include hnodup in
/-- A scope and its namesake become two headers. -/
theorem perm_traces_headers (hmeeting : e.kind.meeting r.kind = .headers)
    (hK : Frames.slot K = .member) (he : e.kind.isScope = true) (hr : r.kind.isScope = true)
    (n : NodeId) (lb : Labels) :
    ((Tree.opposedHeaders n lb (.node i e cs) r.entry).under K).traces.Perm
      (((Tree.node i e cs).under K).traces.map (Trace.after r) ++
        (Place.trace? ⟨n + 1, r.entry, .header .right, ⟨n, .scopeConflict lb, .member⟩ ::
          Frames.steps K⟩).toList) := by
  refine perm_traces_of_found h hall htraces hk hkeys hnodup (.of_eq ?_)
  have hmeet : ((Tree.node i e cs).placeIn K).trace.meet r =
      { Place.trace ⟨i, e, .member, Frames.steps K⟩ with slot := .header .left } := by
    have hkind : ((Tree.node i e cs).placeIn K).trace.kind.meeting r.kind = .headers := hmeeting
    simp only [Trace.meet, hkind]
    rfl
  rw [map_after_below h hall htraces hk hkeys hr, hmeet, hK, Tree.traces_opposedHeaders he]

end Found

end StubMerge
