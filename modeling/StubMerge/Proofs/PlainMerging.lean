import StubMerge.Proofs.Alignment
import StubMerge.Proofs.Meetings
import StubMerge.Proofs.Merging

/-!
# Merging a plain pair

`Merger.PlainState` is what holds all along while a plain pair is merged: the traces of the tree are
those that `tracesAfter` foretells, headers in conflict have one name, the open scopes are
declarations of the second outline, and the conflicts that were recorded are those of the
declarations that clash.

In a plain pair a declaration finds its namesake as the first outline has it, so it never joins a
conflict that is there and never is a third header. The cases of a visit that are left do what
`Merger.Meets` says, and so the state is kept (`Merger.keeps_plainState`).
-/

namespace StubMerge

/-! ## The first pass -/

namespace Outline

mutual
theorem traces_number : ∀ (o : Outline) (n : NodeId) {a : List Step}, o.isConflictFree = true →
    opensTo .left a = true → opensTo .right a = true →
    ((o.number n).placesAt .member a).filterMap Place.trace? =
      (o.declarationsIn (pathAlong a) (scopesAlong a)).map Declaration.trace
  | node e cs, n, a, hfree, hl, hr => by
    obtain ⟨hconf, hbare, hcs⟩ := isConflictFree_node.1 hfree
    have hbelow := traces_numberAll cs (n + 1) (a := ⟨n, e.kind, .member⟩ :: a) true hconf hcs
      (by simpa [opensTo] using hl) (by simpa [opensTo] using hr)
    have htop : e.kind.isDeclaration = true → Place.trace? ⟨n, e, .member, a⟩ =
        some (Declaration.trace ⟨e, pathAlong a, scopesAlong a⟩) := by
      intro hk
      have hsome : Place.trace? ⟨n, e, .member, a⟩ = _ := Place.trace?_eq_some hk
      rw [hsome, Place.trace, hl, hr]
      rfl
    rw [number, Tree.placesAt, List.filterMap_cons, declarationsIn]
    cases hk : e.kind with
    | scope s =>
      rw [hk] at hbelow
      rw [htop (by rw [hk]; rfl), hbelow]
      rfl
    | leaf l =>
      obtain rfl := hbare (by rw [hk]; rfl)
      rw [htop (by rw [hk]; rfl)]
      rfl
    | group =>
      have hnone : Place.trace? ⟨n, e, .member, a⟩ = none :=
        Place.trace?_eq_none (by rw [Place.kind, hk]; rfl)
      rw [hk] at hbelow
      rw [hnone, hbelow]
      rfl
    | conflict _ | scopeConflict _ => simp [hk, Kind.isConflict] at hconf
/-- A copy of outlines has their traces. -/
theorem traces_numberAll : ∀ (os : List Outline) (n : NodeId) {a : List Step} (first : Bool)
    {kind : Kind}, kind.isConflict = false → areConflictFree os = true →
    opensTo .left a = true → opensTo .right a = true →
    (Tree.placesAll kind first a (numberAll n os)).filterMap Place.trace? =
      (declarationsOf (pathAlong a) (scopesAlong a) os).map Declaration.trace
  | [], _, _, _, _, _, _, _, _ => rfl
  | o :: os, n, a, first, kind, hk, hfree, hl, hr => by
    obtain ⟨ho, hos⟩ := areConflictFree_cons.1 hfree
    rw [numberAll, Tree.placesAll, Kind.slot_eq_member hk, List.filterMap_append,
      traces_number o n ho hl hr, traces_numberAll os _ false hk hos hl hr, declarationsOf,
      List.map_append]
end

/-- The first pass leaves the traces of the outline. -/
theorem traces_firstTree {o : Outline} (ho : o.isConflictFree = true) :
    (Merger.firstTree { root := o }).traces = tracesAfter o.declarations [] := by
  obtain ⟨e, cs⟩ := o
  obtain ⟨-, -, hcs⟩ := isConflictFree_node.1 ho
  have hbelow := traces_numberAll cs 1 (a := [⟨Forest.root, .group, .member⟩]) true
    (rfl : Kind.group.isConflict = false) hcs rfl rfl
  have hleft : ∀ l, leftTrace [] l = l.trace := fun _ => rfl
  rw [Merger.firstTree, Tree.traces, Tree.places, Tree.placesAt, List.filterMap_cons,
    Place.trace?_eq_none rfl, tracesAfter, List.filterMap_nil, List.append_nil, funext hleft]
  exact hbelow

theorem aligned_firstTree {o : Outline} (ho : o.isConflictFree = true) :
    (Merger.firstTree { root := o }).Aligned := by
  obtain ⟨e, cs⟩ := o
  obtain ⟨-, -, hcs⟩ := isConflictFree_node.1 ho
  exact .node trivial (aligned_numberAll cs 1 hcs)

end Outline

/-! ## The state of a merge -/

namespace Declaration

variable {r : Declaration} {a : List Step}

/-- A declaration goes by its names in the scopes that it is in. -/
theorem keys_of_scopes (hr : Nested r.path r.enclosing) (ha : scopesAlong a = r.enclosing)
    (n : NodeId) (slot : Slot) : Place.keys ⟨n, r.entry, slot, a⟩ = r.keys := by
  have hpath : Place.path ⟨n, r.entry, slot, a⟩ = r.path := by
    rw [hr.path_eq_headD, ← ha]
    exact pathAlong_eq_headD a
  rw [Place.keys, hpath]
  rfl

theorem trace?_of_scopes (hr : Nested r.path r.enclosing) (hk : r.kind.isDeclaration = true)
    (ha : scopesAlong a = r.enclosing) (n : NodeId) (slot : Slot) :
    Place.trace? ⟨n, r.entry, slot, a⟩ =
      some ⟨r.keys, r.kind, r.enclosing, slot, opensTo .left a, opensTo .right a⟩ := by
  have hsome : Place.trace? ⟨n, r.entry, slot, a⟩ = some _ := Place.trace?_eq_some hk
  rw [hsome, Place.trace, keys_of_scopes hr ha, ha]
  rfl

end Declaration

namespace Merger

/-- The open scopes are declarations that were visited, each in the scopes below it on the stack,
and their bodies go into nodes that have their names. -/
inductive OpenedBy (t : Tree) (done : List Declaration) : List Opened → Prop
  | nil : OpenedBy t done []
  | cons {o : Opened} {stack : List Opened} {p : Place} {d : Declaration} :
      OpenedBy t done stack → p ∈ t.places → p.id = o.id → p.kind.isScope = true →
      p.listed = true → p.keys = [o.path] → d ∈ done → d.kind.isScope = true →
      d.keys = [o.path] → d.enclosing = stack.map Opened.path → OpenedBy t done (o :: stack)

namespace OpenedBy

variable {t t' : Tree} {done done' : List Declaration} {stack : List Opened}

theorem grown (h : OpenedBy t done stack) {N : List Place} (hg : Grown N t.places t'.places)
    (hdone : done ⊆ done') : OpenedBy t' done' stack := by
  induction h with
  | nil => exact .nil
  | cons _ hp hid hscope hlisted hkeys hd hds hdkeys henclosing ih =>
    obtain ⟨q, hq, hk⟩ := hg.exists_kept hp
    exact .cons ih hq (hk.id_eq.trans hid) (hk.kind.isScope_eq.trans hscope)
      (hk.listed_eq.trans hlisted) (hk.keys_eq.trans hkeys) (hdone hd) hds hdkeys henclosing

/-- An open scope has the names of a declaration that was visited. -/
theorem exists_of_mem (h : OpenedBy t done stack) {i : NodeId} (hi : i ∈ stack.map Opened.id) :
    ∃ p ∈ t.places, p.id = i ∧ ∃ d ∈ done, d.keys = p.keys := by
  induction h with
  | nil => cases hi
  | @cons o stack p d _ hp hid _ _ hkeys hd _ hdkeys _ ih =>
    rcases List.mem_cons.1 hi with rfl | hi
    · exact ⟨p, hp, hid, d, hd, hdkeys.trans hkeys.symm⟩
    · exact ih hi

end OpenedBy

/-- The place of the namesake `l` of a declaration `r`: nothing has happened to it yet. -/
structure NamesakeAt (left : Outline) (r l : Declaration) (p : Place) : Prop where
  namesake : r.namesake? left.declarations = some l
  declares : p.kind.isDeclaration = true
  keys : p.keys = r.keys
  kind : p.kind = l.kind
  scopes : scopesAlong p.above = r.enclosing
  slot : p.slot = .member
  toLeft : opensTo .left p.above = true
  toRight : opensTo .right p.above = true

/-- What holds while a plain pair is merged. -/
structure PlainState (left : Outline) (m : Merger) (t : Tree) (stack : List Opened)
    (done : List Declaration) : Prop where
  /-- The tree shows what is to be seen of the declarations. -/
  traces : t.traces.Perm (tracesAfter left.declarations done)
  aligned : t.Aligned
  opened : OpenedBy t done stack
  /-- There is a record for each declaration that clashed. -/
  conflicts : m.conflicts.toList.map (fun c => some c.description) =
    (done.filter fun r => r.clashesWith left.declarations).map fun r => r.keys.head?

namespace PlainState

variable {left right : Outline} {m : Merger} {t : Tree} {stack : List Opened}
  {done later : List Declaration} {r : Declaration} {p : Place}

/-- The innermost open scope is in those that are open. It is open to the right, and to the left
unless a leaf of the first outline has the name of an open scope. -/
theorem current (hs : PlainState left m t stack done) (h : PlainPair left right)
    (hdone : ∀ d ∈ done, d ∈ right.declarations) (hm : m.Stands t) (hp : p ∈ t.places)
    (hid : p.id = currentScope (stack.map Opened.id)) :
    scopesAlong (p.step :: p.above) = stack.map Opened.path ∧
      opensTo .right (p.step :: p.above) = true ∧
      opensTo .left (p.step :: p.above) =
        !left.declarations.any fun l => l.hides (stack.map Opened.path) := by
  cases hs.opened with
  | nil =>
    obtain ⟨i, e, cs⟩ := t
    have hroot : ⟨i, e, .member, []⟩ ∈ (Tree.node i e cs).places := by
      rw [Tree.places, Tree.placesAt]
      exact List.mem_cons_self
    obtain rfl := hm.shows.eq_of_id hp hroot (hid.trans hm.top.symm)
    have hgroup : e.kind = .group := hm.group
    have hstep : Place.step ⟨i, e, .member, []⟩ = ⟨i, .group, .member⟩ := by
      rw [← hgroup]
      rfl
    rw [hstep]
    refine ⟨rfl, rfl, ?_⟩
    have hnone : (left.declarations.any fun l => l.hides []) = false := by
      simp [Declaration.hides]
    rw [List.map_nil, hnone]
    rfl
  | @cons o stack q d hopened hq hqid hscope hlisted hkeys hd hds hdkeys henclosing =>
    obtain rfl := hm.shows.eq_of_id hp hq (hid.trans hqid.symm)
    have hdecl : p.kind.isDeclaration = true := Kind.isDeclaration_of_scope hscope
    have hslot : p.slot ≠ .header .right := by
      rcases Place.kind_of_listed hlisted with ⟨-, -, hne⟩ | ⟨l, hl⟩
      · exact hne
      · rw [hl] at hscope
        cases hscope
    obtain ⟨hscopes, hside, hright, hleft⟩ := h.opened_of_mem_tracesAfter hdone hd hds
      (hs.traces.mem_iff.1 (Tree.trace_mem_traces hp hdecl)) (hkeys.trans hdkeys.symm) hscope hslot
    have hwithin : p.kind.within (pathAlong p.above) = o.path := by
      rw [Place.keys, Kind.keys_of_scope hscope] at hkeys
      exact (List.cons.inj hkeys).1
    have hopens : ∀ side, opensTo side (p.step :: p.above) = opensTo side p.above := by
      intro side
      have hne : (p.slot != .side side.other) = true := bne_iff_ne.2 (hside side.other)
      rw [opensTo, List.all_cons]
      exact (congrArg (· && opensTo side p.above) hne).trans (Bool.true_and _)
    refine ⟨?_, (hopens .right).trans hright, (hopens .left).trans ?_⟩
    · rw [scopesAlong]
      exact (if_pos hscope).trans (congrArg₂ _ hwithin (hscopes.trans henclosing))
    · rw [hdkeys, henclosing] at hleft
      exact hleft

section Next

variable (hs : PlainState left m t stack done) (h : PlainPair left right)
  (hall : right.declarations = done ++ r :: later) (hm : m.Stands t)

include hs h hall hm

/-- What is found for the next declaration is its namesake, as the first outline has it. -/
theorem found {scopes : List NodeId} (hp : p ∈ t.places)
    (hprev : m.previous? scopes r.keys r.kind = some p.id) : ∃ l, NamesakeAt left r l p := by
  obtain ⟨key, hkeyr, hkey⟩ := hm.shares_key hp hprev
  have hdecl : p.kind.isDeclaration = true := Kind.isDeclaration_of_mem_keys hkey
  obtain ⟨l, hl, htrace⟩ := h.exists_namesake hall hs.traces hp hdecl hkey hkeyr
  obtain ⟨hmem, hkeys⟩ := (h.namesake?_left (PlainPair.mem_of_next hall).1).1 hl
  exact ⟨l, {
    namesake := hl
    declares := hdecl
    keys := (congrArg Trace.keys htrace).trans hkeys
    kind := congrArg Trace.kind htrace
    scopes := (congrArg Trace.enclosing htrace).trans
      (h.enclosing_eq hmem (PlainPair.mem_of_next hall).1 hkeys)
    slot := congrArg Trace.slot htrace
    toLeft := congrArg Trace.openLeft htrace
    toRight := congrArg Trace.openRight htrace }⟩

/-- If nothing is found for the next declaration it has no namesake. -/
theorem namesake?_of_new (hprev : m.previous? (stack.map Opened.id) r.keys r.kind = none) :
    r.namesake? left.declarations = none := by
  rw [h.namesake?_left_eq_none (PlainPair.mem_of_next hall).1]
  intro l hl hkeys
  have hmem : l.trace ∈ tracesAfter left.declarations done := by
    rw [← h.leftTrace_of_next hall hl hkeys]
    exact List.mem_append_left _ (List.mem_map_of_mem hl)
  obtain ⟨p, hp, hdecl, htrace⟩ := Tree.mem_traces.1 (hs.traces.mem_iff.2 hmem)
  have hpkeys : p.keys = l.keys := congrArg Trace.keys htrace
  obtain ⟨key, hkey⟩ := List.exists_mem_of_ne_nil _ (h.left.keys l hl)
  -- The namesake is listed, so it is open, but no scope that is open has its names.
  have hlisted : p.listed = true := by
    refine Place.Quiet.listed ⟨congrArg Trace.slot htrace, ?_, ?_⟩ (hpkeys ▸ hkey)
    · cases hk : p.kind <;> simp [hk, Kind.isDeclaration, Kind.isScope, Kind.isContainer,
        Kind.isConflict] at hdecl ⊢
    · intro hhead
      have hopen : opensTo .left p.above = true := congrArg Trace.openLeft htrace
      obtain ⟨st, hst, hslot⟩ := Option.map_eq_some_iff.1 hhead
      have hne := List.all_eq_true.1 hopen st (List.mem_of_mem_head? hst)
      rw [hslot] at hne
      cases hne
  have hcand : p.id ∈ m.index.candidates r.keys :=
    Index.mem_candidates.2 ⟨key, hkeys ▸ hkey, (hm.index key p.id).2
      ⟨p, hp, hlisted, rfl, hpkeys ▸ hkey⟩⟩
  obtain ⟨q, hq, hid, d, hd, hdkeys⟩ := hs.opened.exists_of_mem (previous?_eq_none hprev hcand)
  obtain rfl := hm.shows.eq_of_id hq hp hid
  exact h.keys_ne_of_done hall hd (hdkeys.trans (hpkeys.trans hkeys))

end Next

end PlainState

/-! ## One declaration -/

/-- What merging the declaration `r` does to the traces of a tree and to the conflicts. -/
structure Meets (left : Outline) (r : Declaration) (m m' : Merger) (t t' : Tree) : Prop where
  traces : t'.traces.Perm
    (t.traces.map (Trace.after r) ++ (rightTrace? left.declarations r).toList)
  conflicts : m'.conflicts.toList.map (fun c => some c.description) =
    m.conflicts.toList.map (fun c => some c.description) ++
      if r.clashesWith left.declarations then [r.keys.head?] else []

section Step

variable {left right : Outline} {m m' : Merger} {t t' : Tree} {stack : List Opened}
  {done later : List Declaration} {r l : Declaration} {p : Place}
  (hs : PlainState left m t stack done) (h : PlainPair left right)
  (hall : right.declarations = done ++ r :: later) (hm : m.Stands t)

theorem Meets.of_agrees (htraces : t'.traces.Perm
      (t.traces.map (Trace.after r) ++ (rightTrace? left.declarations r).toList))
    (hclash : r.clashesWith left.declarations = false) (hc : m'.conflicts = m.conflicts) :
    Meets left r m m' t t' :=
  ⟨htraces, by simp [hclash, hc]⟩

theorem Meets.of_clash (htraces : t'.traces.Perm
      (t.traces.map (Trace.after r) ++ (rightTrace? left.declarations r).toList))
    (hclash : r.clashesWith left.declarations = true) (hkeys : r.keys ≠ []) {i : NodeId}
    (hc : m'.conflicts = (m.record r.keys r.entry i).conflicts) : Meets left r m m' t t' := by
  refine ⟨htraces, ?_⟩
  obtain ⟨key, keys, hcons⟩ := List.exists_cons_of_ne_nil hkeys
  simp [hclash, hc, record, hcons]

include h hall in
theorem NamesakeAt.clashesWith_eq (hp : NamesakeAt left r l p) :
    r.clashesWith left.declarations = !p.kind.agrees r.kind := by
  rw [h.clashesWith_eq (PlainPair.mem_of_next hall).1, hp.namesake, hp.kind]
  rfl

/-- What is folded into its namesake is not shown besides. -/
theorem NamesakeAt.rightTrace?_fold (hp : NamesakeAt left r l p)
    (hagree : p.kind.agrees r.kind = true) : rightTrace? left.declarations r = none := by
  rw [hp.kind] at hagree
  simp only [rightTrace?, hp.namesake, Kind.meeting_eq_fold hagree]

/-- A conflict between two sides shows the declaration on its right one. -/
theorem NamesakeAt.rightTrace?_sides (hp : NamesakeAt left r l p)
    (hmeeting : p.kind.meeting r.kind = .sides) (hr : Nested r.path r.enclosing)
    (hk : r.kind.isDeclaration = true) (n n' : NodeId) (lb : Labels) :
    Place.trace? ⟨n', r.entry, .member, ⟨n + 2, .group, .side .right⟩ ::
        ⟨n, .conflict lb, .member⟩ :: p.above⟩ = rightTrace? left.declarations r := by
  have htrace := r.trace?_of_scopes hr hk
    (a := ⟨n + 2, .group, .side .right⟩ :: ⟨n, .conflict lb, .member⟩ :: p.above) hp.scopes n'
    .member
  have hleft : opensTo .left
      (⟨n + 2, .group, .side .right⟩ :: ⟨n, .conflict lb, .member⟩ :: p.above) = false := rfl
  have hright : opensTo .right
      (⟨n + 2, .group, .side .right⟩ :: ⟨n, .conflict lb, .member⟩ :: p.above) = true := hp.toRight
  rw [hp.kind] at hmeeting
  rw [htrace, hleft, hright]
  simp only [rightTrace?, hp.namesake, hmeeting]

include h hall in
/-- A conflict between headers shows the declaration as the right one. -/
theorem NamesakeAt.rightTrace?_headers (hp : NamesakeAt left r l p)
    (hmeeting : p.kind.meeting r.kind = .headers) (hr : Nested r.path r.enclosing)
    (hk : r.kind.isDeclaration = true) (n n' : NodeId) (lb : Labels) :
    Place.trace? ⟨n', r.entry, .header .right, ⟨n, .scopeConflict lb, .member⟩ :: p.above⟩ =
      rightTrace? left.declarations r := by
  have htrace := r.trace?_of_scopes hr hk (a := ⟨n, .scopeConflict lb, .member⟩ :: p.above)
    hp.scopes n' (.header .right)
  have hleft : opensTo .left (⟨n, .scopeConflict lb, .member⟩ :: p.above) = true := hp.toLeft
  have hright : opensTo .right (⟨n, .scopeConflict lb, .member⟩ :: p.above) = true := hp.toRight
  have hhidden : r.hiddenBy left.declarations = false := by
    obtain ⟨hmem, -⟩ := PlainPair.mem_of_next hall
    obtain ⟨hl, hkeys⟩ := (h.namesake?_left hmem).1 hp.namesake
    exact h.swap.hiddenBy_eq_false hmem hl hkeys.symm fun _ hx => hx
  rw [hp.kind] at hmeeting
  rw [htrace, hleft, hright]
  simp only [rightTrace?, hp.namesake, hmeeting, hhidden, Bool.not_false]

include h hall in
/-- A declaration without a namesake is shown as its outline has it. -/
theorem PlainState.meets_new {K : Frames} {e : Entry} {cs : List Tree}
    (hs : PlainState left m ((Tree.node (currentScope (stack.map Opened.id)) e cs).under K) stack
      done)
    (hm : m.Stands ((Tree.node (currentScope (stack.map Opened.id)) e cs).under K))
    (hk : r.kind.isDeclaration = true) (henclosing : r.enclosing = stack.map Opened.path)
    (hprev : m.previous? (stack.map Opened.id) r.keys r.kind = none)
    (he : e.kind.isConflict = false) (hc : m'.conflicts = m.conflicts) (n : NodeId) :
    Meets left r m m' ((Tree.node (currentScope (stack.map Opened.id)) e cs).under K)
      ((Tree.node (currentScope (stack.map Opened.id)) e
        (cs ++ [.node n r.entry []])).under K) := by
  obtain ⟨hr, hdone⟩ := PlainPair.mem_of_next hall
  have hnone := hs.namesake?_of_new h hall hm hprev
  obtain ⟨hscopes, hright, hleft⟩ := hs.current h hdone hm (Tree.placeIn_mem_places _ K) rfl
  rw [← henclosing] at hscopes hleft
  have htrace : Place.trace? ⟨n, r.entry, .member,
      ⟨currentScope (stack.map Opened.id), e.kind, Frames.slot K⟩ :: Frames.steps K⟩ =
      rightTrace? left.declarations r := by
    refine (r.trace?_of_scopes (h.right.nested hr) hk hscopes n .member).trans ?_
    rw [hleft, hright]
    simp only [rightTrace?, hnone, Declaration.hiddenBy]
  refine .of_agrees ?_ (by rw [h.clashesWith_eq hr, hnone]; rfl) hc
  rw [h.map_after_of_new hall hs.traces hnone, ← htrace]
  refine (Tree.perm_traces_append (.node n r.entry []) he).trans (.of_eq ?_)
  rw [Tree.placesAt, Tree.placesAll, filterMap_cons_toList, List.filterMap_nil, List.append_nil]

/-- A namesake is not in a conflict, so whatever is set against it starts a new one. -/
theorem NamesakeAt.exists_wrap (hfound : NamesakeAt left r l p) {n : NodeId} {lb : Labels}
    {c : Tree} (hsets : Sets lb n p c t t') :
    ∃ (K : Frames) (s : Tree), p = s.placeIn K ∧ Frames.slot K = .member ∧
      (s.kind.isContainer = false → (s.placeIn K).listed = true) ∧ t = s.under K ∧
      t' = (Tree.opposed n lb s c).under K := by
  cases hsets with
  | join _ _ hside _ =>
    -- What is open to the right is not on the left of a conflict.
    obtain ⟨st, hst, hslot⟩ := hside
    have hne := List.all_eq_true.1 hfound.toRight st hst
    rw [hslot] at hne
    cases hne
  | @wrap K s hK hlisted _ hcase _ =>
    rcases hcase with rfl | hheader
    · exact ⟨K, s, rfl, hK, hlisted, rfl, rfl⟩
    · have hslot := hfound.slot
      rw [hheader] at hslot
      cases hslot

include hs h hall hm in
/-- A declaration that is no scope like its namesake is set against it, and nothing else. -/
theorem PlainState.meets_sets {scopes : List NodeId} (hk : r.kind.isDeclaration = true)
    (hp : p ∈ t.places) (hprev : m.previous? scopes r.keys r.kind = some p.id)
    (hagree : p.kind.agrees r.kind = false)
    (hscope : p.kind.isScope = false ∨ r.kind.isScope = false) {n n' : NodeId}
    (hsets : Sets m.labels n p (.node n' r.entry []) t t')
    (hc : m'.conflicts = (m.record r.keys r.entry p.id).conflicts) : Meets left r m m' t t' := by
  obtain ⟨hr, -⟩ := PlainPair.mem_of_next hall
  obtain ⟨l, hfound⟩ := hs.found h hall hm hp hprev
  have hmeeting := Kind.meeting_eq_sides hagree hscope
  have hclash : r.clashesWith left.declarations = true := by
    rw [hfound.clashesWith_eq h hall, hagree]
    rfl
  refine .of_clash ?_ hclash (h.right.keys r hr) hc
  obtain ⟨K, ⟨i, e, cs⟩, rfl, hK, -, rfl, rfl⟩ := hfound.exists_wrap hsets
  have hcs : e.kind.isContainer = false → cs = [] := by
    intro hleaf
    obtain ⟨x, hx⟩ := Kind.exists_leaf hleaf
    have hat : Tree.ShapeAt e.kind cs := hm.shaped.of_under.at_top
    rw [hx] at hat
    exact hat
  rw [← hfound.rightTrace?_sides hmeeting (h.right.nested hr) hk n n' m.labels]
  exact perm_traces_sides h hall hs.traces hfound.declares hfound.keys hm.shows.nodup_ids
    hmeeting hK hcs n n' m.labels

/-- What a leaf does in the merge of a plain pair. -/
theorem AddsLeaf.meets (hcase : AddsLeaf m (stack.map Opened.id) r.keys r.entry t m' t')
    (hs : PlainState left m t stack done) (h : PlainPair left right)
    (hall : right.declarations = done ++ r :: later) (hm : m.Stands t)
    (henclosing : r.enclosing = stack.map Opened.path) (hr : r.kind.isContainer = false) :
    Meets left r m m' t t' := by
  have hk : r.kind.isDeclaration = true := Kind.isDeclaration_of_leaf hr
  obtain ⟨x, hx⟩ := Kind.exists_leaf hr
  cases hcase with
  | new hprev he _ hc => exact hs.meets_new h hall hm hk henclosing hprev he hc _
  | @fold K i e _ hprev _ hagree hc =>
    obtain ⟨l, hfound⟩ := hs.found h hall hm (Tree.placeIn_mem_places (.node i e []) K) hprev
    have hclash : r.clashesWith left.declarations = false := by
      rw [hfound.clashesWith_eq h hall, Bool.not_eq_false']
      exact hagree
    refine .of_agrees ?_ hclash hc
    rw [hfound.rightTrace?_fold hagree]
    exact perm_traces_fold_leaf h hall hs.traces hfound.declares hfound.keys hm.shows.nodup_ids
      hagree rfl
  | oppose hprev hp _ hagree hc hsets =>
    exact hs.meets_sets h hall hm hk hp hprev hagree (.inr (by rw [hx]; rfl)) hsets hc

/-- What a scope does in the merge of a plain pair. -/
theorem OpensScope.meets {i : NodeId}
    (hcase : OpensScope m (stack.map Opened.id) r.keys r.entry t m' t' i)
    (hs : PlainState left m t stack done) (h : PlainPair left right)
    (hall : right.declarations = done ++ r :: later) (hm : m.Stands t)
    (henclosing : r.enclosing = stack.map Opened.path) (hr : r.kind.isScope = true) :
    Meets left r m m' t t' := by
  obtain ⟨hmem, -⟩ := PlainPair.mem_of_next hall
  have hk : r.kind.isDeclaration = true := Kind.isDeclaration_of_scope hr
  -- There are no conflicts between headers at what is found.
  have hslot : ∀ {k : Frame} {K : Frames} {i : NodeId} {e : Entry} {cs : List Tree} {lb : Labels},
      m.previous? (stack.map Opened.id) r.keys r.kind = some i →
      t = (Tree.node i e cs).under (k :: K) → k.entry.kind ≠ .scopeConflict lb := by
    rintro k K i e cs lb hprev rfl hconflict
    obtain ⟨l, hfound⟩ :=
      hs.found h hall hm (Tree.placeIn_mem_places (.node i e cs) (k :: K)) hprev
    have hslot : Frames.slot (k :: K) = .member := hfound.slot
    rw [Frames.slot, hconflict] at hslot
    cases hslot
  cases hcase with
  | new hprev he _ hc => exact hs.meets_new h hall hm hk henclosing hprev he hc _
  | @oppose p _ _ _ hprev hp _ hleaf hc hsets =>
    have hagree : p.kind.agrees r.kind = false := by
      rw [Bool.eq_false_iff]
      intro hagree
      rw [Kind.isScope_eq_of_agrees hagree, hr] at hleaf
      cases hleaf
    exact hs.meets_sets h hall hm hk hp hprev hagree (.inl hleaf) hsets hc
  | @fold K i e cs _ hprev he hagree hc =>
    obtain ⟨l, hfound⟩ := hs.found h hall hm (Tree.placeIn_mem_places (.node i e cs) K) hprev
    have hclash : r.clashesWith left.declarations = false := by
      rw [hfound.clashesWith_eq h hall, Bool.not_eq_false']
      exact hagree
    refine .of_agrees ?_ hclash hc
    rw [hfound.rightTrace?_fold hagree]
    exact perm_traces_fold_scope h hall hs.traces hfound.declares hfound.keys hm.shows.nodup_ids
      hagree he hr _
  | foldOther hprev hconflict => exact absurd hconflict (hslot hprev rfl)
  | third hprev hconflict => exact absurd hconflict (hslot hprev rfl)
  | @second K i e cs _ hprev hK he hagree hc =>
    obtain ⟨l, hfound⟩ := hs.found h hall hm (Tree.placeIn_mem_places (.node i e cs) K) hprev
    have hmeeting : e.kind.meeting r.kind = .headers := Kind.meeting_eq_headers hagree he hr
    have hclash : r.clashesWith left.declarations = true := by
      rw [hfound.clashesWith_eq h hall, Bool.not_eq_true']
      exact hagree
    refine .of_clash ?_ hclash (h.right.keys r hmem) hc
    rw [← hfound.rightTrace?_headers h hall hmeeting (h.right.nested hmem) hk m.output.size
      (m.output.size + 1) m.labels]
    exact perm_traces_headers h hall hs.traces hfound.declares hfound.keys hm.shows.nodup_ids
      hmeeting hK he hr _ _

/-- The node that the body of a scope goes into has the names of the scope. -/
theorem OpensScope.exists_named {i : NodeId}
    (hcase : OpensScope m (stack.map Opened.id) r.keys r.entry t m' t' i)
    (hs : PlainState left m t stack done) (h : PlainPair left right)
    (hall : right.declarations = done ++ r :: later) (hm : m.Stands t)
    (henclosing : r.enclosing = stack.map Opened.path) :
    ∃ q ∈ t'.places, q.id = i ∧ q.keys = r.keys := by
  obtain ⟨hmem, hdone⟩ := PlainPair.mem_of_next hall
  obtain ⟨N, hgrown⟩ := hcase.grown
  have hr := h.right.nested hmem
  -- What was found has these names, and it keeps them.
  have hkept : ∀ {e : Entry} {cs : List Tree} {K : Frames},
      m.previous? (stack.map Opened.id) r.keys r.kind = some i → t = (Tree.node i e cs).under K →
      ∃ q ∈ t'.places, q.id = i ∧ q.keys = r.keys := by
    rintro e cs K hprev rfl
    have hp := Tree.placeIn_mem_places (.node i e cs) K
    obtain ⟨l, hfound⟩ := hs.found h hall hm hp hprev
    obtain ⟨q, hq, hk⟩ := hgrown.exists_kept hp
    exact ⟨q, hq, hk.id_eq, hk.keys_eq.trans hfound.keys⟩
  cases hcase with
  | @new K e cs _ _ he _ _ =>
    obtain ⟨hscopes, -⟩ := hs.current h hdone hm (Tree.placeIn_mem_places _ K) rfl
    have hnew : Grown _ ((Tree.node (currentScope (stack.map Opened.id)) e cs).under K).places _ :=
      Tree.grown_append (.node m.output.size r.entry []) he
    exact ⟨_, hnew.mem_of_new List.mem_cons_self, rfl,
      r.keys_of_scopes hr (hscopes.trans henclosing.symm) _ _⟩
  | @oppose p _ _ _ hprev hp _ _ _ hsets =>
    obtain ⟨l, hfound⟩ := hs.found h hall hm hp hprev
    obtain ⟨K, s, rfl, hK, hlisted, rfl, rfl⟩ := hfound.exists_wrap hsets
    have hkeys := r.keys_of_scopes hr (a := ⟨m.output.size + 1 + 2, .group, .side .right⟩ ::
      ⟨m.output.size + 1, .conflict m.labels, .member⟩ :: Frames.steps K) hfound.scopes
      m.output.size .member
    exact ⟨_, (Tree.grown_opposed hK hlisted).mem_of_new (List.mem_append_right _
      List.mem_cons_self), rfl, hkeys⟩
  | fold hprev | foldOther hprev | third hprev | second hprev => exact hkept hprev rfl

/-- What is found for a scope and is a scope has the same name. -/
theorem PlainState.scopeName?_eq {scopes : List NodeId} (hs : PlainState left m t stack done)
    (h : PlainPair left right) (hall : right.declarations = done ++ r :: later) (hm : m.Stands t)
    (hr : r.kind.isScope = true) (hp : p ∈ t.places)
    (hprev : m.previous? scopes r.keys r.kind = some p.id) (hscope : p.kind.isScope = true) :
    p.kind.scopeName? = r.kind.scopeName? := by
  obtain ⟨hmem, -⟩ := PlainPair.mem_of_next hall
  obtain ⟨l, hfound⟩ := hs.found h hall hm hp hprev
  obtain ⟨hl, hkeys⟩ := (h.namesake?_left hmem).1 hfound.namesake
  have hpath : l.path = r.path := by
    rw [(h.left.nested hl).path_eq_headD, (h.right.nested hmem).path_eq_headD,
      h.enclosing_eq hl hmem hkeys]
  have hlname := h.left.names l hl
  have hrname := h.right.names r hmem
  rw [hfound.kind] at hscope ⊢
  obtain ⟨x, hx⟩ := Kind.exists_scope hscope
  obtain ⟨y, hy⟩ := Kind.exists_scope hr
  rw [Declaration.keys, Declaration.keys, hx, hy, hpath] at hkeys
  rw [hx] at hlname ⊢
  rw [hy] at hrname ⊢
  exact congrArg some (qualify_inj (Bool.and_eq_true_iff.1 hlname).2
    (Bool.and_eq_true_iff.1 hrname).2 (List.cons.inj hkeys).1)

end Step

/-! ## The second pass -/

variable {left right : Outline} {m m' : Merger} {t t' : Tree} {stack : List Opened}
  {done later : List Declaration} {r : Declaration}

/-- After one more declaration the traces and the conflicts are as foretold. -/
theorem Meets.plainState (hmeets : Meets left r m m' t t') (hs : PlainState left m t stack done)
    (h : PlainPair left right) (hall : right.declarations = done ++ r :: later)
    (haligned : t'.Aligned) {stack' : List Opened} (hopened : OpenedBy t' (done ++ [r]) stack') :
    PlainState left m' t' stack' (done ++ [r]) where
  traces := by
    rw [h.tracesAfter_append hall]
    exact hmeets.traces.trans ((hs.traces.map _).append_right _)
  aligned := haligned
  opened := hopened
  conflicts := by
    rw [hmeets.conflicts, hs.conflicts, List.filter_append, List.map_append]
    cases hclash : r.clashesWith left.declarations <;> simp [hclash]

/-- Comments leave no traces. -/
theorem traces_addComments (i : NodeId) (e : Entry) (cs : List Tree) (K : Frames)
    (xs : List String) : ((Tree.node i (e.addComments xs) cs).under K).traces =
      ((Tree.node i e cs).under K).traces := by
  rw [Tree.traces_under, Tree.traces_under, Tree.placesAt, Tree.placesAt, List.filterMap_cons,
    List.filterMap_cons]
  rfl

/-- The merge of a plain pair goes as foretold. -/
theorem keeps_plainState (h : PlainPair left right) :
    Keeps "" right.declarations (PlainState left) where
  close hs := by
    cases hs.opened with
    | cons hopened => exact { hs with opened := hopened }
  comments {m i e cs K stack done} xs _ hm hs := {
    traces := by
      rw [traces_addComments]
      exact hs.traces
    aligned := hs.aligned.setEntry (Entry.growsTo_addComments e xs) (.inl rfl)
    opened := hs.opened.grown (hm.unionComments xs).2 (List.Subset.refl _)
    conflicts := hs.conflicts }
  leaf {m t m' t' e stack done later} hall he hm _ hs _ _ hcase := by
    obtain ⟨N, hgrown⟩ := hcase.grown
    have hmeets := AddsLeaf.meets (r := ⟨e, _, _⟩) hcase hs h hall hm rfl he
    exact hmeets.plainState hs h hall (hcase.aligned hs.aligned)
      (hs.opened.grown hgrown (List.subset_append_left _ _))
  scope {m t m' t' i e stack done later} hall he hm _ hs hm' _ hcase := by
    obtain ⟨N, hgrown⟩ := hcase.grown
    have hmeets := OpensScope.meets (r := ⟨e, _, _⟩) hcase hs h hall hm rfl he
    have haligned : t'.Aligned := hcase.aligned hs.aligned he fun p hp hprev hscope =>
      hs.scopeName?_eq h hall hm he hp hprev hscope
    -- The body of the scope goes into a node that has its name.
    obtain ⟨q, hq, hid, hkeys⟩ := OpensScope.exists_named (r := ⟨e, _, _⟩) hcase hs h hall hm rfl
    obtain ⟨q', hq', hid', hscope, hlisted⟩ := hcase.exists_opened hm he
    obtain rfl := hm'.shows.eq_of_id hq hq' (hid.trans hid'.symm)
    have hname : Declaration.keys ⟨e, pathIn "" stack, stack.map Opened.path⟩ =
        [e.kind.within (pathIn "" stack)] := Kind.keys_of_scope he _
    exact hmeets.plainState hs h hall haligned
      (.cons (hs.opened.grown hgrown (List.subset_append_left _ _)) hq hid hscope hlisted
        (hkeys.trans hname) (List.mem_append_right _ List.mem_cons_self) he hname rfl)

end Merger

/-! ## Conflicts -/

namespace PlainPair

variable {left right : Outline}

/-- A plain pair can be merged, and the merge goes as foretold. -/
theorem exists_merge (h : PlainPair left right) (labels : Labels) :
    ∃ m t g t', m.Stands t ∧ Merger.PlainState left m t [] right.declarations ∧
      merge labels { root := left } { root := right } = .ok ⟨g, m.conflicts.toList⟩ ∧
      g.Shows [t'] ∧ t.AbsorbsAll t' := by
  have hl : ({ root := left } : Source).root.isConflictFree = true := h.left.conflictFree
  have hr : ({ root := right } : Source).root.isConflictFree = true := h.right.conflictFree
  have hfirst : ∀ m : Merger, m.conflicts = #[] →
      Merger.PlainState left m (Merger.firstTree { root := left }) [] [] := fun m hc => {
    traces := .of_eq (Outline.traces_firstTree hl)
    aligned := Outline.aligned_firstTree hl
    opened := .nil
    conflicts := by rw [hc]; rfl }
  obtain ⟨-, m, t, g, t', -, -, hm, -, hs, hmerge, hshows, -, hall⟩ :=
    (Merger.keeps_plainState h).merge labels hl hr fun m _ _ hc => hfirst m hc
  exact ⟨m, t, g, t', hm, hs, hmerge, hshows, hall⟩

/-- A clash is one of both outlines, and it goes by one name. -/
theorem exists_clash_swap (h : PlainPair left right) {r : Declaration}
    (hr : r ∈ right.declarations) (hclash : r.clashesWith left.declarations = true) :
    ∃ l ∈ left.declarations, l.clashesWith right.declarations = true ∧ l.keys = r.keys := by
  obtain ⟨l, hl, hboth⟩ := List.any_eq_true.1 hclash
  obtain ⟨hmeets, hagree⟩ := Bool.and_eq_true_iff.1 hboth
  refine ⟨l, hl, List.any_eq_true.2 ⟨r, hr, ?_⟩, h.same l hl r hr hmeets⟩
  rw [Declaration.meets_comm, Kind.agrees_comm]
  exact hboth

/-- The first names of the declarations that clash are those of either outline. -/
theorem mem_clash_names (h : PlainPair left right) {name : String}
    (hname : some name ∈ (right.declarations.filter fun r => r.clashesWith left.declarations).map
      fun r => r.keys.head?) :
    some name ∈ (left.declarations.filter fun l => l.clashesWith right.declarations).map
      fun l => l.keys.head? := by
  obtain ⟨r, hr, hhead⟩ := List.mem_map.1 hname
  obtain ⟨hr, hclash⟩ := List.mem_filter.1 hr
  obtain ⟨l, hl, hclash', hkeys⟩ := h.exists_clash_swap hr hclash
  exact List.mem_map.2 ⟨l, List.mem_filter.2 ⟨hl, hclash'⟩, by rw [hkeys, hhead]⟩

end PlainPair

theorem plainPair_cars : PlainPair oldCars newCars := by
  refine ⟨?_, ⟨?_, ?_, ?_, ?_⟩, ⟨?_, ?_, ?_, ?_⟩⟩ <;> decide

/-- **Conflicts of a plain pair.** A merge of a plain pair has one conflict for each declaration of
the second outline that clashes with one of the first, in the order of that outline, and it goes by
the first name of the declaration. Merging the two the other way round reports the same names. -/
theorem merge_conflicts_of_plainPair (labels labels' : Labels) {left right : Outline}
    (h : PlainPair left right) :
    ∃ res res', merge labels { root := left } { root := right } = .ok res ∧
      merge labels' { root := right } { root := left } = .ok res' ∧
      res.conflicts.map (fun c => some c.description) =
        (right.declarations.filter fun r => r.clashesWith left.declarations).map
          (fun r => r.keys.head?) ∧
      ∀ name, name ∈ res.conflicts.map Conflict.description ↔
        name ∈ res'.conflicts.map Conflict.description := by
  obtain ⟨m, t, g, -, -, hs, hmerge, -⟩ := h.exists_merge labels
  obtain ⟨m', t', g', -, -, hs', hmerge', -⟩ := h.swap.exists_merge labels'
  refine ⟨_, _, hmerge, hmerge', hs.conflicts, fun name => ?_⟩
  have hsome : ∀ cs : List Conflict, name ∈ cs.map Conflict.description ↔
      some name ∈ cs.map fun c => some c.description := by simp
  rw [hsome, hsome, hs.conflicts, hs'.conflicts]
  exact ⟨h.mem_clash_names, h.swap.mem_clash_names⟩

/-- Of the cars four declarations clash. -/
theorem merge_conflicts_of_cars :
    PlainPair oldCars newCars ∧ ∃ res res',
      merge ⟨"old", "new"⟩ { root := oldCars } { root := newCars } = .ok res ∧
      merge ⟨"new", "old"⟩ { root := newCars } { root := oldCars } = .ok res' ∧
      res.conflicts.map (fun c => some c.description) =
        [some "Car", some "Car::MAX", some "Plan", some "VERSION"] ∧
      ∀ name, name ∈ res.conflicts.map Conflict.description ↔
        name ∈ res'.conflicts.map Conflict.description := by
  obtain ⟨res, res', hmerge, hmerge', hc, hnames⟩ :=
    merge_conflicts_of_plainPair ⟨"old", "new"⟩ ⟨"new", "old"⟩ plainPair_cars
  exact ⟨plainPair_cars, res, res', hmerge, hmerge', hc.trans (by decide), hnames⟩

end StubMerge
