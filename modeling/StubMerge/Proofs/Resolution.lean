import StubMerge.Proofs.PlainMerging

/-!
# What resolving a merge declares

Resolving keeps what is open to a side and is not a header of the other. `Tree.Leaves` says so of
trees: the declarations that are left, with the names that they go by then, are those whose traces
stay, with the names that they had before. They may come in another order, since the right one of
two headers takes over the body that stands below the left one.

For a plain pair the traces are known, and so is what stays of them. On either side it is what the
outline of that side declares, folded with what the other one says of it, and what only the other
outline declares, unless it is in a scope that has given way to a leaf (`declaredOn`).
-/

namespace StubMerge

/-- What is said of a declaration apart from where it is. -/
def Trace.named (x : Trace) : List String × Kind := (x.keys, x.kind)

namespace Place

/-- The declaration at a place, with its names. -/
def declared? (p : Place) : Option (List String × Kind) :=
  if p.kind.isDeclaration then some (p.keys, p.kind) else none

/-- The declaration at a place, if it stays when conflicts are resolved to a side. -/
def stays? (side : Side) (p : Place) : Option (List String × Kind) :=
  if p.trace.staysOn side then p.declared? else none

theorem staysOn_trace (side : Side) (p : Place) :
    p.trace.staysOn side = (opensTo side p.above && p.slot != .header side.other) := by
  cases side <;> rfl

theorem stays?_eq_declared? {side : Side} {p : Place} (hopen : opensTo side p.above = true)
    (hslot : p.slot ≠ .header side.other) : p.stays? side = p.declared? := by
  rw [stays?, staysOn_trace, hopen, bne_iff_ne.2 hslot]
  rfl

theorem stays?_of_closed {side : Side} {p : Place} (h : opensTo side p.above = false) :
    p.stays? side = none := by
  rw [stays?, staysOn_trace, h]
  rfl

theorem stays?_of_header {side : Side} {p : Place} (h : p.slot = .header side.other) :
    p.stays? side = none := by
  rw [stays?, staysOn_trace, h, bne_self_eq_false, Bool.and_false]
  rfl

theorem stays?_of_not_declaration {side : Side} {p : Place} (h : p.kind.isDeclaration = false) :
    p.stays? side = none := by
  rw [stays?, declared?, h]
  exact ite_self _

theorem stays?_eq (side : Side) (p : Place) :
    p.stays? side = (p.trace?.filter (Trace.staysOn side)).map Trace.named := by
  have hnamed : p.trace.named = (p.keys, p.kind) := rfl
  rw [stays?, declared?, trace?, ← hnamed]
  cases p.kind.isDeclaration <;> cases hstays : p.trace.staysOn side <;> simp [hstays]

end Place

namespace Tree

/-! ## What resolving leaves of a tree -/

theorem filterMap_stays? (t : Tree) (side : Side) :
    t.places.filterMap (Place.stays? side) =
      (t.traces.filter (Trace.staysOn side)).map Trace.named := by
  rw [traces, List.filter_filterMap, List.map_filterMap]
  exact List.filterMap_congr fun p _ => p.stays?_eq side

/-- Nothing stays of what is on the other side of a conflict. -/
theorem stays?_placesAll_of_closed {side : Side} {a : List Step} (h : opensTo side a = false)
    (kind : Kind) (first : Bool) (cs : List Tree) :
    (placesAll kind first a cs).filterMap (Place.stays? side) = [] := by
  rw [List.filterMap_eq_nil_iff]
  intro p hp
  obtain ⟨c, -, slot, hp⟩ := exists_of_mem_placesAll hp
  refine Place.stays?_of_closed ?_
  rcases c.above_of_mem_placesAt hp with rfl | ⟨inner, habove, -⟩
  · exact h
  · have hall : opensTo side p.above =
        (inner.all (fun st => st.slot != .side side.other) &&
          opensTo side (⟨c.id, c.kind, slot⟩ :: a)) := by
      rw [habove]
      exact List.all_append
    have hcons : opensTo side (⟨c.id, c.kind, slot⟩ :: a) =
        ((slot != .side side.other) && opensTo side a) := rfl
    rw [hall, hcons, h, Bool.and_false, Bool.and_false]

/-- What a side leaves of a tree that stands below `a` and is put below `a'`, with the same path:
the declarations that stay, with the names that they had. -/
structure Leaves (side : Side) (t : Tree) : Prop where
  whole : ∀ {a a' : List Step} {k : Kind} {first : Bool}, k.isConflict = false →
    opensTo side a = true → pathAlong a' = pathAlong a →
    ((placesAll k first a' (t.settled side)).filterMap Place.declared?).Perm
      ((t.placesAt .member a).filterMap (Place.stays? side))
  body : ∀ {a a' : List Step} {k k' : Kind} {first first' : Bool}, k.isConflict = false →
    k'.isConflict = false → opensTo side a = true → pathAlong a' = pathAlong a →
    ((placesAll k first a' (settledAll side t.children)).filterMap Place.declared?).Perm
      ((placesAll k' first' a t.children).filterMap (Place.stays? side))

variable {side : Side}

/-- What is left of a list of trees is what is left of each. -/
theorem leaves_all {cs : List Tree} (h : ∀ c ∈ cs, c.Leaves side) {a a' : List Step}
    {k k' : Kind} (first first' : Bool) (hk : k.isConflict = false) (hk' : k'.isConflict = false)
    (ha : opensTo side a = true) (ha' : pathAlong a' = pathAlong a) :
    ((placesAll k first a' (settledAll side cs)).filterMap Place.declared?).Perm
      ((placesAll k' first' a cs).filterMap (Place.stays? side)) := by
  induction cs generalizing first first' with
  | nil => exact .refl _
  | cons c cs ih =>
    rw [settledAll, placesAll_append, placesAll, List.filterMap_append, List.filterMap_append,
      Kind.slot_eq_member hk']
    exact ((h c (by simp)).whole hk ha ha').append
      (ih (fun d hd => h d (by simp [hd])) _ _)

/-- A tree that is no conflict stays, with what stays of what is below it. -/
theorem leaves_of_not_conflict {i : NodeId} {e : Entry} {cs : List Tree}
    (h : ∀ c ∈ cs, c.Leaves side) (he : e.kind.isConflict = false) {a a' : List Step} {k : Kind}
    {first : Bool} (hk : k.isConflict = false) (ha : opensTo side a = true)
    (ha' : pathAlong a' = pathAlong a) :
    ((placesAll k first a' ((node i e cs).settled side)).filterMap Place.declared?).Perm
      (((node i e cs).placesAt .member a).filterMap (Place.stays? side)) := by
  have hpath : pathAlong (⟨i, e.kind, .member⟩ :: a') = pathAlong (⟨i, e.kind, .member⟩ :: a) :=
    congrArg e.kind.within ha'
  have hopen : opensTo side (⟨i, e.kind, .member⟩ :: a) = true := by
    simpa [opensTo] using ha
  have htop : Place.stays? side ⟨i, e, .member, a⟩ = Place.declared? ⟨i, e, .member, a'⟩ := by
    have hkeys : Place.keys ⟨i, e, .member, a'⟩ = Place.keys ⟨i, e, .member, a⟩ :=
      congrArg e.kind.keys ha'
    rw [Place.stays?_eq_declared? ha (by simp), Place.declared?, Place.declared?, hkeys]
    rfl
  rw [settled_of_not_conflict he, placesAll, placesAll, List.append_nil, Kind.slot_eq_member hk,
    placesAt, placesAt, filterMap_cons_toList, filterMap_cons_toList, htop]
  exact (leaves_all h true true he he hopen hpath).append_left _

variable {i l r : NodeId} {e dl dr : Entry} {ls rs : List Tree} {lb : Labels} {a a' : List Step}

/-- Of a conflict only what its sides hold can stay. -/
theorem stays?_conflict (hkind : e.kind = .conflict lb) (hl : dl.kind = .group)
    (hr : dr.kind = .group) :
    ((node i e [node l dl ls, node r dr rs]).placesAt .member a).filterMap (Place.stays? side) =
      (placesAll .group true (⟨l, .group, .side .left⟩ :: ⟨i, .conflict lb, .member⟩ :: a)
        ls).filterMap (Place.stays? side) ++
      (placesAll .group true (⟨r, .group, .side .right⟩ :: ⟨i, .conflict lb, .member⟩ :: a)
        rs).filterMap (Place.stays? side) := by
  have hnone : ∀ {j : NodeId} {d : Entry} {slot : Slot} {b : List Step},
      d.kind.isDeclaration = false → Place.stays? side ⟨j, d, slot, b⟩ = none :=
    fun hd => Place.stays?_of_not_declaration hd
  rw [placesAt_conflict hkind hl hr, List.filterMap_cons, hnone (by rw [hkind]; rfl),
    List.filterMap_cons, hnone (by rw [hl]; rfl), List.filterMap_append, List.filterMap_cons,
    hnone (by rw [hr]; rfl)]

/-- Of a conflict between headers the headers can stay, and the body that is below the left one. -/
theorem stays?_headers (hkind : e.kind = .scopeConflict lb) :
    ((node i e [node l dl ls, node r dr []]).placesAt .member a).filterMap (Place.stays? side) =
      (Place.stays? side ⟨l, dl, .header .left, ⟨i, .scopeConflict lb, .member⟩ :: a⟩).toList ++
      (placesAll dl.kind true (⟨l, dl.kind, .header .left⟩ :: ⟨i, .scopeConflict lb, .member⟩ :: a)
        ls).filterMap (Place.stays? side) ++
      (Place.stays? side ⟨r, dr, .header .right, ⟨i, .scopeConflict lb, .member⟩ :: a⟩).toList := by
  have hnone : Place.stays? side ⟨i, e, .member, a⟩ = none :=
    Place.stays?_of_not_declaration (by rw [Place.kind, hkind]; rfl)
  rw [placesAt_headers hkind, List.filterMap_cons, hnone, filterMap_cons_toList,
    List.filterMap_append, filterMap_cons_toList, placesAll, List.filterMap_nil, List.append_nil,
    List.append_assoc]

/-- The header of the side that is kept takes the place of the conflict. -/
theorem stays?_kept_header {n : NodeId} {d : Entry} (ha : opensTo side a = true)
    (ha' : pathAlong a' = pathAlong a) :
    Place.stays? side ⟨n, d, .header side, ⟨i, .scopeConflict lb, .member⟩ :: a⟩ =
      Place.declared? ⟨n, d, .member, a'⟩ := by
  have hkeys : Place.keys ⟨n, d, .header side, ⟨i, .scopeConflict lb, .member⟩ :: a⟩ =
      Place.keys ⟨n, d, .member, a'⟩ := congrArg d.kind.keys ha'.symm
  have hopen : opensTo side (⟨i, .scopeConflict lb, .member⟩ :: a) = true := by
    simpa [opensTo] using ha
  rw [Place.stays?_eq_declared? hopen (by cases side <;> simp [Side.other]), Place.declared?,
    Place.declared?, hkeys]
  rfl

/-- The header that is kept has the body below it, in a scope of the same name. -/
theorem leaves_header {n : NodeId} {d : Entry} {s sl : Scope} {k : Kind} {first : Bool}
    (h : (node l dl ls).Leaves side) (hk : k.isConflict = false) (hd : d.kind = .scope s)
    (hl : dl.kind = .scope sl) (hname : s.name = sl.name) (ha : opensTo side a = true)
    (ha' : pathAlong a' = pathAlong a) :
    ((placesAll k first a' ((node n d ls).settled side)).filterMap Place.declared?).Perm
      ((Place.declared? ⟨n, d, .member, a'⟩).toList ++
        (placesAll dl.kind true (⟨l, dl.kind, .header .left⟩ :: ⟨i, .scopeConflict lb, .member⟩ ::
          a) ls).filterMap (Place.stays? side)) := by
  have hnot : d.kind.isConflict = false := by rw [hd]; rfl
  have hnot' : dl.kind.isConflict = false := by rw [hl]; rfl
  have hopen : opensTo side
      (⟨l, dl.kind, .header .left⟩ :: ⟨i, .scopeConflict lb, .member⟩ :: a) = true := by
    simpa [opensTo] using ha
  have hpath : pathAlong (⟨n, d.kind, .member⟩ :: a') =
      pathAlong (⟨l, dl.kind, .header .left⟩ :: ⟨i, .scopeConflict lb, .member⟩ :: a) := by
    rw [hd, hl]
    exact congrArg₂ qualify ha' hname
  have hbody : ((placesAll d.kind true (⟨n, d.kind, .member⟩ :: a')
      (settledAll side ls)).filterMap Place.declared?).Perm
      ((placesAll dl.kind true (⟨l, dl.kind, .header .left⟩ :: ⟨i, .scopeConflict lb, .member⟩ :: a)
        ls).filterMap (Place.stays? side)) := h.body hnot hnot' hopen hpath
  rw [settled_of_not_conflict hnot, placesAll, placesAll, List.append_nil, Kind.slot_eq_member hk,
    placesAt, filterMap_cons_toList]
  exact hbody.append_left _

/-- What resolving a tree leaves, if its headers that are in conflict have one name. -/
theorem Shaped.leaves {t : Tree} (h : t.Shaped) (halign : t.Aligned) (side : Side) :
    t.Leaves side := by
  induction h with
  | @node i e cs hat _ ih =>
    have ih : ∀ c ∈ cs, c.Leaves side := fun c hc => ih c hc (halign.of_mem hc)
    refine ⟨fun {a a' k first} hk ha ha' => ?_,
      fun hk hk' ha ha' => leaves_all ih _ _ hk hk' ha ha'⟩
    cases hkind : e.kind with
    | group | scope _ | leaf _ => exact leaves_of_not_conflict ih (by rw [hkind]; rfl) hk ha ha'
    | conflict lb =>
      rw [hkind] at hat
      obtain ⟨⟨l, dl, ls⟩, ⟨r, dr, rs⟩, rfl, hl, hr, -, -⟩ := hat
      have hl' : dl.kind = .group := hl
      have hr' : dr.kind = .group := hr
      rw [settled_conflict hkind, stays?_conflict hkind hl' hr']
      cases side with
      | left =>
        have hclosed : opensTo .left
            (⟨r, .group, .side .right⟩ :: ⟨i, .conflict lb, .member⟩ :: a) = false := rfl
        rw [stays?_placesAll_of_closed hclosed, List.append_nil]
        exact (ih (node l dl ls) (by simp)).body hk rfl ha ha'
      | right =>
        have hclosed : opensTo .right
            (⟨l, .group, .side .left⟩ :: ⟨i, .conflict lb, .member⟩ :: a) = false := rfl
        rw [stays?_placesAll_of_closed hclosed, List.nil_append]
        exact (ih (node r dr rs) (by simp)).body hk rfl ha ha'
    | scopeConflict lb =>
      have hat' : AlignedAt e.kind cs := halign.at_top
      rw [hkind] at hat hat'
      obtain ⟨⟨l, dl, ls⟩, ⟨r, dr, rs⟩, sl, sr, rfl, hl, hr, -, hbare⟩ := hat
      obtain rfl : rs = [] := hbare
      have hl' : dl.kind = .scope sl := hl
      have hr' : dr.kind = .scope sr := hr
      have hname : sr.name = sl.name := by
        obtain ⟨name, hnames⟩ := hat'
        have hln := hnames (node l dl ls) (by simp)
        have hrn := hnames (node r dr []) (by simp)
        rw [hl] at hln
        rw [hr] at hrn
        exact Option.some.inj (hrn.trans hln.symm)
      have hleaves := ih (node l dl ls) (by simp)
      rw [settled_headers hkind (by rw [hl']; rfl) (by rw [hr']; rfl), stays?_headers hkind]
      cases side with
      | left =>
        have hother : Place.stays? .left
            ⟨r, dr, .header .right, ⟨i, .scopeConflict lb, .member⟩ :: a⟩ = none :=
          Place.stays?_of_header rfl
        rw [stays?_kept_header ha ha', hother, Option.toList_none, List.append_nil]
        exact leaves_header hleaves hk hl' hl' rfl ha ha'
      | right =>
        have hother : Place.stays? .right
            ⟨l, dl, .header .left, ⟨i, .scopeConflict lb, .member⟩ :: a⟩ = none :=
          Place.stays?_of_header rfl
        rw [stays?_kept_header ha ha', hother, Option.toList_none, List.nil_append]
        exact (leaves_header hleaves hk hr' hl' hname ha ha').trans List.perm_append_comm

/-- What resolving leaves of a whole tree. -/
theorem Shaped.declared_settled {t : Tree} (h : t.Shaped) (halign : t.Aligned)
    (ht : t.kind = .group) (side : Side) :
    ((node t.id t.entry (settledAll side t.children)).places.filterMap Place.declared?).Perm
      ((t.traces.filter (Trace.staysOn side)).map Trace.named) := by
  obtain ⟨i, e, cs⟩ := t
  have hgroup : e.kind = .group := ht
  have hwhole : ((placesAll .group true [] ((node i e cs).settled side)).filterMap
      Place.declared?).Perm _ := (h.leaves halign side).whole (a := []) rfl rfl rfl
  rw [settled_of_not_conflict (by rw [hgroup]; rfl), placesAll, placesAll,
    List.append_nil] at hwhole
  rw [← filterMap_stays?]
  exact hwhole

end Tree

/-- What the nodes below the root of a forest declare, with the names under which they are found. -/
def Forest.declared (f : Forest) : List (List String × Kind) :=
  ((f.descendants root).filter fun i => (f.kind i).isDeclaration).map
    fun i => (f.indexKeys i, f.kind i)

theorem Forest.Shows.declared_eq {f : Forest} {t : Tree} {ts : List Tree} (h : f.Shows (t :: ts))
    (ht : t.id = root) (hgroup : t.kind = .group) :
    f.declared = t.places.filterMap Place.declared? := by
  obtain ⟨i, e, cs⟩ := t
  have hreached := h.reached_eq ht
  have hmem : ∀ p ∈ Tree.placesAll e.kind true [⟨i, e.kind, .member⟩] cs,
      p ∈ (Tree.node i e cs).places := fun p hp => List.mem_cons_of_mem _ hp
  have htop : Place.declared? ⟨i, e, .member, []⟩ = none := by
    have hkind : Place.kind ⟨i, e, .member, []⟩ = .group := hgroup
    rw [Place.declared?, hkind]
    rfl
  rw [Tree.places, Tree.placesAt, List.map_cons] at hreached
  rw [declared, (List.cons.inj hreached).2, Tree.places, Tree.placesAt, List.filterMap_cons, htop,
    List.filter_map, List.map_map, ← List.filterMap_eq_map, List.filterMap_filter]
  refine List.filterMap_congr fun p hp => ?_
  simp only [Function.comp_apply, h.kind_of_mem (hmem p hp), h.indexKeys_of_mem (hmem p hp),
    Place.declared?]

/-! ## What stays of a plain pair -/

namespace Declaration

/-- Whether a declaration is only in one outline, and in no scope for which the other has a leaf. -/
def isOwn (others : List Declaration) (d : Declaration) : Bool :=
  (d.namesake? others).isNone && !d.hiddenBy others

/-- What is declared on the left for a declaration of the first outline. -/
def foldedWith (rs : List Declaration) (l : Declaration) : Kind :=
  match l.namesake? rs with
  | some r => if l.kind.agrees r.kind then l.kind.fold r.kind else l.kind
  | none => l.kind

/-- What is declared on the right for a declaration of the second outline. -/
def foldedInto (ls : List Declaration) (r : Declaration) : Kind :=
  match r.namesake? ls with
  | some l => if l.kind.agrees r.kind then l.kind.fold r.kind else r.kind
  | none => r.kind

/-- Whether a declaration of the second outline is folded into it. -/
def foldsWith (rs : List Declaration) (l : Declaration) : Bool :=
  (l.namesake? rs).any fun r => l.kind.agrees r.kind

/-- Whether a declaration is folded into one of the first outline. -/
def foldsInto (ls : List Declaration) (r : Declaration) : Bool :=
  (r.namesake? ls).any fun l => l.kind.agrees r.kind

theorem foldsWith_of_isOwn {rs : List Declaration} {l : Declaration} (h : l.isOwn rs = true) :
    l.foldsWith rs = false ∧ l.foldedWith rs = l.kind := by
  have hnone : l.namesake? rs = none := Option.isNone_iff_eq_none.1 (Bool.and_eq_true_iff.1 h).1
  rw [foldsWith, foldedWith, hnone]
  exact ⟨rfl, rfl⟩

theorem foldedInto_eq_kind {ls : List Declaration} {r : Declaration}
    (h : r.foldsInto ls = false) : r.foldedInto ls = r.kind := by
  unfold foldsInto at h
  unfold foldedInto
  cases hnamesake : r.namesake? ls with
  | none => rfl
  | some l =>
    rw [hnamesake, Option.any_some] at h
    simp only [h]
    rfl

end Declaration

/-- What is declared when a merge of declarations is resolved to a side: all that is declared on
that side, folded with what agrees with it, and what only the other side declares. -/
def declaredOn (side : Side) (ls rs : List Declaration) : List (List String × Kind) :=
  side.pick
    (ls.map (fun l => (l.keys, l.foldedWith rs)) ++
      (rs.filter (Declaration.isOwn ls)).map fun r => (r.keys, r.kind))
    (rs.map (fun r => (r.keys, r.foldedInto ls)) ++
      (ls.filter (Declaration.isOwn rs)).map fun l => (l.keys, l.kind))

/-! The traces of single declarations. -/

theorem named_leftTrace (done : List Declaration) (l : Declaration) :
    (leftTrace done l).named = (l.keys, l.foldedWith done) := by
  unfold leftTrace Declaration.foldedWith
  cases l.namesake? done with
  | none => rfl
  | some r =>
    cases hmeeting : l.kind.meeting r.kind with
    | fold => simp only [hmeeting, Trace.named, Kind.agrees_of_fold hmeeting, if_true]
    | headers | sides =>
      have hagree : l.kind.agrees r.kind = false := Kind.agrees_eq_false (by simp [hmeeting])
      simp only [hmeeting, Trace.named, hagree]
      rfl

/-- All of the first outline stays on the left. -/
theorem staysOn_left_leftTrace (done : List Declaration) (l : Declaration) :
    (leftTrace done l).staysOn .left = true := by
  unfold leftTrace
  cases l.namesake? done with
  | none => rfl
  | some r => cases hmeeting : l.kind.meeting r.kind <;> simp only [hmeeting] <;> rfl

/-- Of the second outline, what is not in the first one stays on the left. -/
theorem named_rightTrace?_left (ls : List Declaration) (r : Declaration) :
    ((rightTrace? ls r).filter (Trace.staysOn .left)).map Trace.named =
      if r.isOwn ls then some (r.keys, r.kind) else none := by
  unfold rightTrace? Declaration.isOwn
  cases r.namesake? ls with
  | none => cases r.hiddenBy ls <;> rfl
  | some l =>
    cases hmeeting : l.kind.meeting r.kind with
    | fold => simp only [hmeeting]; rfl
    | headers => cases r.hiddenBy ls <;> simp only [hmeeting] <;> rfl
    | sides => simp only [hmeeting]; rfl

/-- Of the second outline, all that is not folded stays on the right by itself. -/
theorem named_rightTrace?_right (ls : List Declaration) (r : Declaration) :
    ((rightTrace? ls r).filter (Trace.staysOn .right)).map Trace.named =
      if !r.foldsInto ls then some (r.keys, r.kind) else none := by
  unfold rightTrace? Declaration.foldsInto
  cases r.namesake? ls with
  | none => rfl
  | some l =>
    cases hmeeting : l.kind.meeting r.kind with
    | fold => simp [hmeeting, Kind.agrees_of_fold hmeeting]
    | headers | sides =>
      have hagree : l.kind.agrees r.kind = false := Kind.agrees_eq_false (by simp [hmeeting])
      simp only [hmeeting, Option.any_some, hagree]
      rfl

/-- A choice of what single declarations say is a choice of declarations. -/
theorem filterMap_ite (ds : List Declaration) (p : Declaration → Bool) :
    (ds.filterMap fun d => if p d then some (d.keys, d.kind) else none) =
      (ds.filter p).map fun d => (d.keys, d.kind) := by
  rw [← List.filterMap_eq_map, List.filterMap_filter]
  rfl

/-- What stays on the left is what is declared there. -/
theorem declaredOn_left (ls rs : List Declaration) :
    ((tracesAfter ls rs).filter (Trace.staysOn .left)).map Trace.named =
      declaredOn .left ls rs := by
  have hleft : (ls.map (leftTrace rs)).filter (Trace.staysOn .left) = ls.map (leftTrace rs) := by
    rw [List.filter_eq_self]
    intro x hx
    obtain ⟨l, -, rfl⟩ := List.mem_map.1 hx
    exact staysOn_left_leftTrace rs l
  rw [tracesAfter, List.filter_append, List.map_append, hleft, List.map_map, List.filter_filterMap,
    List.map_filterMap, funext (named_rightTrace?_left ls), filterMap_ite]
  exact congrArg (· ++ _) (List.map_congr_left fun l _ => named_leftTrace rs l)

/-- Names tell what single declarations say apart. -/
theorem Outline.Plain.nodup_map_filter {o : Outline} (h : o.Plain) {p : Declaration → Bool}
    {f : Declaration → List String × Kind} (hf : ∀ d, (f d).1 = d.keys) :
    ((o.declarations.filter p).map f).Nodup := by
  rw [List.Nodup, List.pairwise_map]
  refine (h.distinct.filter p).imp_of_mem fun {d d'} _ hd' hmeets heq => ?_
  have hkeys : d.keys = d'.keys := by rw [← hf, heq, hf]
  rw [h.meets_of_keys (List.mem_of_mem_filter hd') hkeys] at hmeets
  cases hmeets

namespace PlainPair

variable {left right : Outline} {l r : Declaration}

/-- Of the first outline, what is folded and what is not in the second one stays on the right. -/
theorem staysOn_right_leftTrace (h : PlainPair left right) (hl : l ∈ left.declarations) :
    (leftTrace right.declarations l).staysOn .right =
      (l.isOwn right.declarations || l.foldsWith right.declarations) := by
  unfold leftTrace Declaration.isOwn Declaration.foldsWith
  cases hnamesake : l.namesake? right.declarations with
  | none => cases l.hiddenBy right.declarations <;> rfl
  | some r =>
    obtain ⟨hr, hkeys⟩ := (h.namesake?_right hl fun _ hx => hx).1 hnamesake
    have hhidden : l.hiddenBy right.declarations = false :=
      h.hiddenBy_eq_false hl hr hkeys.symm fun _ hx => hx
    rw [hhidden]
    cases hmeeting : l.kind.meeting r.kind with
    | fold => simp only [hmeeting, Option.any_some, Kind.agrees_of_fold hmeeting]; rfl
    | headers | sides =>
      have hagree : l.kind.agrees r.kind = false := Kind.agrees_eq_false (by simp [hmeeting])
      simp only [hmeeting, Option.any_some, hagree]
      rfl

/-- What is folded together, seen from the first outline. -/
theorem mem_folded_left (h : PlainPair left right) {x : List String × Kind} :
    x ∈ (left.declarations.filter (Declaration.foldsWith right.declarations)).map
        (fun l => (l.keys, l.foldedWith right.declarations)) ↔
      ∃ l ∈ left.declarations, ∃ r ∈ right.declarations, l.keys = r.keys ∧
        l.kind.agrees r.kind = true ∧ (r.keys, l.kind.fold r.kind) = x := by
  simp only [List.mem_map, List.mem_filter, Declaration.foldsWith, Option.any_eq_true]
  constructor
  · rintro ⟨l, ⟨hl, r, hnamesake, hagree⟩, rfl⟩
    obtain ⟨hr, hkeys⟩ := (h.namesake?_right hl fun _ hx => hx).1 hnamesake
    refine ⟨l, hl, r, hr, hkeys.symm, hagree, ?_⟩
    simp [Declaration.foldedWith, hnamesake, hagree, hkeys]
  · rintro ⟨l, hl, r, hr, hkeys, hagree, rfl⟩
    have hnamesake := (h.namesake?_right hl fun _ hx => hx).2 ⟨hr, hkeys.symm⟩
    refine ⟨l, ⟨hl, r, hnamesake, hagree⟩, ?_⟩
    simp [Declaration.foldedWith, hnamesake, hagree, hkeys]

/-- What is folded together, seen from the second outline. -/
theorem mem_folded_right (h : PlainPair left right) {x : List String × Kind} :
    x ∈ (right.declarations.filter (Declaration.foldsInto left.declarations)).map
        (fun r => (r.keys, r.foldedInto left.declarations)) ↔
      ∃ l ∈ left.declarations, ∃ r ∈ right.declarations, l.keys = r.keys ∧
        l.kind.agrees r.kind = true ∧ (r.keys, l.kind.fold r.kind) = x := by
  simp only [List.mem_map, List.mem_filter, Declaration.foldsInto, Option.any_eq_true]
  constructor
  · rintro ⟨r, ⟨hr, l, hnamesake, hagree⟩, rfl⟩
    obtain ⟨hl, hkeys⟩ := (h.namesake?_left hr).1 hnamesake
    refine ⟨l, hl, r, hr, hkeys, hagree, ?_⟩
    simp [Declaration.foldedInto, hnamesake, hagree]
  · rintro ⟨l, hl, r, hr, hkeys, hagree, rfl⟩
    have hnamesake := (h.namesake?_left hr).2 ⟨hl, hkeys⟩
    refine ⟨r, ⟨hr, l, hnamesake, hagree⟩, ?_⟩
    simp [Declaration.foldedInto, hnamesake, hagree]

/-- Both outlines see the same declarations folded together. -/
theorem perm_folded (h : PlainPair left right) :
    ((left.declarations.filter (Declaration.foldsWith right.declarations)).map
        fun l => (l.keys, l.foldedWith right.declarations)).Perm
      ((right.declarations.filter (Declaration.foldsInto left.declarations)).map
        fun r => (r.keys, r.foldedInto left.declarations)) := by
  refine (List.perm_ext_iff_of_nodup (h.left.nodup_map_filter fun _ => rfl)
    (h.right.nodup_map_filter fun _ => rfl)).2 fun x => ?_
  rw [h.mem_folded_left, h.mem_folded_right]

/-- What stays of the first outline on the right: what is its own, and what is folded. -/
theorem perm_stays_right (h : PlainPair left right) :
    (((left.declarations.map (leftTrace right.declarations)).filter
        (Trace.staysOn .right)).map Trace.named).Perm
      ((left.declarations.filter (Declaration.isOwn right.declarations)).map
          (fun l => (l.keys, l.kind)) ++
        (left.declarations.filter (Declaration.foldsWith right.declarations)).map
          fun l => (l.keys, l.foldedWith right.declarations)) := by
  have hstays : left.declarations.filter
        (fun l => (leftTrace right.declarations l).staysOn .right) =
      left.declarations.filter
        (fun l => l.isOwn right.declarations || l.foldsWith right.declarations) :=
    List.filter_congr fun l hl => h.staysOn_right_leftTrace hl
  -- Nothing is both, so the two parts can be taken apart.
  have hsplit := List.filter_append_perm (Declaration.isOwn right.declarations)
    (left.declarations.filter fun l => l.isOwn right.declarations || l.foldsWith right.declarations)
  have hown : (fun l : Declaration => l.isOwn right.declarations &&
      (l.isOwn right.declarations || l.foldsWith right.declarations)) =
      Declaration.isOwn right.declarations := by
    funext l
    cases l.isOwn right.declarations <;> rfl
  have hfolds : (fun l : Declaration => !l.isOwn right.declarations &&
      (l.isOwn right.declarations || l.foldsWith right.declarations)) =
      Declaration.foldsWith right.declarations := by
    funext l
    cases hown : l.isOwn right.declarations with
    | false => rfl
    | true => rw [(Declaration.foldsWith_of_isOwn hown).1]; rfl
  rw [List.filter_filter, List.filter_filter, hown, hfolds] at hsplit
  have hkinds : (left.declarations.filter (Declaration.isOwn right.declarations)).map
        (fun l => (l.keys, l.kind)) =
      (left.declarations.filter (Declaration.isOwn right.declarations)).map
        (fun l => (l.keys, l.foldedWith right.declarations)) :=
    List.map_congr_left fun l hl => by
      rw [(Declaration.foldsWith_of_isOwn (List.mem_filter.1 hl).2).2]
  rw [List.filter_map, List.map_map, hkinds, ← List.map_append]
  have hnamed : Trace.named ∘ leftTrace right.declarations =
      fun l => (l.keys, l.foldedWith right.declarations) :=
    funext (named_leftTrace right.declarations)
  rw [hnamed]
  exact ((List.Perm.of_eq hstays).trans hsplit.symm).map _

/-- What is declared on the right for the second outline: what is folded, and all else as it is. -/
theorem perm_map_foldedInto (ls rs : List Declaration) :
    (rs.map fun r => (r.keys, r.foldedInto ls)).Perm
      ((rs.filter (Declaration.foldsInto ls)).map (fun r => (r.keys, r.foldedInto ls)) ++
        (rs.filter fun r => !r.foldsInto ls).map fun r => (r.keys, r.kind)) := by
  have hkinds : (rs.filter fun r => !r.foldsInto ls).map (fun r => (r.keys, r.kind)) =
      (rs.filter fun r => !r.foldsInto ls).map fun r => (r.keys, r.foldedInto ls) :=
    List.map_congr_left fun r hr => by
      rw [Declaration.foldedInto_eq_kind (by simpa using (List.mem_filter.1 hr).2)]
  rw [hkinds, ← List.map_append]
  exact ((List.filter_append_perm _ rs).map _).symm

/-- What stays on the right is what is declared there. -/
theorem perm_declaredOn_right (h : PlainPair left right) :
    (((tracesAfter left.declarations right.declarations).filter (Trace.staysOn .right)).map
      Trace.named).Perm (declaredOn .right left.declarations right.declarations) := by
  rw [tracesAfter, List.filter_append, List.map_append, List.filter_filterMap, List.map_filterMap,
    funext (named_rightTrace?_right left.declarations), filterMap_ite]
  refine (h.perm_stays_right.append_right _).trans ?_
  rw [List.append_assoc]
  refine List.perm_append_comm.trans (.append_right _ ?_)
  exact (h.perm_folded.append_right _).trans (perm_map_foldedInto _ _).symm

end PlainPair

/-- **Resolving a merge.** The merge of a plain pair can be resolved to either side. What is
declared then is all that this side declares, each with what the other side adds to it, and what
only the other side declares, unless a leaf of this side has the name of a scope that it is in. -/
theorem resolve_merge_of_plainPair (labels : Labels) {left right : Outline}
    (h : PlainPair left right) :
    ∃ res, merge labels { root := left } { root := right } = .ok res ∧
      ∀ side, ∃ f, res.forest.resolve side = .ok f ∧
        f.declared.Perm (declaredOn side left.declarations right.declarations) := by
  obtain ⟨m, t, g, t', hm, hs, hmerge, hshows, hall⟩ := h.exists_merge labels
  refine ⟨_, hmerge, fun side => ?_⟩
  obtain ⟨f, us, hf, hres⟩ := hm.resolve hall hshows side
  refine ⟨f, hf, ?_⟩
  have htop := hm.top
  have hsettled := hm.shaped.declared_settled hs.aligned hm.group side
  rw [htop, ← hres.declared_eq rfl hm.group] at hsettled
  refine hsettled.trans (((hs.traces.filter _).map _).trans ?_)
  cases side with
  | left => exact .of_eq (declaredOn_left _ _)
  | right => exact h.perm_declaredOn_right

/-- The cars, resolved to both sides. On the left the plan is a module, and on the right it is a
constant, so nothing that was in it is left there; the doors are only in the second outline. -/
theorem resolve_merge_of_cars :
    PlainPair oldCars newCars ∧ ∃ res f g,
      merge ⟨"old", "new"⟩ { root := oldCars } { root := newCars } = .ok res ∧
      res.forest.resolve .left = .ok f ∧ f.declared.Perm [
        (["Car"], .scope (.classOf "Car" (some "Vehicle"))),
        (["Car#wheels"], .leaf (.method
          { name := "wheels", signatures := [{ result := some "Integer" }] })),
        (["Car::MAX"], .leaf (.const "MAX" "1")),
        (["Plan"], .scope (.moduleOf "Plan")),
        (["Plan#go"], .leaf (.method { name := "go" })),
        (["VERSION"], .leaf (.const "VERSION" "1")),
        (["Car#doors"], .leaf (.method { name := "doors" }))] ∧
      res.forest.resolve .right = .ok g ∧ g.declared.Perm [
        (["Car"], .scope (.classOf "Car" (some "Machine"))),
        (["Car#wheels"], .leaf (.method
          { name := "wheels", signatures := [{ result := some "Integer" }] })),
        (["Car::MAX"], .leaf (.const "MAX" "2")),
        (["Car#doors"], .leaf (.method { name := "doors" })),
        (["Plan"], .leaf (.const "Plan" "nil")),
        (["VERSION"], .scope (.moduleOf "VERSION")),
        (["VERSION#major"], .leaf (.method { name := "major" }))] := by
  obtain ⟨res, hmerge, hresolve⟩ := resolve_merge_of_plainPair ⟨"old", "new"⟩ plainPair_cars
  obtain ⟨f, hf, hleft⟩ := hresolve .left
  obtain ⟨g, hg, hright⟩ := hresolve .right
  exact ⟨plainPair_cars, res, f, g, hmerge, hf, hleft.trans (.of_eq (by decide)), hg,
    hright.trans (.of_eq (by decide))⟩

end StubMerge
