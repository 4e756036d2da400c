import StubMerge.Proofs.Growth
import StubMerge.Proofs.Shape

/-!
# What a tree shows of a declaration

The *trace* of a declaration in a tree says under which names it is found, what it says, in which
scopes it is, whether it is one of two headers, and to which sides conflicts above it can be
resolved without losing it. Numbers and the order of the tree are left out, so the traces of a tree
can be compared with a list of declarations.

The edits of a merge change traces in few ways. A tree that is put into a scope brings its own and
leaves all others alone (`perm_traces_append`). A conflict closes all that it puts on its left to
the right side (`traces_opposed`), and a second header turns one trace into that of a left header
(`traces_opposedHeaders`).
-/

namespace StubMerge

/-- The other one of the two sides. -/
def Side.other : Side → Side
  | left => right
  | right => left

/-- Whether a node declares something. -/
def Kind.isDeclaration (k : Kind) : Bool := k.isScope || !k.isContainer

theorem Kind.GrowsTo.isDeclaration_eq {k k' : Kind} (h : k.GrowsTo k') :
    k'.isDeclaration = k.isDeclaration := by
  cases h <;> rfl

theorem Kind.isDeclaration_of_scope {k : Kind} (h : k.isScope = true) : k.isDeclaration = true := by
  rw [isDeclaration, h, Bool.true_or]

theorem Kind.isDeclaration_of_leaf {k : Kind} (h : k.isContainer = false) :
    k.isDeclaration = true := by
  rw [isDeclaration, h, Bool.not_false, Bool.or_true]

/-- What goes by a name is declared. -/
theorem Kind.isDeclaration_of_mem_keys {k : Kind} {path key : String} (h : key ∈ k.keys path) :
    k.isDeclaration = true := by
  cases k with
  | scope _ | leaf _ => rfl
  | group | conflict _ | scopeConflict _ => cases h

/-! ## What stands above a declaration -/

/-- The qualified names of the scopes among steps, the nearest first. -/
def scopesAlong : List Step → List String
  | [] => []
  | st :: above =>
    if st.kind.isScope then st.kind.within (pathAlong above) :: scopesAlong above
    else scopesAlong above

/-- Whether no step is lost when conflicts are resolved to a side. -/
def opensTo (side : Side) (above : List Step) : Bool :=
  above.all fun st => st.slot != .side side.other

/-- A scope among steps has its name among their names. -/
theorem mem_scopesAlong {name : String} {above : List Step} :
    name ∈ scopesAlong above ↔ ∃ inner st rest, above = inner ++ st :: rest ∧
      st.kind.isScope = true ∧ name = st.kind.within (pathAlong rest) := by
  induction above with
  | nil => simp [scopesAlong]
  | cons st above ih =>
    have hsplit : (∃ inner st' rest, st :: above = inner ++ st' :: rest ∧ st'.kind.isScope = true ∧
        name = st'.kind.within (pathAlong rest)) ↔
        st.kind.isScope = true ∧ name = st.kind.within (pathAlong above) ∨
        name ∈ scopesAlong above := by
      rw [ih]
      constructor
      · rintro ⟨inner, st', rest, heq, hrest⟩
        cases inner with
        | nil =>
          obtain ⟨rfl, rfl⟩ := List.cons.inj heq
          exact .inl hrest
        | cons x inner => exact .inr ⟨inner, st', rest, (List.cons.inj heq).2, hrest⟩
      · rintro (hrest | ⟨inner, st', rest, rfl, hrest⟩)
        · exact ⟨[], st, above, rfl, hrest⟩
        · exact ⟨st :: inner, st', rest, rfl, hrest⟩
    rw [hsplit, scopesAlong]
    cases st.kind.isScope <;> simp

/-- The path is the name of the nearest scope. -/
theorem pathAlong_eq_headD (above : List Step) :
    pathAlong above = (scopesAlong above).headD "" := by
  induction above with
  | nil => rfl
  | cons st above ih =>
    have hcons : pathAlong (st :: above) = st.kind.within (pathAlong above) := rfl
    rw [hcons, scopesAlong]
    cases hs : st.kind.isScope with
    | true => rfl
    | false =>
      rw [Kind.within_of_not_scope hs, ih]
      rfl

/-- Steps lead through the same scopes, but less may be open: a side stays open only if the flag for
it is set. -/
structure Narrows (left right : Bool) (a a' : List Step) : Prop where
  path : pathAlong a' = pathAlong a
  scopes : scopesAlong a' = scopesAlong a
  toLeft : opensTo .left a' = (opensTo .left a && left)
  toRight : opensTo .right a' = (opensTo .right a && right)

theorem Narrows.cons {left right : Bool} {a a' : List Step} (h : Narrows left right a a')
    (st : Step) : Narrows left right (st :: a) (st :: a') where
  path := by
    have hpath := h.path
    unfold pathAlong at hpath ⊢
    rw [List.foldr_cons, List.foldr_cons, hpath]
  scopes := by rw [scopesAlong, scopesAlong, h.path, h.scopes]
  toLeft := by
    have hleft := h.toLeft
    unfold opensTo at hleft ⊢
    rw [List.all_cons, List.all_cons, hleft, Bool.and_assoc]
  toRight := by
    have hright := h.toRight
    unfold opensTo at hright ⊢
    rw [List.all_cons, List.all_cons, hright, Bool.and_assoc]

/-! ## Traces -/

/-- What the first of a list gives is put before what the others give. -/
theorem filterMap_cons_toList {α β : Type} (f : α → Option β) (x : α) (xs : List α) :
    (x :: xs).filterMap f = (f x).toList ++ xs.filterMap f := by
  rw [List.filterMap_cons]
  cases f x <;> rfl

/-- What a tree shows of a declaration. -/
structure Trace where
  keys : List String
  kind : Kind
  /-- The qualified names of the scopes that it is in, the nearest first. -/
  enclosing : List String
  slot : Slot
  /-- Whether what is above it stays when conflicts are resolved to the left. -/
  openLeft : Bool
  /-- Whether what is above it stays when conflicts are resolved to the right. -/
  openRight : Bool

namespace Trace

/-- The trace in a place that less may be open to. -/
def restrict (left right : Bool) (x : Trace) : Trace :=
  { x with openLeft := x.openLeft && left, openRight := x.openRight && right }

/-- Whether what stands above a declaration stays when conflicts are resolved to a side. -/
def opensTo (side : Side) (x : Trace) : Bool := side.pick x.openLeft x.openRight

/-- Whether a declaration stays when conflicts are resolved to a side. -/
def staysOn (side : Side) (x : Trace) : Bool := x.opensTo side && x.slot != .header side.other

end Trace

namespace Place

/-- The trace of what is declared at a place. -/
def trace (p : Place) : Trace where
  keys := p.keys
  kind := p.kind
  enclosing := scopesAlong p.above
  slot := p.slot
  openLeft := StubMerge.opensTo .left p.above
  openRight := StubMerge.opensTo .right p.above

/-- The trace of a place, if anything is declared there. -/
def trace? (p : Place) : Option Trace := if p.kind.isDeclaration then some p.trace else none

theorem trace?_eq_some {p : Place} (h : p.kind.isDeclaration = true) : p.trace? = some p.trace :=
  if_pos h

theorem trace?_eq_some_iff {p : Place} {x : Trace} :
    p.trace? = some x ↔ p.kind.isDeclaration = true ∧ p.trace = x := by
  simp [trace?]

theorem trace?_eq_none {p : Place} (h : p.kind.isDeclaration = false) : p.trace? = none :=
  if_neg (by simp [h])

end Place

namespace Tree

/-- The traces of a tree, parents before children. -/
def traces (t : Tree) : List Trace := t.places.filterMap Place.trace?

theorem mem_traces {t : Tree} {x : Trace} :
    x ∈ t.traces ↔ ∃ p ∈ t.places, p.kind.isDeclaration = true ∧ p.trace = x := by
  simp [traces, Place.trace?]

theorem trace_mem_traces {t : Tree} {p : Place} (hp : p ∈ t.places)
    (hk : p.kind.isDeclaration = true) : p.trace ∈ t.traces :=
  mem_traces.2 ⟨p, hp, hk, rfl⟩

/-- Above a place there are places, each with the rest of the steps above it. -/
theorem exists_place_above {t : Tree} {p : Place} (hp : p ∈ t.places) {inner rest : List Step}
    {st : Step} (h : p.above = inner ++ st :: rest) :
    ∃ q ∈ t.places, q.step = st ∧ q.above = rest := by
  obtain ⟨K, s, rfl, rfl⟩ := mem_places.1 hp
  have hK : Frames.steps K = inner ++ st :: rest := h
  clear hp h
  induction K generalizing s inner with
  | nil => simp [Frames.steps] at hK
  | cons k K ih =>
    rw [Frames.steps] at hK
    cases inner with
    | nil =>
      obtain ⟨rfl, rfl⟩ := List.cons.inj hK
      exact ⟨_, (k.fill s).placeIn_mem_places K, rfl, rfl⟩
    | cons x inner => exact ih (k.fill s) (List.cons.inj hK).2

/-- The scopes that a declaration is in have places. -/
theorem exists_scope_place {t : Tree} {p : Place} (hp : p ∈ t.places) {name : String}
    (h : name ∈ scopesAlong p.above) :
    ∃ q ∈ t.places, q.kind.isScope = true ∧ q.keys = [name] ∧ q.step ∈ p.above := by
  obtain ⟨inner, st, rest, habove, hscope, rfl⟩ := mem_scopesAlong.1 h
  obtain ⟨q, hq, rfl, rfl⟩ := exists_place_above hp habove
  exact ⟨q, hq, hscope, Kind.keys_of_scope hscope _, by rw [habove]; simp⟩

/-! ## Below a node and beside it -/

theorem exists_of_mem_placesAll {kind : Kind} {first : Bool} {a : List Step} {cs : List Tree}
    {p : Place} (hp : p ∈ placesAll kind first a cs) :
    ∃ c ∈ cs, ∃ slot, p ∈ c.placesAt slot a := by
  induction cs generalizing first with
  | nil => simp [placesAll] at hp
  | cons c cs ih =>
    rw [placesAll] at hp
    rcases List.mem_append.1 hp with hp | hp
    · exact ⟨c, by simp, _, hp⟩
    · obtain ⟨d, hd, hslot⟩ := ih hp
      exact ⟨d, by simp [hd], hslot⟩

/-- Below a node there is nothing but what has it above. -/
theorem above_of_mem_placesAt (t : Tree) {slot : Slot} {a : List Step} {p : Place}
    (hp : p ∈ t.placesAt slot a) : p = ⟨t.id, t.entry, slot, a⟩ ∨
      ∃ inner, p.above = inner ++ ⟨t.id, t.kind, slot⟩ :: a ∧ ∀ st ∈ inner, st.id ∈ t.ids := by
  induction t using induct generalizing slot a with
  | step i e cs ih =>
    rw [placesAt] at hp
    rcases List.mem_cons.1 hp with rfl | hp
    · exact .inl rfl
    · obtain ⟨c, hc, slot', hp⟩ := exists_of_mem_placesAll hp
      have hsub : ∀ {x}, x ∈ c.ids → x ∈ (node i e cs).ids := fun hx => by
        rw [ids]
        exact List.mem_cons_of_mem _ (mem_idsAll.2 ⟨c, hc, hx⟩)
      rcases ih c hc hp with rfl | ⟨inner, hinner, hids⟩
      · exact .inr ⟨[], rfl, by simp⟩
      · refine .inr ⟨inner ++ [⟨c.id, c.kind, slot'⟩], by rw [hinner]; simp, fun st hst => ?_⟩
        rcases List.mem_append.1 hst with hst | hst
        · exact hsub (hids st hst)
        · rw [List.mem_singleton.1 hst]
          exact hsub c.id_mem_ids

/-- What is below a scope has its name among those of the scopes that it is in. -/
theorem mem_scopesAlong_of_below {kind : Kind} {first : Bool} {st : Step} {a : List Step}
    {cs : List Tree} {p : Place} (hp : p ∈ placesAll kind first (st :: a) cs)
    (hst : st.kind.isScope = true) : st.kind.within (pathAlong a) ∈ scopesAlong p.above := by
  obtain ⟨c, hc, slot, hp⟩ := exists_of_mem_placesAll hp
  rcases c.above_of_mem_placesAt hp with rfl | ⟨inner, hinner, -⟩
  · exact mem_scopesAlong.2 ⟨[], st, a, rfl, hst, rfl⟩
  · exact mem_scopesAlong.2 ⟨inner ++ [_], st, a, hinner.trans (List.append_cons ..), hst, rfl⟩

end Tree

namespace Frames

theorem mem_idsBefore_of_steps {K : Frames} {st : Step} (h : st ∈ steps K) :
    st.id ∈ idsBefore K := by
  induction K with
  | nil => cases h
  | cons k K ih =>
    rw [idsBefore]
    rcases List.mem_cons.1 h with rfl | h
    · simp
    · exact List.mem_append_left _ (ih h)

/-- Beside a node there is nothing that has it above. -/
theorem mem_ids_of_above {K : Frames} {p : Place} (hp : p ∈ placesBefore K ∨ p ∈ placesAfter K)
    {st : Step} (hst : st ∈ p.above) : st.id ∈ idsBefore K ∨ st.id ∈ idsAfter K := by
  -- A place below a tree beside the missing one has that tree above, and then the frames.
  have hbeside : ∀ {k : Frame} {K : Frames} {first : Bool} {cs : List Tree},
      p ∈ Tree.placesAll k.entry.kind first (steps (k :: K)) cs →
      st.id ∈ Tree.idsAll cs ∨ st.id ∈ idsBefore (k :: K) := by
    intro k K first cs hp
    obtain ⟨c, hc, slot, hp⟩ := Tree.exists_of_mem_placesAll hp
    rcases c.above_of_mem_placesAt hp with rfl | ⟨inner, hinner, hids⟩
    · exact .inr (mem_idsBefore_of_steps hst)
    · rw [hinner] at hst
      rcases List.mem_append.1 hst with hst | hst
      · exact .inl (Tree.mem_idsAll.2 ⟨c, hc, hids st hst⟩)
      · rcases List.mem_cons.1 hst with rfl | hst
        · exact .inl (Tree.mem_idsAll.2 ⟨c, hc, c.id_mem_ids⟩)
        · exact .inr (mem_idsBefore_of_steps hst)
  induction K with
  | nil => rcases hp with hp | hp <;> cases hp
  | cons k K ih =>
    have hsub : st.id ∈ idsBefore K ∨ st.id ∈ idsAfter K →
        st.id ∈ idsBefore (k :: K) ∨ st.id ∈ idsAfter (k :: K) := by
      rw [idsBefore, idsAfter]
      exact Or.imp (List.mem_append_left _) (List.mem_append_right _)
    rcases hp with hp | hp
    · rw [placesBefore] at hp
      rcases List.mem_append.1 hp with hp | hp
      · exact hsub (ih (.inl hp))
      · rcases List.mem_cons.1 hp with rfl | hp
        · exact hsub (.inl (mem_idsBefore_of_steps hst))
        · rcases hbeside hp with hid | hid
          · rw [idsBefore]
            exact .inl (List.mem_append_right _ (List.mem_cons_of_mem _ hid))
          · exact .inl hid
    · rw [placesAfter] at hp
      rcases List.mem_append.1 hp with hp | hp
      · rcases hbeside hp with hid | hid
        · rw [idsAfter]
          exact .inr (List.mem_append_left _ hid)
        · exact .inl hid
      · exact hsub (ih (.inr hp))

theorem ne_of_above {s : Tree} {K : Frames} (h : (s.under K).ids.Nodup) {p : Place}
    (hp : p ∈ placesBefore K ∨ p ∈ placesAfter K) {st : Step} (hst : st ∈ p.above) :
    st.id ≠ s.id := by
  rw [Tree.ids_under, List.append_assoc, List.nodup_append] at h
  obtain ⟨-, hrest, hbefore⟩ := h
  obtain ⟨-, -, hafter⟩ := List.nodup_append.1 hrest
  rcases mem_ids_of_above hp hst with hid | hid
  · exact hbefore _ hid _ (List.mem_append_left _ s.id_mem_ids)
  · exact (hafter _ s.id_mem_ids _ hid).symm

end Frames

/-! ## Traces under edits -/

namespace Tree

variable {K : Frames}

theorem traces_under (s : Tree) (K : Frames) :
    (s.under K).traces = (Frames.placesBefore K).filterMap Place.trace? ++
      (s.placesAt (Frames.slot K) (Frames.steps K)).filterMap Place.trace? ++
      (Frames.placesAfter K).filterMap Place.trace? := by
  rw [traces, places_under, List.filterMap_append, List.filterMap_append]

/-- Less may be open to all that is below. -/
theorem traces_placesAt_narrowed (t : Tree) {slot : Slot} {a a' : List Step} {left right : Bool}
    (h : Narrows left right a a') :
    (t.placesAt slot a').filterMap Place.trace? =
      ((t.placesAt slot a).filterMap Place.trace?).map (Trace.restrict left right) := by
  induction t using induct generalizing slot a a' with
  | step i e cs ih =>
    have hcs : ∀ ds, (∀ d ∈ ds, d ∈ cs) → ∀ {first b b'}, Narrows left right b b' →
        (placesAll e.kind first b' ds).filterMap Place.trace? =
          ((placesAll e.kind first b ds).filterMap Place.trace?).map
            (Trace.restrict left right) := by
      intro ds
      induction ds with
      | nil => intro _ first b b' _; simp [placesAll]
      | cons d ds ihd =>
        intro hd first b b' hb
        rw [placesAll, placesAll, List.filterMap_append, List.filterMap_append, List.map_append,
          ih d (hd d (by simp)) hb, ihd (fun x hx => hd x (by simp [hx])) hb]
    have htop : Place.trace? ⟨i, e, slot, a'⟩ =
        (Place.trace? ⟨i, e, slot, a⟩).map (Trace.restrict left right) := by
      have hpath : Place.path ⟨i, e, slot, a'⟩ = Place.path ⟨i, e, slot, a⟩ := h.path
      have htrace : Place.trace ⟨i, e, slot, a'⟩ =
          (Place.trace ⟨i, e, slot, a⟩).restrict left right := by
        simp only [Place.trace, Trace.restrict, Place.keys, Place.kind, hpath, h.scopes, h.toLeft,
          h.toRight]
      rw [Place.trace?, Place.trace?, htrace, apply_ite (Option.map _)]
      rfl
    rw [placesAt, placesAt, List.filterMap_cons, List.filterMap_cons, htop,
      hcs cs (fun _ hc => hc) (h.cons _)]
    cases Place.trace? ⟨i, e, slot, a⟩ <;> rfl

/-- What is in a scope does not show whether the scope is a left header. -/
theorem traces_body_of_header (n : NodeId) (l : Labels) (i : NodeId) (k : Kind) (cs : List Tree)
    (first : Bool) (a : List Step) :
    (placesAll k first (⟨i, k, .header .left⟩ :: ⟨n, .scopeConflict l, .member⟩ :: a)
        cs).filterMap Place.trace? =
      (placesAll k first (⟨i, k, .member⟩ :: a) cs).filterMap Place.trace? := by
  have hnarrow : Narrows true true (⟨i, k, .member⟩ :: a)
      (⟨i, k, .header .left⟩ :: ⟨n, .scopeConflict l, .member⟩ :: a) :=
    ⟨rfl, rfl, (Bool.and_true _).symm, (Bool.and_true _).symm⟩
  have hid : ∀ x : Trace, x.restrict true true = x := fun x => by simp [Trace.restrict]
  induction cs generalizing first with
  | nil => rfl
  | cons c cs ih =>
    rw [placesAll, placesAll, List.filterMap_append, List.filterMap_append, ih,
      c.traces_placesAt_narrowed hnarrow, List.map_id'' hid]

/-- A tree that is put behind the members of a node brings its traces. -/
theorem perm_traces_append {i : NodeId} {e : Entry} {cs : List Tree} (c : Tree)
    (he : e.kind.isConflict = false) :
    (((node i e (cs ++ [c])).under K).traces).Perm (((node i e cs).under K).traces ++
      (c.placesAt .member (⟨i, e.kind, Frames.slot K⟩ :: Frames.steps K)).filterMap
        Place.trace?) := by
  rw [traces_under, traces_under, placesAt, placesAt, placesAll_append, placesAll_cons,
    Kind.slot_eq_member he, placesAll, List.append_nil, ← List.cons_append, List.filterMap_append]
  simp only [List.append_assoc]
  exact List.Perm.append_left _ (List.Perm.append_left _ List.perm_append_comm)

/-- A conflict closes what it puts on its left to the right. -/
theorem traces_opposed {n : NodeId} {l : Labels} {s c : Tree} {a : List Step} :
    ((opposed n l s c).placesAt .member a).filterMap Place.trace? =
      ((s.placesAt .member a).filterMap Place.trace?).map (Trace.restrict true false) ++
      (c.placesAt .member (⟨n + 2, .group, .side .right⟩ :: ⟨n, .conflict l, .member⟩ ::
        a)).filterMap Place.trace? := by
  have hnarrow : Narrows true false a
      (⟨n + 1, .group, .side .left⟩ :: ⟨n, .conflict l, .member⟩ :: a) :=
    ⟨rfl, rfl, (Bool.and_true _).symm, (Bool.and_false _).symm⟩
  have hplaces : (opposed n l s c).placesAt .member a =
      ⟨n, { kind := .conflict l }, .member, a⟩ ::
      ⟨n + 1, {}, .side .left, ⟨n, .conflict l, .member⟩ :: a⟩ ::
      s.placesAt .member (⟨n + 1, .group, .side .left⟩ :: ⟨n, .conflict l, .member⟩ :: a) ++
      ⟨n + 2, {}, .side .right, ⟨n, .conflict l, .member⟩ :: a⟩ ::
      c.placesAt .member (⟨n + 2, .group, .side .right⟩ :: ⟨n, .conflict l, .member⟩ :: a) := by
    simp [opposed, placesAt, placesAll, Kind.slot]
  rw [hplaces, ← s.traces_placesAt_narrowed hnarrow]
  simp [Place.trace?, Place.kind, Kind.isDeclaration, Kind.isScope, Kind.isContainer]

/-- A second header turns the trace of a scope into that of a left header. -/
theorem traces_opposedHeaders {n : NodeId} {l : Labels} {i : NodeId} {e d : Entry}
    {cs : List Tree} {a : List Step} (he : e.kind.isScope = true) :
    ((opposedHeaders n l (node i e cs) d).placesAt .member a).filterMap Place.trace? =
      { Place.trace ⟨i, e, .member, a⟩ with slot := .header .left } ::
        (placesAll e.kind true (⟨i, e.kind, .member⟩ :: a) cs).filterMap Place.trace? ++
      (Place.trace? ⟨n + 1, d, .header .right, ⟨n, .scopeConflict l, .member⟩ :: a⟩).toList := by
  have hplaces : (opposedHeaders n l (node i e cs) d).placesAt .member a =
      ⟨n, { kind := .scopeConflict l }, .member, a⟩ ::
      ⟨i, e, .header .left, ⟨n, .scopeConflict l, .member⟩ :: a⟩ ::
      placesAll e.kind true (⟨i, e.kind, .header .left⟩ :: ⟨n, .scopeConflict l, .member⟩ :: a)
        cs ++ [⟨n + 1, d, .header .right, ⟨n, .scopeConflict l, .member⟩ :: a⟩] := by
    simp [opposedHeaders, placesAt, placesAll, Kind.slot]
  have hdecl : e.kind.isDeclaration = true := Kind.isDeclaration_of_scope he
  have htop : Place.trace? ⟨i, e, .header .left, ⟨n, .scopeConflict l, .member⟩ :: a⟩ =
      some { Place.trace ⟨i, e, .member, a⟩ with slot := .header .left } :=
    Place.trace?_eq_some hdecl
  have hconflict : Place.trace? ⟨n, { kind := .scopeConflict l }, .member, a⟩ = none :=
    Place.trace?_eq_none rfl
  rw [hplaces, List.cons_append, List.filterMap_cons, hconflict, List.cons_append,
    List.filterMap_cons, htop, List.filterMap_append, traces_body_of_header,
    filterMap_cons_toList, List.filterMap_nil, List.append_nil]
  rfl

end Tree

end StubMerge
