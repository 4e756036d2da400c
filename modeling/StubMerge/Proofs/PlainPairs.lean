import Mathlib.Data.List.Pairwise
import StubMerge.Proofs.Naming
import StubMerge.Proofs.Traces

/-!
# Plain pairs

Two outlines are a *plain pair* if names cause no confusion: every declaration has a name, in each
outline no two declarations share one, and a declaration of the first and one of the second that
share a name share all of them.

What a merge of a plain pair shows of each declaration can be said without merging. `leftTrace` says
it for the first outline when some declarations of the second have been visited, `rightTrace?` for
the second outline; the two have one trace together if they are folded. `tracesAfter_append` says
what one more declaration changes, and `eq_of_mem_tracesAfter` that it finds a declaration of the
first outline as that outline has it.
-/

namespace StubMerge

namespace Declaration

/-- Whether two declarations share a name. -/
def meets (d d' : Declaration) : Bool := d.keys.any d'.keys.contains

/-- The declaration among `ds` that shares a name with `d`. -/
def namesake? (d : Declaration) (ds : List Declaration) : Option Declaration := ds.find? d.meets

/-- Whether `d` is a leaf that has the name of one of the scopes. -/
def hides (d : Declaration) (scopes : List String) : Bool :=
  !d.kind.isContainer && d.keys.any scopes.contains

/-- Whether a leaf among `ds` has the name of a scope that `d` is in. -/
def hiddenBy (d : Declaration) (ds : List Declaration) : Bool := ds.any fun x => x.hides d.enclosing

/-- Whether a declaration among `ls` shares a name with `r` and does not agree with it. -/
def clashesWith (r : Declaration) (ls : List Declaration) : Bool :=
  ls.any fun l => l.meets r && !l.kind.agrees r.kind

/-- The trace of a declaration in its own outline. -/
def trace (d : Declaration) : Trace := ⟨d.keys, d.kind, d.enclosing, .member, true, true⟩

theorem meets_iff {d d' : Declaration} : d.meets d' = true ↔ ∃ key ∈ d.keys, key ∈ d'.keys := by
  simp [meets]

theorem meets_comm (d d' : Declaration) : d.meets d' = d'.meets d := by
  rw [Bool.eq_iff_iff, meets_iff, meets_iff]
  exact exists_congr fun _ => and_comm

/-- Where no two declarations share a name, a name is that of one declaration. -/
theorem eq_of_meets {ds : List Declaration} (h : ds.Pairwise fun d d' => d.meets d' = false)
    {d d' : Declaration} (hd : d ∈ ds) (hd' : d' ∈ ds) (hmeets : d.meets d' = true) : d = d' := by
  have : Std.Symm fun d d' : Declaration => d.meets d' = false :=
    ⟨fun d d' h => by rw [meets_comm, h]⟩
  by_contra hne
  rw [h.forall hd hd' hne] at hmeets
  cases hmeets

theorem hides_iff {d : Declaration} {scopes : List String} :
    d.hides scopes = true ↔ d.kind.isContainer = false ∧ ∃ key ∈ d.keys, key ∈ scopes := by
  simp [hides]

end Declaration

/-! ## Plain outlines -/

/-- No conflicts, names that are single parts, and no name that two declarations share. -/
structure Outline.Plain (o : Outline) : Prop where
  conflictFree : o.isConflictFree = true
  names : ∀ d ∈ o.declarations, d.kind.isPlain = true
  keys : ∀ d ∈ o.declarations, d.keys ≠ []
  distinct : o.declarations.Pairwise fun d d' => d.meets d' = false

/-- Two plain outlines in which declarations that share a name share all. -/
structure PlainPair (left right : Outline) : Prop where
  same : ∀ l ∈ left.declarations, ∀ r ∈ right.declarations, l.meets r = true → l.keys = r.keys
  left : left.Plain
  right : right.Plain

namespace Outline

mutual
theorem isDeclaration_declarationsIn : ∀ (o : Outline) {path : String} {enclosing : List String},
    ∀ d ∈ o.declarationsIn path enclosing, d.kind.isDeclaration = true
  | node e cs, path, enclosing => by
    rw [declarationsIn]
    cases hk : e.kind with
    | scope _ | leaf _ =>
      intro d hd
      rcases List.mem_cons.1 hd with rfl | hd
      · rw [Declaration.kind, hk]
        rfl
      · exact isDeclaration_declarationsOf cs d hd
    | group | conflict _ | scopeConflict _ => exact isDeclaration_declarationsOf cs
/-- Declarations are scopes and leaves. -/
theorem isDeclaration_declarationsOf : ∀ (os : List Outline) {path : String}
    {enclosing : List String}, ∀ d ∈ declarationsOf path enclosing os, d.kind.isDeclaration = true
  | [], _, _ => by simp [declarationsOf]
  | o :: os, path, enclosing => by
    rw [declarationsOf]
    intro d hd
    rcases List.mem_append.1 hd with hd | hd
    · exact isDeclaration_declarationsIn o d hd
    · exact isDeclaration_declarationsOf os d hd
end

namespace Plain

variable {o : Outline} {d d' : Declaration}

/-- A name is that of one declaration. -/
theorem eq_of_meets (h : o.Plain) (hd : d ∈ o.declarations) (hd' : d' ∈ o.declarations)
    (hmeets : d.meets d' = true) : d = d' :=
  Declaration.eq_of_meets h.distinct hd hd' hmeets

theorem meets_of_keys (h : o.Plain) (hd : d ∈ o.declarations) (hkeys : d'.keys = d.keys) :
    d'.meets d = true := by
  obtain ⟨key, hkey⟩ := List.exists_mem_of_ne_nil _ (h.keys d hd)
  exact Declaration.meets_iff.2 ⟨key, hkeys ▸ hkey, hkey⟩

theorem eq_of_keys (h : o.Plain) (hd : d ∈ o.declarations) (hd' : d' ∈ o.declarations)
    (hkeys : d.keys = d'.keys) : d = d' :=
  h.eq_of_meets hd hd' (h.meets_of_keys hd' hkeys)

theorem nested (h : o.Plain) (hd : d ∈ o.declarations) : Nested d.path d.enclosing :=
  nested_declarationsOf _ .top h.names d hd

/-- A leaf has not the name of a scope. -/
theorem hides_eq_false (h : o.Plain) (hd : d ∈ o.declarations) (hd' : d' ∈ o.declarations) :
    d.hides d'.enclosing = false := by
  rw [Bool.eq_false_iff]
  intro hhides
  obtain ⟨hleaf, key, hkey, hmem⟩ := Declaration.hides_iff.1 hhides
  rcases enclosing_declarationsOf _ d' hd' key hmem with hnil | ⟨s, hs, hscope, hkeys⟩
  · cases hnil
  · obtain rfl : d = s := h.eq_of_meets hd hs (Declaration.meets_iff.2 ⟨key, hkey, by simp [hkeys]⟩)
    rw [Kind.isContainer_of_scope hscope] at hleaf
    cases hleaf

theorem hiddenBy_eq_false (h : o.Plain) (hd : d ∈ o.declarations) {ds : List Declaration}
    (hds : ∀ x ∈ ds, x ∈ o.declarations) : d.hiddenBy ds = false := by
  rw [Declaration.hiddenBy, List.any_eq_false]
  intro x hx
  rw [h.hides_eq_false (hds x hx) hd]
  simp

/-- The namesake among declarations of a plain outline. -/
theorem namesake?_eq_some (h : o.Plain) {ds : List Declaration}
    (hds : ∀ x ∈ ds, x ∈ o.declarations)
    (hmeets : ∀ x ∈ ds, d.meets x = true ↔ x.keys = d.keys) :
    d.namesake? ds = some d' ↔ d' ∈ ds ∧ d'.keys = d.keys := by
  constructor
  · intro hfind
    have hmem := List.mem_of_find?_eq_some hfind
    exact ⟨hmem, (hmeets d' hmem).1 (List.find?_some hfind)⟩
  · rintro ⟨hmem, hkeys⟩
    have hsome : (d.namesake? ds).isSome = true :=
      List.find?_isSome.2 ⟨d', hmem, (hmeets d' hmem).2 hkeys⟩
    obtain ⟨x, hx⟩ := Option.isSome_iff_exists.1 hsome
    have hxmem := List.mem_of_find?_eq_some hx
    have hxkeys := (hmeets x hxmem).1 (List.find?_some hx)
    rw [hx, h.eq_of_keys (hds x hxmem) (hds d' hmem) (hxkeys.trans hkeys.symm)]

end Plain

end Outline

/-! ## What plain outlines have in common -/

namespace PlainPair

variable {left right : Outline} {l r : Declaration}

theorem meets_iff_keys (h : PlainPair left right) (hl : l ∈ left.declarations)
    (hr : r ∈ right.declarations) : l.meets r = true ↔ l.keys = r.keys :=
  ⟨h.same l hl r hr, h.right.meets_of_keys hr⟩

theorem swap (h : PlainPair left right) : PlainPair right left where
  same r hr l hl hmeets := (h.same l hl r hr (by rwa [Declaration.meets_comm])).symm
  left := h.right
  right := h.left

/-- Declarations of one name are in scopes of the same names. -/
theorem enclosing_eq (h : PlainPair left right) (hl : l ∈ left.declarations)
    (hr : r ∈ right.declarations) (hkeys : l.keys = r.keys) : l.enclosing = r.enclosing := by
  obtain ⟨key, hkey⟩ := List.exists_mem_of_ne_nil _ (h.left.keys l hl)
  have hnl := h.left.nested hl
  have hnr := h.right.nested hr
  have hpath : l.path = r.path := by
    rw [← Kind.pathOf_key hnl.any_isMark (h.left.names l hl) hkey,
      ← Kind.pathOf_key hnr.any_isMark (h.right.names r hr) (hkeys ▸ hkey : key ∈ r.keys)]
  rw [hpath] at hnl
  exact hnl.unique hnr

/-- What has a namesake in the other outline is not hidden by that outline. -/
theorem hiddenBy_eq_false (h : PlainPair left right) (hl : l ∈ left.declarations)
    (hr : r ∈ right.declarations) (hkeys : l.keys = r.keys) {ds : List Declaration}
    (hds : ∀ x ∈ ds, x ∈ right.declarations) : l.hiddenBy ds = false := by
  rw [Declaration.hiddenBy, h.enclosing_eq hl hr hkeys]
  exact h.right.hiddenBy_eq_false hr hds

/-- Among declarations of the first outline, the namesake of one of the second has all its names. -/
theorem namesake?_left (h : PlainPair left right) (hr : r ∈ right.declarations) :
    r.namesake? left.declarations = some l ↔ l ∈ left.declarations ∧ l.keys = r.keys :=
  h.left.namesake?_eq_some (fun _ hx => hx) fun x hx => by
    rw [Declaration.meets_comm, h.meets_iff_keys hx hr]

theorem namesake?_left_eq_none (h : PlainPair left right) (hr : r ∈ right.declarations) :
    r.namesake? left.declarations = none ↔ ∀ l ∈ left.declarations, l.keys ≠ r.keys := by
  rw [Option.eq_none_iff_forall_ne_some]
  refine forall_congr' fun l => ?_
  rw [ne_eq, h.namesake?_left hr, not_and]

/-- A declaration of the second outline clashes with its namesake or with none. -/
theorem clashesWith_eq (h : PlainPair left right) (hr : r ∈ right.declarations) :
    r.clashesWith left.declarations =
      (r.namesake? left.declarations).any fun l => !l.kind.agrees r.kind := by
  rw [Bool.eq_iff_iff, Declaration.clashesWith, List.any_eq_true, Option.any_eq_true]
  refine exists_congr fun l => ?_
  rw [h.namesake?_left hr, Bool.and_eq_true, and_assoc]
  exact and_congr_right fun hl => by rw [h.meets_iff_keys hl hr]

/-- Among declarations of the second outline, the namesake of one of the first has all its names. -/
theorem namesake?_right (h : PlainPair left right) (hl : l ∈ left.declarations)
    {done : List Declaration} (hdone : ∀ x ∈ done, x ∈ right.declarations) :
    l.namesake? done = some r ↔ r ∈ done ∧ r.keys = l.keys :=
  h.right.namesake?_eq_some hdone fun x hx => by
    rw [h.meets_iff_keys hl (hdone x hx), eq_comm]

end PlainPair

/-! ## Traces of a plain pair -/

/-- How two declarations of one name come together in a merge. -/
inductive Meeting where
  /-- They agree, and one stands for both. -/
  | fold
  /-- They are two headers for one body. -/
  | headers
  /-- They are on two sides of a conflict. -/
  | sides
deriving DecidableEq

def Kind.meeting (k k' : Kind) : Meeting :=
  if k.agrees k' then .fold else if k.isScope && k'.isScope then .headers else .sides

theorem Kind.meeting_eq_fold {k k' : Kind} (h : k.agrees k' = true) : k.meeting k' = .fold :=
  if_pos h

theorem Kind.meeting_eq_headers {k k' : Kind} (h : k.agrees k' = false) (hk : k.isScope = true)
    (hk' : k'.isScope = true) : k.meeting k' = .headers := by
  simp [Kind.meeting, h, hk, hk']

theorem Kind.meeting_eq_sides {k k' : Kind} (h : k.agrees k' = false)
    (hk : k.isScope = false ∨ k'.isScope = false) : k.meeting k' = .sides := by
  rcases hk with hk | hk <;> simp [Kind.meeting, h, hk]

/-- Two scopes are not put on two sides. -/
theorem Kind.isScope_of_sides {k k' : Kind} (h : k.meeting k' = .sides) :
    k.isScope = false ∨ k'.isScope = false := by
  unfold Kind.meeting at h
  cases hk : k.isScope with
  | false => exact .inl rfl
  | true =>
    cases hk' : k'.isScope with
    | false => exact .inr rfl
    | true =>
      rw [hk, hk'] at h
      split at h <;> cases h

theorem Kind.agrees_of_fold {k k' : Kind} (h : k.meeting k' = .fold) : k.agrees k' = true := by
  unfold Kind.meeting at h
  split at h
  · assumption
  · split at h <;> cases h

theorem Kind.agrees_eq_false {k k' : Kind} (h : k.meeting k' ≠ .fold) : k.agrees k' = false :=
  Bool.eq_false_iff.2 fun hagree => h (Kind.meeting_eq_fold hagree)

theorem Kind.isScope_of_headers {k k' : Kind} (h : k.meeting k' = .headers) :
    k.isScope = true ∧ k'.isScope = true := by
  unfold Kind.meeting at h
  split at h
  · cases h
  · split at h
    · next hboth => simpa using hboth
    · cases h

/-- The trace of a declaration of the first outline when `done` was visited. -/
def leftTrace (done : List Declaration) (l : Declaration) : Trace :=
  let alone : Trace := ⟨l.keys, l.kind, l.enclosing, .member, true, !l.hiddenBy done⟩
  match l.namesake? done with
  | none => alone
  | some r =>
    match l.kind.meeting r.kind with
    | .fold => { alone with kind := l.kind.fold r.kind }
    | .headers => { alone with slot := .header .left }
    | .sides => { alone with openRight := false }

/-- The trace of a declaration of the second outline, beside `ls` from the first. -/
def rightTrace? (ls : List Declaration) (r : Declaration) : Option Trace :=
  let alone : Trace := ⟨r.keys, r.kind, r.enclosing, .member, !r.hiddenBy ls, true⟩
  match r.namesake? ls with
  | none => some alone
  | some l =>
    match l.kind.meeting r.kind with
    | .fold => none
    | .headers => some { alone with slot := .header .right }
    | .sides => some { alone with openLeft := false }

/-- The traces of declarations `ls` when `done` was merged into them. -/
def tracesAfter (ls done : List Declaration) : List Trace :=
  ls.map (leftTrace done) ++ done.filterMap (rightTrace? ls)

namespace Trace

/-- What becomes of the trace of the namesake of `r` when `r` is merged. -/
def meet (r : Declaration) (x : Trace) : Trace :=
  match x.kind.meeting r.kind with
  | .fold => { x with kind := x.kind.fold r.kind }
  | .headers => { x with slot := .header .left }
  | .sides => x.restrict true false

/-- What becomes of a trace when `r` is merged. -/
def after (r : Declaration) (x : Trace) : Trace :=
  if x.keys = r.keys then x.meet r else if r.hides x.enclosing then x.restrict true false else x

variable {r : Declaration} {x : Trace}

theorem after_of_keys (h : x.keys = r.keys) : x.after r = x.meet r := if_pos h

theorem after_of_hides (h : x.keys ≠ r.keys) (hh : r.hides x.enclosing = true) :
    x.after r = x.restrict true false := by
  rw [after, if_neg h, if_pos hh]

theorem after_eq_self (h : x.keys ≠ r.keys) (hh : r.hides x.enclosing = false) :
    x.after r = x := by
  rw [after, if_neg h, hh]
  rfl

end Trace

theorem keys_leftTrace (done : List Declaration) (l : Declaration) :
    (leftTrace done l).keys = l.keys := by
  unfold leftTrace
  split
  · rfl
  · split <;> rfl

theorem enclosing_leftTrace (done : List Declaration) (l : Declaration) :
    (leftTrace done l).enclosing = l.enclosing := by
  unfold leftTrace
  split
  · rfl
  · split <;> rfl

theorem keys_of_rightTrace? {ls : List Declaration} {r : Declaration} {x : Trace}
    (h : rightTrace? ls r = some x) : x.keys = r.keys ∧ x.enclosing = r.enclosing := by
  unfold rightTrace? at h
  split at h
  · rw [← Option.some.inj h]
    exact ⟨rfl, rfl⟩
  · split at h
    · cases h
    · rw [← Option.some.inj h]
      exact ⟨rfl, rfl⟩
    · rw [← Option.some.inj h]
      exact ⟨rfl, rfl⟩

namespace PlainPair

variable {left right : Outline} {l r : Declaration} {done later : List Declaration}

section Visiting

variable (h : PlainPair left right) (hall : right.declarations = done ++ r :: later)

include hall in
theorem mem_of_next : r ∈ right.declarations ∧ ∀ x ∈ done, x ∈ right.declarations := by
  rw [hall]
  exact ⟨by simp, fun x hx => by simp [hx]⟩

include h hall in
/-- A declaration does not share a name with those before it. -/
theorem not_meets_of_done {x : Declaration} (hx : x ∈ done) : x.meets r = false := by
  have hdistinct := h.right.distinct
  rw [hall, List.pairwise_append] at hdistinct
  exact hdistinct.2.2 x hx r (by simp)

include h hall in
theorem keys_ne_of_done {x : Declaration} (hx : x ∈ done) : x.keys ≠ r.keys := by
  intro hkeys
  have hmeets := h.right.meets_of_keys (mem_of_next hall).1 hkeys
  rw [h.not_meets_of_done hall hx] at hmeets
  cases hmeets

include h hall in
/-- What is merged next finds a declaration of the same name as the first outline has it. -/
theorem leftTrace_of_next (hl : l ∈ left.declarations) (hkeys : l.keys = r.keys) :
    leftTrace done l = l.trace := by
  obtain ⟨hr, hdone⟩ := mem_of_next hall
  have hnone : l.namesake? done = none := by
    rw [Option.eq_none_iff_forall_ne_some]
    intro x hx
    obtain ⟨hmem, hxkeys⟩ := (h.namesake?_right hl hdone).1 hx
    exact h.keys_ne_of_done hall hmem (hxkeys.trans hkeys)
  have hhidden : l.hiddenBy done = false := h.hiddenBy_eq_false hl hr hkeys hdone
  simp only [leftTrace, hnone, hhidden, Bool.not_false, Declaration.trace]

include h hall in
/-- What one more declaration does to the trace of one of the first outline. -/
theorem leftTrace_append (hl : l ∈ left.declarations) :
    leftTrace (done ++ [r]) l = (leftTrace done l).after r := by
  obtain ⟨hr, hdone⟩ := mem_of_next hall
  have hhidden : l.hiddenBy (done ++ [r]) = (l.hiddenBy done || r.hides l.enclosing) := by
    simp [Declaration.hiddenBy]
  by_cases hkeys : l.keys = r.keys
  · have hnext : ∀ x ∈ done ++ [r], x ∈ right.declarations := by
      intro x hx
      rcases List.mem_append.1 hx with hx | hx
      · exact hdone x hx
      · exact List.mem_singleton.1 hx ▸ hr
    have hnamesake : l.namesake? (done ++ [r]) = some r :=
      (h.namesake?_right hl hnext).2 ⟨by simp, hkeys.symm⟩
    have hnot : l.hiddenBy (done ++ [r]) = false := h.hiddenBy_eq_false hl hr hkeys hnext
    rw [h.leftTrace_of_next hall hl hkeys, Trace.after_of_keys hkeys]
    simp only [leftTrace, hnamesake, hnot, Declaration.trace, Trace.meet]
    cases l.kind.meeting r.kind <;> rfl
  · have hnamesake : l.namesake? (done ++ [r]) = l.namesake? done := by
      have hmeets : l.meets r = false := by
        rw [Bool.eq_false_iff, ne_eq, h.meets_iff_keys hl hr]
        exact hkeys
      simp [Declaration.namesake?, List.find?_append, hmeets]
    have hne : (leftTrace done l).keys ≠ r.keys := by rwa [keys_leftTrace]
    have henclosing := enclosing_leftTrace done l
    cases hh : r.hides l.enclosing with
    | false =>
      rw [Trace.after_eq_self hne (henclosing ▸ hh)]
      simp [leftTrace, hnamesake, hhidden, hh]
    | true =>
      rw [Trace.after_of_hides hne (henclosing ▸ hh)]
      simp only [leftTrace, hnamesake, hhidden, hh]
      cases l.namesake? done with
      | none => simp [Trace.restrict]
      | some x => cases hm : l.kind.meeting x.kind <;> simp [Trace.restrict, hm]

include h hall in
/-- One more declaration does nothing to the traces of those before it. -/
theorem rightTrace?_after {x : Declaration} (hx : x ∈ done) :
    (rightTrace? left.declarations x).map (Trace.after r) = rightTrace? left.declarations x := by
  obtain ⟨hr, hdone⟩ := mem_of_next hall
  cases htrace : rightTrace? left.declarations x with
  | none => rfl
  | some y =>
    obtain ⟨hkeys, henclosing⟩ := keys_of_rightTrace? htrace
    have hne : y.keys ≠ r.keys := hkeys ▸ h.keys_ne_of_done hall hx
    rw [Option.map_some, Trace.after_eq_self hne]
    rw [henclosing]
    exact h.right.hides_eq_false hr (hdone x hx)

include h hall in
/-- What one more declaration does to all traces. -/
theorem tracesAfter_append :
    tracesAfter left.declarations (done ++ [r]) =
      (tracesAfter left.declarations done).map (Trace.after r) ++
        (rightTrace? left.declarations r).toList := by
  have hleft : left.declarations.map (leftTrace (done ++ [r])) =
      (left.declarations.map (leftTrace done)).map (Trace.after r) := by
    rw [List.map_map]
    exact List.map_congr_left fun l hl => h.leftTrace_append hall hl
  have hright : (done.filterMap (rightTrace? left.declarations)).map (Trace.after r) =
      done.filterMap (rightTrace? left.declarations) := by
    rw [List.map_filterMap]
    exact List.filterMap_congr fun x hx => h.rightTrace?_after hall hx
  rw [tracesAfter, tracesAfter, hleft, List.map_append, hright, List.filterMap_append,
    filterMap_cons_toList, List.filterMap_nil, List.append_nil, List.append_assoc]

include h hall in
/-- Whatever has a name of the next declaration is a declaration of the first outline, as that
outline has it. -/
theorem eq_of_mem_tracesAfter {x : Trace} (hx : x ∈ tracesAfter left.declarations done)
    {key : String} (hkey : key ∈ x.keys) (hkeyr : key ∈ r.keys) :
    ∃ l ∈ left.declarations, l.keys = r.keys ∧ x = l.trace := by
  obtain ⟨hr, hdone⟩ := mem_of_next hall
  rcases List.mem_append.1 hx with hx | hx
  · obtain ⟨l, hl, rfl⟩ := List.mem_map.1 hx
    rw [keys_leftTrace] at hkey
    have hkeys := h.same l hl r hr (Declaration.meets_iff.2 ⟨key, hkey, hkeyr⟩)
    exact ⟨l, hl, hkeys, h.leftTrace_of_next hall hl hkeys⟩
  · obtain ⟨y, hy, htrace⟩ := List.mem_filterMap.1 hx
    rw [(keys_of_rightTrace? htrace).1] at hkey
    have hmeets := Declaration.meets_iff.2 ⟨key, hkey, hkeyr⟩
    rw [h.not_meets_of_done hall hy] at hmeets
    cases hmeets

include h hall in
/-- There is one such trace for each declaration. -/
theorem filter_tracesAfter (hl : l ∈ left.declarations) (hkeys : l.keys = r.keys) :
    (tracesAfter left.declarations done).filter (fun x => x.keys = r.keys) = [l.trace] := by
  obtain ⟨before, after, hsplit⟩ := List.append_of_mem hl
  have hne : ∀ {x : Declaration}, x.meets l = false → x.keys ≠ r.keys := by
    intro x hx heq
    rw [h.left.meets_of_keys hl (heq.trans hkeys.symm)] at hx
    cases hx
  have hdistinct := h.left.distinct
  rw [hsplit, List.pairwise_append, List.pairwise_cons] at hdistinct
  obtain ⟨-, ⟨hafter, -⟩, hbefore⟩ := hdistinct
  have hothers : ∀ xs : List Declaration, (∀ x ∈ xs, x.meets l = false) →
      (xs.map (leftTrace done)).filter (fun x => x.keys = r.keys) = [] := by
    intro xs hxs
    rw [List.filter_eq_nil_iff]
    intro x hx
    obtain ⟨y, hy, rfl⟩ := List.mem_map.1 hx
    rw [keys_leftTrace, decide_eq_true_eq]
    exact hne (hxs y hy)
  have hright : (done.filterMap (rightTrace? left.declarations)).filter
      (fun x => x.keys = r.keys) = [] := by
    rw [List.filter_eq_nil_iff]
    intro x hx
    obtain ⟨y, hy, htrace⟩ := List.mem_filterMap.1 hx
    rw [(keys_of_rightTrace? htrace).1, decide_eq_true_eq]
    exact h.keys_ne_of_done hall hy
  rw [tracesAfter, List.filter_append, hright, List.append_nil, hsplit, List.map_append,
    List.map_cons, List.filter_append, List.filter_cons_of_pos (by simp [keys_leftTrace, hkeys]),
    hothers before fun x hx => hbefore x hx l (by simp),
    hothers after fun x hx => by rw [Declaration.meets_comm]; exact hafter x hx,
    h.leftTrace_of_next hall hl hkeys]
  rfl

end Visiting

/-! ## Scopes that are open -/

section Opened

variable (h : PlainPair left right) {x : Trace} {d : Declaration}
  (hdone : ∀ y ∈ done, y ∈ right.declarations) (hd : d ∈ done) (hscope : d.kind.isScope = true)

include h hdone hd hscope

/-- A scope of the first outline whose namesake was visited is open to both sides, and no leaf of
that outline has one of its names or of those around it. -/
theorem opened_leftTrace (hl : l ∈ left.declarations) (hkeys : l.keys = d.keys)
    (hkind : (leftTrace done l).kind.isScope = true) :
    (∀ side, (leftTrace done l).slot ≠ .side side) ∧ (leftTrace done l).openRight = true ∧
      (leftTrace done l).openLeft = true ∧
      (left.declarations.any fun y => y.hides (d.keys ++ d.enclosing)) = false := by
  have hdr := hdone d hd
  have hnamesake := (h.namesake?_right hl hdone).2 ⟨hd, hkeys.symm⟩
  have hhidden := h.hiddenBy_eq_false hl hdr hkeys hdone
  have hnone : l.kind.isScope = true →
      (left.declarations.any fun y => y.hides (d.keys ++ d.enclosing)) = false := by
    intro hls
    rw [List.any_eq_false, ← hkeys, ← h.enclosing_eq hl hdr hkeys]
    intro y hy hhides
    obtain ⟨hleaf, key, hkey, hmem⟩ := Declaration.hides_iff.1 hhides
    rcases List.mem_append.1 hmem with hmem | hmem
    · obtain rfl := h.left.eq_of_meets hy hl (Declaration.meets_iff.2 ⟨key, hkey, hmem⟩)
      rw [Kind.isContainer_of_scope hls] at hleaf
      cases hleaf
    · have hfalse := h.left.hides_eq_false hy hl
      rw [Declaration.hides_iff.2 ⟨hleaf, key, hkey, hmem⟩] at hfalse
      cases hfalse
  cases hmeeting : l.kind.meeting d.kind with
  | fold =>
    have htrace : leftTrace done l =
        ⟨l.keys, l.kind.fold d.kind, l.enclosing, .member, true, true⟩ := by
      simp only [leftTrace, hnamesake, hmeeting, hhidden, Bool.not_false]
    rw [htrace] at hkind ⊢
    have hgrows := Kind.growsTo_fold (Kind.agrees_of_fold hmeeting)
    exact ⟨by simp, rfl, rfl, hnone (hgrows.isScope_eq.symm.trans hkind)⟩
  | headers =>
    have htrace : leftTrace done l =
        ⟨l.keys, l.kind, l.enclosing, .header .left, true, true⟩ := by
      simp only [leftTrace, hnamesake, hmeeting, hhidden, Bool.not_false]
    rw [htrace]
    exact ⟨by simp, rfl, rfl, hnone (Kind.isScope_of_headers hmeeting).1⟩
  | sides =>
    have htrace : (leftTrace done l).kind = l.kind := by
      simp only [leftTrace, hnamesake, hmeeting]
    rw [htrace] at hkind
    rcases Kind.isScope_of_sides hmeeting with hls | hds
    · rw [hls] at hkind
      cases hkind
    · rw [hds] at hscope
      cases hscope

omit hscope in
/-- A leaf that hides a declaration without a namesake does so by the scopes around it. -/
theorem hiddenBy_of_new (hnamesake : d.namesake? left.declarations = none) :
    d.hiddenBy left.declarations =
      left.declarations.any fun l => l.hides (d.keys ++ d.enclosing) := by
  have hdr := hdone d hd
  have hshare := (h.namesake?_left_eq_none hdr).1 hnamesake
  have hhides : ∀ l ∈ left.declarations,
      l.hides d.enclosing = l.hides (d.keys ++ d.enclosing) := by
    intro l hl
    rw [Bool.eq_iff_iff, Declaration.hides_iff, Declaration.hides_iff]
    refine and_congr_right fun _ => exists_congr fun key => and_congr_right fun hkey => ?_
    have hnot : key ∉ d.keys := fun hkey' =>
      hshare l hl ((h.meets_iff_keys hl hdr).1 (Declaration.meets_iff.2 ⟨key, hkey, hkey'⟩))
    rw [List.mem_append, or_iff_right hnot]
  rw [Bool.eq_iff_iff, Declaration.hiddenBy, List.any_eq_true, List.any_eq_true]
  exact exists_congr fun l => and_congr_right fun hl => by rw [hhides l hl]

/-- A scope of the second outline that stands by itself is open to the right, and to the left unless
a leaf of the first outline has one of its names or of those around it. -/
theorem opened_rightTrace? (hx : rightTrace? left.declarations d = some x)
    (hslot : x.slot ≠ .header .right) :
    (∀ side, x.slot ≠ .side side) ∧ x.openRight = true ∧
      x.openLeft = !left.declarations.any fun l => l.hides (d.keys ++ d.enclosing) := by
  have hdr := hdone d hd
  cases hnamesake : d.namesake? left.declarations with
  | none =>
    simp only [rightTrace?, hnamesake, Option.some.injEq] at hx
    subst hx
    exact ⟨by simp, rfl, by rw [h.hiddenBy_of_new hdone hd hnamesake]⟩
  | some l =>
    obtain ⟨hl, hlkeys⟩ := (h.namesake?_left hdr).1 hnamesake
    cases hmeeting : l.kind.meeting d.kind with
    | fold => simp [rightTrace?, hnamesake, hmeeting] at hx
    | headers =>
      simp only [rightTrace?, hnamesake, hmeeting, Option.some.injEq] at hx
      subst hx
      exact absurd rfl hslot
    | sides =>
      simp only [rightTrace?, hnamesake, hmeeting, Option.some.injEq] at hx
      subst hx
      -- The namesake is a leaf and has the name of the scope.
      have hleaf : l.kind.isContainer = false := by
        have hls := (Kind.isScope_of_sides hmeeting).resolve_right (by simp [hscope])
        have hdecl := Outline.isDeclaration_declarationsOf _ l hl
        simpa [Kind.isDeclaration, hls] using hdecl
      obtain ⟨key, hkey⟩ := List.exists_mem_of_ne_nil _ (h.left.keys l hl)
      have hhides : l.hides (d.keys ++ d.enclosing) = true :=
        Declaration.hides_iff.2 ⟨hleaf, key, hkey, List.mem_append_left _ (hlkeys ▸ hkey)⟩
      have hany : (left.declarations.any fun l => l.hides (d.keys ++ d.enclosing)) = true :=
        List.any_eq_true.2 ⟨l, hl, hhides⟩
      exact ⟨by simp, rfl, by rw [hany]; rfl⟩

/-- A scope that was visited is there with the name of the scopes around it, open to the right, and
open to the left unless a leaf of the first outline has one of the names. -/
theorem opened_of_mem_tracesAfter (hx : x ∈ tracesAfter left.declarations done)
    (hkeys : x.keys = d.keys) (hkind : x.kind.isScope = true) (hslot : x.slot ≠ .header .right) :
    x.enclosing = d.enclosing ∧ (∀ side, x.slot ≠ .side side) ∧ x.openRight = true ∧
      x.openLeft = !left.declarations.any fun l => l.hides (d.keys ++ d.enclosing) := by
  have hdr := hdone d hd
  rcases List.mem_append.1 hx with hx | hx
  · obtain ⟨l, hl, rfl⟩ := List.mem_map.1 hx
    rw [keys_leftTrace] at hkeys
    obtain ⟨hside, hright, hleft, hnone⟩ := h.opened_leftTrace hdone hd hscope hl hkeys hkind
    rw [hnone, enclosing_leftTrace]
    exact ⟨h.enclosing_eq hl hdr hkeys, hside, hright, hleft⟩
  · obtain ⟨y, hy, htrace⟩ := List.mem_filterMap.1 hx
    obtain ⟨hykeys, henclosing⟩ := keys_of_rightTrace? htrace
    obtain rfl : y = d := h.right.eq_of_keys (hdone y hy) hdr (hykeys.symm.trans hkeys)
    exact ⟨henclosing, h.opened_rightTrace? hdone hd hscope htrace hslot⟩

end Opened

end PlainPair

end StubMerge
