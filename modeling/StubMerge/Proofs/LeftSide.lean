import StubMerge.Proofs.Coalescing
import StubMerge.Proofs.Growth

/-!
# The left side of conflicts

What a merge found there before it always comes to stand on the left. This module says what is
left of a tree when its conflicts are resolved to the left: its places without those on the right
and without conflicts and their sides, in the same order (`places_settled_left`). A node that was
kept while a tree grew is among them, and below the same nodes as before the tree grew.
-/

namespace StubMerge

/-- Whether a slot is on the right of a conflict. -/
def Slot.isRight : Slot → Bool
  | side .right | header .right => true
  | _ => false

namespace Place

/-- Whether a place is on the right of no conflict. -/
def onLeft (p : Place) : Bool := !p.slot.isRight && p.above.all fun st => !st.slot.isRight

/-- A node with its entry and the numbers above it. -/
def view (p : Place) : NodeId × Entry × List NodeId := (p.id, p.entry, p.above.map Step.id)

/-- What is left of a place when conflicts are resolved to the left. -/
def left? (p : Place) : Option (NodeId × Entry × List NodeId) :=
  if p.onLeft && !p.step.isWrapper then
    some (p.id, p.entry, (p.above.filter fun st => !st.isWrapper).map Step.id)
  else none

theorem Moved.onLeft_eq {p q : Place} (h : p.Moved q) : q.onLeft = p.onLeft := by
  have hslots : q.above.map Step.slot = p.above.map Step.slot := by
    simpa [Step.frame, Function.comp_def] using congrArg (List.map Prod.snd) h.above
  have hall : ∀ a : List Step, (a.all fun st => !st.slot.isRight) =
      (a.map Step.slot).all fun slot => !slot.isRight := by simp [Function.comp_def]
  rw [onLeft, onLeft, h.slot_eq, hall, hall, hslots]

theorem left?_eq_none {p : Place} (h : p.step.isWrapper = true) : p.left? = none := by
  simp [left?, h]

theorem left?_eq_some {i : NodeId} {e : Entry} {slot : Slot} {a : List Step}
    (hslot : slot.isRight = false) (ha : ∀ st ∈ a, st.slot.isRight = false)
    (h : Step.isWrapper ⟨i, e.kind, slot⟩ = false) :
    left? ⟨i, e, slot, a⟩ = some (i, e, (a.filter fun st => !st.isWrapper).map Step.id) := by
  have hon : onLeft ⟨i, e, slot, a⟩ = true := by simpa [onLeft, hslot] using ha
  have hstep : Step.isWrapper (step ⟨i, e, slot, a⟩) = false := h
  rw [left?, hon, hstep]
  rfl

end Place

namespace Tree

/-- Nothing is left of what is on the right. -/
theorem left?_of_right (t : Tree) {slot : Slot} {a : List Step}
    (h : slot.isRight = true ∨ ∃ st ∈ a, st.slot.isRight = true) :
    (t.placesAt slot a).filterMap Place.left? = [] := by
  have hall : ∀ (t : Tree) {slot : Slot} {a : List Step},
      (slot.isRight = true ∨ ∃ st ∈ a, st.slot.isRight = true) →
      ∀ p ∈ t.placesAt slot a, p.onLeft = false := by
    intro t
    induction t using induct with
    | step i e cs ih =>
      intro slot a h p hp
      rw [placesAt] at hp
      rcases List.mem_cons.1 hp with rfl | hp
      · rcases h with h | ⟨st, hst, h⟩
        · simp [Place.onLeft, h]
        · simp only [Place.onLeft, Bool.and_eq_false_iff, List.all_eq_false]
          exact .inr ⟨st, hst, by simp [h]⟩
      · have hcs : ∀ ds, (∀ d ∈ ds, d ∈ cs) → ∀ first,
            p ∈ placesAll e.kind first (⟨i, e.kind, slot⟩ :: a) ds → p.onLeft = false := by
          intro ds
          induction ds with
          | nil => simp [placesAll]
          | cons d ds ihd =>
            intro hd first hp
            rw [placesAll] at hp
            rcases List.mem_append.1 hp with hp | hp
            · refine ih d (hd d (by simp)) (.inr ?_) p hp
              rcases h with h | ⟨st, hst, h⟩
              · exact ⟨_, List.mem_cons_self, h⟩
              · exact ⟨st, List.mem_cons_of_mem _ hst, h⟩
            · exact ihd (fun x hx => hd x (by simp [hx])) false hp
        exact hcs cs (fun _ hc => hc) true hp
  rw [List.filterMap_eq_nil_iff]
  intro p hp
  simp [Place.left?, hall t h p hp]

/-- The places that resolving leaves of a tree which stands below `a` are those of what it leaves,
put below `a'`: a list without the wrappers of `a`. -/
structure LeavesLeft (t : Tree) : Prop where
  whole : ∀ {a a' : List Step} {k : Kind} {first : Bool}, k.isConflict = false →
    (∀ st ∈ a, st.slot.isRight = false) →
    a'.map Step.id = (a.filter fun st => !st.isWrapper).map Step.id →
    (placesAll k first a' (t.settled .left)).map Place.view =
      (t.placesAt .member a).filterMap Place.left?
  body : ∀ {a a' : List Step} {k k' : Kind} {first first' : Bool}, k.isConflict = false →
    k'.isConflict = false → (∀ st ∈ a, st.slot.isRight = false) →
    a'.map Step.id = (a.filter fun st => !st.isWrapper).map Step.id →
    (placesAll k first a' (settledAll .left t.children)).map Place.view =
      (placesAll k' first' a t.children).filterMap Place.left?

/-- What is left of a list of trees is what is left of each. -/
theorem leavesLeft_all {cs : List Tree} (h : ∀ c ∈ cs, c.LeavesLeft) {a a' : List Step}
    {k k' : Kind} {first first' : Bool} (hk : k.isConflict = false) (hk' : k'.isConflict = false)
    (ha : ∀ st ∈ a, st.slot.isRight = false)
    (ha' : a'.map Step.id = (a.filter fun st => !st.isWrapper).map Step.id) :
    (placesAll k first a' (settledAll .left cs)).map Place.view =
      (placesAll k' first' a cs).filterMap Place.left? := by
  induction cs generalizing first first' with
  | nil => rfl
  | cons c cs ih =>
    rw [settledAll, placesAll_append, placesAll, List.map_append, List.filterMap_append,
      Kind.slot_eq_member hk', (h c (by simp)).whole hk ha ha',
      ih fun d hd => h d (by simp [hd])]

section Conflicts

variable {i l r : NodeId} {e dl dr : Entry} {ls rs : List Tree} {lb : Labels} {a : List Step}

/-- Of a conflict only what is in its left side is left. -/
theorem left?_conflict (hkind : e.kind = .conflict lb) (hl : dl.kind = .group)
    (hr : dr.kind = .group) :
    ((node i e [node l dl ls, node r dr rs]).placesAt .member a).filterMap Place.left? =
      (placesAll .group true (⟨l, .group, .side .left⟩ :: ⟨i, .conflict lb, .member⟩ :: a)
        ls).filterMap Place.left? := by
  have hright : ((node r dr rs).placesAt (.side .right) (⟨i, .conflict lb, .member⟩ ::
      a)).filterMap Place.left? = [] := left?_of_right _ (.inl rfl)
  have hconflict : Place.left? ⟨i, e, .member, a⟩ = none :=
    Place.left?_eq_none (by simp [Place.step, Place.kind, hkind, Step.isWrapper, Kind.isConflict])
  have hside : Place.left? ⟨l, dl, .side .left, ⟨i, .conflict lb, .member⟩ :: a⟩ = none :=
    Place.left?_eq_none (by simp [Place.step, Step.isWrapper])
  rw [placesAt, hr] at hright
  rw [placesAt_conflict hkind hl hr, List.filterMap_cons, hconflict, List.filterMap_cons, hside,
    List.filterMap_append, hright, List.append_nil]

/-- Of a conflict between headers the left one is left, and what is in it. -/
theorem left?_headers (hkind : e.kind = .scopeConflict lb) (hl : dl.kind.isConflict = false)
    (ha : ∀ st ∈ a, st.slot.isRight = false) :
    ((node i e [node l dl ls, node r dr rs]).placesAt .member a).filterMap Place.left? =
      (l, dl, (a.filter fun st => !st.isWrapper).map Step.id) ::
      (placesAll dl.kind true (⟨l, dl.kind, .header .left⟩ :: ⟨i, .scopeConflict lb, .member⟩ :: a)
        ls).filterMap Place.left? := by
  have hright : ((node r dr rs).placesAt (.header .right) (⟨i, .scopeConflict lb, .member⟩ ::
      a)).filterMap Place.left? = [] := left?_of_right _ (.inl rfl)
  have hconflict : Place.left? ⟨i, e, .member, a⟩ = none :=
    Place.left?_eq_none (by simp [Place.step, Place.kind, hkind, Step.isWrapper, Kind.isConflict])
  have hheader : Place.left? ⟨l, dl, .header .left, ⟨i, .scopeConflict lb, .member⟩ :: a⟩ =
      some (l, dl, (a.filter fun st => !st.isWrapper).map Step.id) := by
    refine Place.left?_eq_some rfl (fun st hst => ?_) (by simp [Step.isWrapper, hl])
    rcases List.mem_cons.1 hst with rfl | hst
    · rfl
    · exact ha st hst
  rw [placesAt] at hright
  rw [placesAt_headers hkind, List.filterMap_cons, hconflict, List.filterMap_cons, hheader,
    List.filterMap_append, hright, List.append_nil]

end Conflicts

theorem Paired.leavesLeft {t : Tree} (h : t.Paired) : t.LeavesLeft := by
  induction h with
  | @node i e cs hat _ ih =>
    refine ⟨fun {a a' k first} hk ha ha' => ?_, fun hk hk' => leavesLeft_all ih hk hk'⟩
    have hstay : ∀ {b : List Step}, (∀ x ∈ b, x.slot.isRight = false) → ∀ st : Step,
        st.slot.isRight = false → ∀ x ∈ st :: b, x.slot.isRight = false := by
      intro b hb st hst x hx
      rcases List.mem_cons.1 hx with rfl | hx
      · exact hst
      · exact hb x hx
    cases hkind : e.kind with
    | group | scope _ | leaf _ =>
      have hnot : e.kind.isConflict = false := by rw [hkind]; rfl
      have hwrap : Step.isWrapper ⟨i, e.kind, .member⟩ = false := by simp [Step.isWrapper, hnot]
      have hleft : Place.left? ⟨i, e, .member, a⟩ = some (i, e, a'.map Step.id) := by
        rw [Place.left?_eq_some rfl ha hwrap, ha']
      rw [settled_of_not_conflict hnot, placesAll, Kind.slot_eq_member hk, placesAll,
        List.append_nil, placesAt, placesAt, List.map_cons, List.filterMap_cons, hleft]
      rw [leavesLeft_all ih hnot hnot (hstay ha ⟨i, e.kind, .member⟩ rfl) (by simp [hwrap, ha'])]
      rfl
    | conflict lb =>
      rw [hkind] at hat
      obtain ⟨⟨l, dl, ls⟩, ⟨r, dr, rs⟩, rfl, hl, hr⟩ := hat
      have hl' : dl.kind = .group := hl
      have hr' : dr.kind = .group := hr
      rw [settled_conflict hkind, left?_conflict hkind hl' hr']
      exact (ih (node l dl ls) (by simp)).body hk rfl
        (hstay (hstay ha ⟨i, .conflict lb, .member⟩ rfl) ⟨l, .group, .side .left⟩ rfl) ha'
    | scopeConflict lb =>
      rw [hkind] at hat
      obtain ⟨⟨l, dl, ls⟩, ⟨r, dr, rs⟩, rfl, hl, hr⟩ := hat
      have hscope : dl.kind.isScope = true := hl
      have hscope' : dr.kind.isScope = true := hr
      have hnot : dl.kind.isConflict = false := Kind.isConflict_of_scope hscope
      have hheader : Step.isWrapper ⟨l, dl.kind, .header .left⟩ = false := by
        simp [Step.isWrapper, hnot]
      have hconflict : Step.isWrapper ⟨i, .scopeConflict lb, .member⟩ = true := rfl
      rw [settled_headers hkind hscope hscope', left?_headers hkind hnot ha, ← ha', keptHeader,
        Side.pick, settled_of_not_conflict hnot, placesAll, placesAll, List.append_nil,
        Kind.slot_eq_member hk, placesAt, List.map_cons]
      refine congrArg₂ _ rfl ((ih (node l dl ls) (by simp)).body hnot hnot
        (hstay (hstay ha ⟨i, .scopeConflict lb, .member⟩ rfl) ⟨l, dl.kind, .header .left⟩ rfl) ?_)
      rw [List.map_cons, ha', List.filter_cons_of_pos (by simp [hheader]),
        List.filter_cons_of_neg (by simp [hconflict])]
      rfl

/-- What resolving to the left leaves of a whole tree. -/
theorem places_settled_left {i : NodeId} {e : Entry} {cs : List Tree}
    (h : (node i e cs).Paired) (he : e.kind.isConflict = false) :
    (node i e (settledAll .left cs)).places.map Place.view =
      (node i e cs).places.filterMap Place.left? := by
  have hwhole : (placesAll e.kind true [] ((node i e cs).settled .left)).map Place.view =
      ((node i e cs).placesAt .member []).filterMap Place.left? :=
    h.leavesLeft.whole he (by simp) rfl
  rw [settled_of_not_conflict he, placesAll, placesAll, List.append_nil,
    Kind.slot_eq_member he] at hwhole
  exact hwhole

end Tree

end StubMerge
