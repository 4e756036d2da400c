import StubMerge.Proofs.Visiting

/-!
# Passes

A pass takes in an outline. The first one copies it; each later one goes through its declarations
in order, and what it does with each is one of the cases of `AddsLeaf` and `OpensScope`. So a
property of all merges is proved once per case: `Merger.Keeps` lists what has to be shown, and
`Keeps.add` draws the conclusion for a whole pass, that it comes to an end without an error
included. `exists_foldlM_keeps` draws it for any number of passes.

While a pass is under way it knows the scopes that are open, the declarations that were visited,
and those that are still to come. `Merger.visits` also has what the merge was like at each visit,
for properties that compare the moment of a visit with the end (`Merger.Follows`).
-/

namespace StubMerge

/-! ## Declarations -/

/-- A declaration of an outline. -/
structure Declaration where
  entry : Entry
  /-- The path of the scope that it is in. -/
  path : String
  /-- The qualified names of the scopes that it is in, the nearest first. -/
  enclosing : List String

namespace Declaration

/-- What is declared. -/
def kind (d : Declaration) : Kind := d.entry.kind

/-- The names that a declaration goes by. -/
def keys (d : Declaration) : List String := d.kind.keys d.path

end Declaration

namespace Outline

mutual
/-- The declarations of an outline in the scope `path`, scopes before what is in them. -/
def declarationsIn (path : String) (enclosing : List String) : Outline → List Declaration
  | node e cs =>
    match e.kind with
    | .scope _ => ⟨e, path, enclosing⟩ ::
        declarationsOf (e.kind.within path) (e.kind.within path :: enclosing) cs
    | .leaf _ => ⟨e, path, enclosing⟩ :: declarationsOf path enclosing cs
    | _ => declarationsOf path enclosing cs
/-- The declarations of outlines, one after the other. -/
def declarationsOf (path : String) (enclosing : List String) : List Outline → List Declaration
  | [] => []
  | c :: cs => c.declarationsIn path enclosing ++ declarationsOf path enclosing cs
end

mutual
/-- The groups of an outline in the scope `path`, outer ones first. -/
def groupsIn (path : String) (enclosing : List String) : Outline → List Declaration
  | node e cs =>
    match e.kind with
    | .scope _ => groupsOf (e.kind.within path) (e.kind.within path :: enclosing) cs
    | .group => ⟨e, path, enclosing⟩ :: groupsOf path enclosing cs
    | _ => groupsOf path enclosing cs
/-- The groups of outlines, one after the other. -/
def groupsOf (path : String) (enclosing : List String) : List Outline → List Declaration
  | [] => []
  | c :: cs => c.groupsIn path enclosing ++ groupsOf path enclosing cs
end

end Outline

/-- The declarations of an outline to be merged. -/
def Source.declarations (s : Source) : List Declaration :=
  Outline.declarationsOf s.path [] s.root.children

/-- The groups of an outline to be merged, the outline itself first. -/
def Source.groups (s : Source) : List Declaration :=
  ⟨s.root.entry, s.path, []⟩ :: Outline.groupsOf s.path [] s.root.children

namespace Merger

/-! ## What one declaration does -/

section

variable {m m' : Merger} {t t' : Tree} {scopes : List NodeId} {keys : List String} {d : Entry}
  {i : NodeId}

/-- Adding a leaf only adds. -/
theorem AddsLeaf.grown (h : AddsLeaf m scopes keys d t m' t') :
    ∃ N, Grown N t.places t'.places := by
  cases h with
  | new _ he _ _ => exact ⟨_, Tree.grown_append _ he⟩
  | fold _ _ hagree _ => exact ⟨_, Tree.grown_entry (Entry.growsTo_fold hagree) (.inr rfl)⟩
  | oppose _ _ _ _ _ hsets =>
    obtain ⟨W, i, a, hg, -⟩ := hsets.grown
    exact ⟨_, hg⟩

/-- Opening a scope only adds. -/
theorem OpensScope.grown (h : OpensScope m scopes keys d t m' t' i) :
    ∃ N, Grown N t.places t'.places := by
  cases h with
  | new _ he _ _ => exact ⟨_, Tree.grown_append _ he⟩
  | oppose _ _ _ _ _ hsets =>
    obtain ⟨W, i, a, hg, -⟩ := hsets.grown
    exact ⟨_, hg⟩
  | fold | foldOther => exact ⟨_, Tree.grown_entry (Entry.growsTo_addComments _ _) (.inl rfl)⟩
  | third => exact ⟨_, .refl _⟩
  | second _ hK he _ _ => exact ⟨_, Tree.grown_opposedHeaders hK he⟩

/-- The node that a body goes into is a scope that is listed. -/
theorem OpensScope.exists_opened (h : OpensScope m scopes keys d t m' t' i) (hm : m.Stands t)
    (hd : d.kind.isScope = true) :
    ∃ p ∈ t'.places, p.id = i ∧ p.kind.isScope = true ∧ p.listed = true := by
  obtain ⟨N, hg⟩ := h.grown
  obtain ⟨sc, hsc⟩ := Kind.exists_scope hd
  -- What was found was listed before, and it stays so.
  have hfound : ∀ {e : Entry} {cs : List Tree} {K : Frames},
      m.previous? scopes keys d.kind = some i → t = (Tree.node i e cs).under K →
      e.kind.isScope = true →
      ∃ p ∈ t'.places, p.id = i ∧ p.kind.isScope = true ∧ p.listed = true := by
    intro e cs K hprev ht he
    obtain ⟨p, hp, hid, hl⟩ := hm.exists_previous hprev
    obtain ⟨q, hq, hk⟩ := hg.exists_kept hp
    have hkind : p.kind = e.kind := by
      rw [← hm.shows.kind_of_mem hp, hid]
      have hshows := hm.shows
      rw [ht] at hshows
      exact hshows.kind_eq
    exact ⟨q, hq, hk.id_eq.trans hid, by rw [hk.kind.isScope_eq, hkind, he],
      hk.listed_eq.trans hl⟩
  cases h with
  | @new K e cs m' _ he _ _ =>
    have hg' : Grown _ ((Tree.node (currentScope scopes) e cs).under K).places _ :=
      Tree.grown_append (.node m.output.size d []) he
    refine ⟨⟨m.output.size, d, .member, ⟨currentScope scopes, e.kind, Frames.slot K⟩ ::
      Frames.steps K⟩, hg'.mem_of_new (by simp [Tree.placesAt]), rfl, hd, ?_⟩
    simp [Place.listed, Place.kind, hsc]
  | oppose _ _ _ _ _ hsets =>
    obtain ⟨W, i, a, hg', -⟩ := hsets.grown
    refine ⟨⟨m.output.size, d, .member, ⟨i, .group, .side .right⟩ :: a⟩,
      hg'.mem_of_new (by simp [Tree.placesAt]), rfl, hd, ?_⟩
    simp [Place.listed, Place.kind, hsc]
  | fold hprev he _ _ => exact hfound hprev rfl he
  | foldOther hprev _ _ _ he _ _ _ => exact hfound hprev rfl he
  | third hprev _ _ _ he _ _ _ => exact hfound hprev rfl he
  | second hprev _ he _ _ => exact hfound hprev rfl he

end

/-! ## What a pass keeps -/

/-- A scope that is open: the node that its body goes into, and its qualified name. -/
structure Opened where
  id : NodeId
  path : String

/-- The path that the innermost open scope gives, if that of the whole outline is `base`. -/
def pathIn (base : String) (stack : List Opened) : String :=
  (stack.map Opened.path).headD base

/-- `I` is kept by a pass over the declarations `all` of an outline in the scope `base`. It may
speak of the merge, the tree that it stands at, the scopes that are open and the declarations that
were visited. -/
structure Keeps (base : String) (all : List Declaration)
    (I : Merger → Tree → List Opened → List Declaration → Prop) : Prop where
  close : ∀ {m t o stack done}, I m t (o :: stack) done → I m t stack done
  comments : ∀ {m i e cs K stack done} (xs : List String),
    i = currentScope (stack.map Opened.id) → m.Stands ((Tree.node i e cs).under K) →
    I m ((Tree.node i e cs).under K) stack done →
    I { m with output := m.output.unionComments i xs }
      ((Tree.node i (e.addComments xs) cs).under K) stack done
  leaf : ∀ {m t m' t' e stack done later},
    all = done ++ ⟨e, pathIn base stack, stack.map Opened.path⟩ :: later →
    e.kind.isContainer = false → m.Stands t → Open t (stack.map Opened.id) → I m t stack done →
    m'.Stands t' → m'.labels = m.labels →
    AddsLeaf m (stack.map Opened.id) (e.kind.keys (pathIn base stack)) e t m' t' →
    I m' t' stack (done ++ [⟨e, pathIn base stack, stack.map Opened.path⟩])
  scope : ∀ {m t m' t' i e stack done later},
    all = done ++ ⟨e, pathIn base stack, stack.map Opened.path⟩ :: later →
    e.kind.isScope = true → m.Stands t → Open t (stack.map Opened.id) → I m t stack done →
    m'.Stands t' → m'.labels = m.labels →
    OpensScope m (stack.map Opened.id) (e.kind.keys (pathIn base stack)) e t m' t' i →
    I m' t' (⟨i, e.kind.within (pathIn base stack)⟩ :: stack)
      (done ++ [⟨e, pathIn base stack, stack.map Opened.path⟩])

/-! ## Visits -/

/-- A declaration at the moment at which a pass comes to it: the merge so far, the scopes that are
open, and what is declared. -/
structure Visit where
  merger : Merger
  stack : List Opened
  entry : Entry

/-- The declaration that is visited, in an outline in the scope `base`. -/
def Visit.declaration (base : String) (v : Visit) : Declaration :=
  ⟨v.entry, pathIn base v.stack, v.stack.map Opened.path⟩

mutual
/-- The visits that a pass pays to the declarations of an outline in the innermost open scope. -/
def visitsIn (base : String) (m : Merger) (stack : List Opened) : Outline → List Visit
  | .node e cs =>
    let scopes := stack.map Opened.id
    match e.kind with
    | .group =>
      let f := m.output.unionComments (currentScope scopes) e.comments
      visitsOf base { m with output := f } stack cs
    | .conflict _ | .scopeConflict _ => []
    | .scope _ => ⟨m, stack, e⟩ ::
      match m.openScope scopes (pathIn base stack) e with
      | .ok (m', i) => visitsOf base m' (⟨i, e.kind.within (pathIn base stack)⟩ :: stack) cs
      | .error _ => []
    | .leaf _ => [⟨m, stack, e⟩]
/-- The visits to the declarations of outlines, one after the other. -/
def visitsOf (base : String) (m : Merger) (stack : List Opened) : List Outline → List Visit
  | [] => []
  | c :: cs => visitsIn base m stack c ++
    match m.visit (stack.map Opened.id) (pathIn base stack) c with
    | .ok m' => visitsOf base m' stack cs
    | .error _ => []
end

/-- The visits that a pass after the first one pays. -/
def visits (m : Merger) (s : Source) : List Visit :=
  let f := m.output.unionComments Forest.root s.root.entry.comments
  visitsOf s.path { m with output := f, started := true } [] s.root.children

/-- As `Keeps`, for what may also speak of the moments at which declarations were visited, and of
the groups that comments come from. -/
structure Follows (base : String) (all groups : List Declaration)
    (I : Merger → Tree → List Opened → List Visit → Prop) : Prop where
  close : ∀ {m t o stack done}, I m t (o :: stack) done → I m t stack done
  comments : ∀ {m i e cs K stack done g}, g ∈ groups → g.enclosing = stack.map Opened.path →
    i = currentScope (stack.map Opened.id) → m.Stands ((Tree.node i e cs).under K) →
    I m ((Tree.node i e cs).under K) stack done →
    I { m with output := m.output.unionComments i g.entry.comments }
      ((Tree.node i (e.addComments g.entry.comments) cs).under K) stack done
  leaf : ∀ {m t m' t' e stack done later},
    all = done.map (Visit.declaration base) ++ Visit.declaration base ⟨m, stack, e⟩ :: later →
    e.kind.isContainer = false → m.Stands t → Open t (stack.map Opened.id) → I m t stack done →
    m'.Stands t' → m'.labels = m.labels →
    AddsLeaf m (stack.map Opened.id) (e.kind.keys (pathIn base stack)) e t m' t' →
    I m' t' stack (done ++ [⟨m, stack, e⟩])
  scope : ∀ {m t m' t' i e stack done later},
    all = done.map (Visit.declaration base) ++ Visit.declaration base ⟨m, stack, e⟩ :: later →
    e.kind.isScope = true → m.Stands t → Open t (stack.map Opened.id) → I m t stack done →
    m'.Stands t' → m'.labels = m.labels →
    OpensScope m (stack.map Opened.id) (e.kind.keys (pathIn base stack)) e t m' t' i →
    I m' t' (⟨i, e.kind.within (pathIn base stack)⟩ :: stack) (done ++ [⟨m, stack, e⟩])

section

variable {base : String} {all groups : List Declaration}

mutual
/-- What is kept by every step is kept by the visit of an outline, which does not fail. -/
theorem Follows.visit {I : Merger → Tree → List Opened → List Visit → Prop}
    (hI : Follows base all groups I) : ∀ (o : Outline), o.isConflictFree = true →
    ∀ {m : Merger} {t : Tree} {stack : List Opened} {done : List Visit} {later : List Declaration},
    m.Stands t → Open t (stack.map Opened.id) → I m t stack done →
    all = done.map (Visit.declaration base) ++
      (o.declarationsIn (pathIn base stack) (stack.map Opened.path) ++ later) →
    o.groupsIn (pathIn base stack) (stack.map Opened.path) ⊆ groups →
    ∃ m' t', m.visit (stack.map Opened.id) (pathIn base stack) o = .ok m' ∧ m'.Stands t' ∧
      m'.labels = m.labels ∧ m'.started = m.started ∧ Open t' (stack.map Opened.id) ∧
      (visitsIn base m stack o).map (Visit.declaration base) =
        o.declarationsIn (pathIn base stack) (stack.map Opened.path) ∧
      I m' t' stack (done ++ visitsIn base m stack o)
  | .node e cs, hfree, m, t, stack, done, later, hm, ho, hi, hall, hgroups => by
    obtain ⟨hconf, hbare, hcs⟩ := Outline.isConflictFree_node.1 hfree
    rw [Outline.declarationsIn] at hall ⊢
    rw [Outline.groupsIn] at hgroups
    rw [Merger.visit, visitsIn]
    cases hk : e.kind with
    | group =>
      simp only [hk] at hall hgroups ⊢
      obtain ⟨hmem, hgroups⟩ := List.cons_subset.1 hgroups
      obtain ⟨K, c, cs', rfl, -⟩ := hm.exists_current ho
      obtain ⟨hstands, hgrown⟩ := hm.unionComments e.comments
      exact Follows.visitAll hI cs hcs hstands (ho.grown hgrown)
        (hI.comments hmem rfl rfl hm hi) hall hgroups
    | conflict l | scopeConflict l => simp [hk, Kind.isConflict] at hconf
    | leaf l =>
      obtain rfl : cs = [] := hbare (by rw [hk]; rfl)
      simp only [hk, Outline.declarationsOf] at hall ⊢
      obtain ⟨m', t', hadd, hstands, hlabels, hstarted, hcase⟩ :=
        addLeaf_spec hm ho (by rw [hk]; rfl : e.kind.isContainer = false) (pathIn base stack)
      obtain ⟨N, hgrown⟩ := hcase.grown
      exact ⟨m', t', hadd, hstands, hlabels, hstarted, ho.grown hgrown, rfl,
        hI.leaf hall (by rw [hk]; rfl) hm ho hi hstands hlabels hcase⟩
    | scope s =>
      have hscope : e.kind.isScope = true := by rw [hk]; rfl
      simp only [hk] at hall hgroups ⊢
      rw [← hk] at hall hgroups ⊢
      obtain ⟨m₁, t₁, i, hopen, hstands₁, hlabels₁, hstarted₁, hcase⟩ :=
        openScope_spec hm ho hscope (pathIn base stack)
      obtain ⟨N, hgrown⟩ := hcase.grown
      have ho₁ : Open t₁ ((⟨i, e.kind.within (pathIn base stack)⟩ :: stack).map Opened.id) := by
        intro j hj
        rcases List.mem_cons.1 hj with rfl | hj
        · exact hcase.exists_opened hm hscope
        · exact ho.grown hgrown j hj
      have hi₁ := hI.scope hall hscope hm ho hi hstands₁ hlabels₁ hcase
      have hall₁ : all = (done ++ [Visit.mk m stack e]).map (Visit.declaration base) ++
          (Outline.declarationsOf (e.kind.within (pathIn base stack))
            (e.kind.within (pathIn base stack) :: stack.map Opened.path) cs ++ later) := by
        rw [hall]
        simp [Visit.declaration]
      obtain ⟨m₂, t₂, hvisit, hstands₂, hlabels₂, hstarted₂, ho₂, hvisits, hi₂⟩ :=
        Follows.visitAll hI cs hcs hstands₁ ho₁ hi₁ hall₁ hgroups
      simp only [hopen]
      refine ⟨m₂, t₂, hvisit, hstands₂, hlabels₂.trans hlabels₁,
        hstarted₂.trans hstarted₁, fun j hj => ho₂ j (by simp [hj]), ?_, ?_⟩
      · rw [List.map_cons, hvisits]
        rfl
      · have hclosed := hI.close hi₂
        rwa [List.append_assoc] at hclosed
/-- What is kept by every step is kept by the visit of outlines, which does not fail. -/
theorem Follows.visitAll {I : Merger → Tree → List Opened → List Visit → Prop}
    (hI : Follows base all groups I) : ∀ (os : List Outline), Outline.areConflictFree os = true →
    ∀ {m : Merger} {t : Tree} {stack : List Opened} {done : List Visit} {later : List Declaration},
    m.Stands t → Open t (stack.map Opened.id) → I m t stack done →
    all = done.map (Visit.declaration base) ++
      (Outline.declarationsOf (pathIn base stack) (stack.map Opened.path) os ++ later) →
    Outline.groupsOf (pathIn base stack) (stack.map Opened.path) os ⊆ groups →
    ∃ m' t', m.visitAll (stack.map Opened.id) (pathIn base stack) os = .ok m' ∧ m'.Stands t' ∧
      m'.labels = m.labels ∧ m'.started = m.started ∧ Open t' (stack.map Opened.id) ∧
      (visitsOf base m stack os).map (Visit.declaration base) =
        Outline.declarationsOf (pathIn base stack) (stack.map Opened.path) os ∧
      I m' t' stack (done ++ visitsOf base m stack os)
  | [], _, m, t, stack, done, later, hm, ho, hi, _, _ => by
    rw [Merger.visitAll, visitsOf, Outline.declarationsOf, List.append_nil]
    exact ⟨m, t, rfl, hm, rfl, rfl, ho, rfl, hi⟩
  | o :: os, hfree, m, t, stack, done, later, hm, ho, hi, hall, hgroups => by
    obtain ⟨hfree₁, hfree₂⟩ := Outline.areConflictFree_cons.1 hfree
    rw [Outline.declarationsOf] at hall ⊢
    obtain ⟨hgroups₁, hgroups₂⟩ := List.append_subset.1 hgroups
    rw [List.append_assoc] at hall
    obtain ⟨m₁, t₁, hvisit₁, hstands₁, hlabels₁, hstarted₁, ho₁, hvisits₁, hi₁⟩ :=
      Follows.visit hI o hfree₁ hm ho hi hall hgroups₁
    obtain ⟨m₂, t₂, hvisit₂, hstands₂, hlabels₂, hstarted₂, ho₂, hvisits₂, hi₂⟩ :=
      Follows.visitAll hI os hfree₂ hstands₁ ho₁ hi₁
        (by rw [hall, List.map_append, hvisits₁, List.append_assoc]) hgroups₂
    rw [Merger.visitAll, visitsOf, hvisit₁]
    refine ⟨m₂, t₂, hvisit₂, hstands₂, hlabels₂.trans hlabels₁, hstarted₂.trans hstarted₁, ho₂,
      ?_, ?_⟩
    · rw [List.map_append, hvisits₁, hvisits₂]
    · rwa [← List.append_assoc]
end

/-- What is kept by every step is kept by each pass after the first, which does not fail. -/
theorem Follows.add {I : Merger → Tree → List Opened → List Visit → Prop} {s : Source}
    (hI : Follows s.path s.declarations s.groups I) (hs : s.root.isConflictFree = true) {m : Merger}
    {t : Tree} (hm : m.Stands t) (hstarted : m.started = true) (hi : I m t [] []) :
    ∃ m' t', m.add s = .ok m' ∧ m'.Stands t' ∧ m'.labels = m.labels ∧ m'.started = true ∧
      (m.visits s).map (Visit.declaration s.path) = s.declarations ∧
      I m' t' [] (m.visits s) := by
  obtain ⟨⟨e, cs⟩, path⟩ := s
  obtain ⟨-, -, hcs⟩ := Outline.isConflictFree_node.1 hs
  obtain ⟨i, e', cs'⟩ := t
  obtain rfl : i = Forest.root := hm.top
  obtain ⟨hstands, -⟩ := hm.unionComments (K := []) e.comments
  have hi₁ : I { m with output := m.output.unionComments Forest.root e.comments }
      (.node Forest.root (e'.addComments e.comments) cs') [] [] :=
    hI.comments (K := []) (g := ⟨e, path, []⟩) List.mem_cons_self rfl rfl hm hi
  have hall : Outline.declarationsOf path [] cs =
      [].map (Visit.declaration path) ++ (Outline.declarationsOf path [] cs ++ []) := by simp
  obtain ⟨m', t', hvisit, hstands', hlabels, hstarted', -, hvisits, hi'⟩ :=
    hI.visitAll cs hcs hstands (fun _ h => by cases h) hi₁ hall (List.subset_cons_self _ _)
  have hready : ({ m with
      output := m.output.unionComments Forest.root e.comments, started := true } : Merger) =
      { m with output := m.output.unionComments Forest.root e.comments } := by rw [← hstarted]
  rw [Merger.add, visits, hstarted, if_pos rfl]
  simp only [Outline.entry, hready]
  exact ⟨m', t', hvisit, hstands', hlabels, hstarted'.trans hstarted, hvisits, hi'⟩

variable {I : Merger → Tree → List Opened → List Declaration → Prop}

/-- What speaks of declarations only. -/
theorem Keeps.follows (hI : Keeps base all I) (groups : List Declaration) :
    Follows base all groups
      fun m t stack done => I m t stack (done.map (Visit.declaration base)) where
  close h := hI.close h
  comments _ _ h hm hi := hI.comments _ h hm hi
  leaf hall he hm ho hi hm' hlabels hcase := by
    rw [List.map_append]
    exact hI.leaf hall he hm ho hi hm' hlabels hcase
  scope hall he hm ho hi hm' hlabels hcase := by
    rw [List.map_append]
    exact hI.scope hall he hm ho hi hm' hlabels hcase

/-- What is kept by every step is kept by each pass after the first, which does not fail. -/
theorem Keeps.add {s : Source} (hI : Keeps s.path s.declarations I)
    (hs : s.root.isConflictFree = true) {m : Merger} {t : Tree} (hm : m.Stands t)
    (hstarted : m.started = true) (hi : I m t [] []) :
    ∃ m' t', m.add s = .ok m' ∧ m'.Stands t' ∧ m'.labels = m.labels ∧ m'.started = true ∧
      I m' t' [] s.declarations := by
  obtain ⟨m', t', hadd, hm', hlabels, hstarted', hvisits, hi'⟩ :=
    (hI.follows s.groups).add hs hm hstarted hi
  exact ⟨m', t', hadd, hm', hlabels, hstarted', by rwa [hvisits] at hi'⟩

end

/-! ## The first pass -/

section

variable {m : Merger} {e : Entry} {cs : List Tree}

theorem copyAll_spec (os : List Outline) (hos : Outline.areConflictFree os = true)
    (h : m.Stands (.node Forest.root e cs)) :
    ∃ m', m.copyAll os = .ok m' ∧
      m'.Stands (.node Forest.root e (cs ++ Outline.numberAll m.output.size os)) ∧
      m'.labels = m.labels ∧ m'.started = m.started ∧ m'.conflicts = m.conflicts := by
  induction os generalizing m cs with
  | nil => exact ⟨m, rfl, by simpa [Outline.numberAll] using h, rfl, rfl, rfl⟩
  | cons o os ih =>
    obtain ⟨ho, hos⟩ := Outline.areConflictFree_cons.1 hos
    have hgroup : e.kind = .group := h.group
    obtain ⟨f, hf, hsize, hstands⟩ := h.copyInto (K := []) ho (by rw [hgroup]; rfl)
      (by rw [hgroup]; rfl) (.inl rfl)
    obtain ⟨m', hcopy, hstands', hlabels, hstarted, hconflicts⟩ := ih hos hstands
    refine ⟨m', (bind_of_ok hf _).trans hcopy, ?_, hlabels, hstarted, hconflicts⟩
    rw [Outline.numberAll]
    simpa [registerTree, hsize] using hstands'

end

/-- The tree that the first pass makes: a copy of an outline below the root. -/
def firstTree (s : Source) : Tree :=
  .node Forest.root (({} : Entry).addComments s.root.entry.comments)
    (Outline.numberAll 1 s.root.children)

/-- A merge that has not started stands at the bare root. -/
theorem stands_start (labels : Labels) : ({ labels } : Merger).Stands (.node Forest.root {} []) :=
  ⟨Forest.shows_empty, rfl, rfl, .node trivial (by simp), fun key i => by
    simp [Tree.places, Tree.placesAt, Tree.placesAll, Place.listed, Place.kind]⟩

/-- The first pass copies. -/
theorem add_first (labels : Labels) {s : Source} (hs : s.root.isConflictFree = true) :
    ∃ m, ({ labels } : Merger).add s = .ok m ∧ m.Stands (firstTree s) ∧ m.labels = labels ∧
      m.started = true ∧ m.conflicts = #[] := by
  obtain ⟨⟨e, cs⟩, path⟩ := s
  obtain ⟨-, -, hcs⟩ := Outline.isConflictFree_node.1 hs
  obtain ⟨hstands, -⟩ := (stands_start labels).unionComments (K := []) e.comments
  have hready :
      ({ labels, started := true, output := Forest.empty.unionComments Forest.root e.comments } :
        Merger).Stands (.node Forest.root (({} : Entry).addComments e.comments) []) :=
    ⟨hstands.shows, hstands.top, hstands.group, hstands.shaped, hstands.index⟩
  obtain ⟨m, hcopy, hm, hlabels, hstarted, hconflicts⟩ := copyAll_spec cs hcs hready
  exact ⟨m, hcopy, hm, hlabels, hstarted, hconflicts⟩

/-! ## Any number of passes -/

section

variable {I : Merger → Tree → Prop} {ss : List Source}

/-- What every pass keeps holds after any number of them. -/
theorem foldlM_keeps (hI : ∀ base all, Keeps base all fun m t _ _ => I m t) {m : Merger} {t : Tree}
    (hm : m.Stands t) (hstarted : m.started = true) (hi : I m t)
    (hss : ∀ s ∈ ss, s.root.isConflictFree = true) :
    ∃ m' t', ss.foldlM Merger.add m = .ok m' ∧ m'.Stands t' ∧ m'.started = true ∧ I m' t' := by
  induction ss generalizing m t with
  | nil => exact ⟨m, t, rfl, hm, hstarted, hi⟩
  | cons s ss ih =>
    obtain ⟨m₁, t₁, hadd, hm₁, -, hstarted₁, hi₁⟩ :=
      (hI s.path s.declarations).add (hss s (by simp)) hm hstarted hi
    obtain ⟨m₂, t₂, hfold, hrest⟩ := ih hm₁ hstarted₁ hi₁ fun r hr => hss r (by simp [hr])
    exact ⟨m₂, t₂, by rw [List.foldlM_cons]; exact (bind_of_ok hadd _).trans hfold, hrest⟩

/-- Any number of outlines can be merged. What holds at the start and after the first pass, and is
kept by every other, holds at the end. -/
theorem exists_foldlM_keeps (labels : Labels)
    (hI : ∀ base all, Keeps base all fun m t _ _ => I m t)
    (hstart : I { labels } (.node Forest.root {} []))
    (hfirst : ∀ {s : Source} {m : Merger}, s.root.isConflictFree = true → m.conflicts = #[] →
      I m (firstTree s))
    (hss : ∀ s ∈ ss, s.root.isConflictFree = true) :
    ∃ m t, ss.foldlM Merger.add { labels } = .ok m ∧ m.Stands t ∧ (ss ≠ [] → m.started = true) ∧
      I m t := by
  cases ss with
  | nil => exact ⟨_, _, rfl, stands_start labels, absurd rfl, hstart⟩
  | cons s ss =>
    have hs : s.root.isConflictFree = true := hss s List.mem_cons_self
    obtain ⟨m₁, hadd, hm₁, -, hstarted, hconflicts⟩ := add_first labels hs
    obtain ⟨m, t, hfold, hm, hstarted', hi⟩ := foldlM_keeps hI hm₁ hstarted (hfirst hs hconflicts)
      fun r hr => hss r (List.mem_cons_of_mem s hr)
    refine ⟨m, t, ?_, hm, fun _ => hstarted', hi⟩
    rw [List.foldlM_cons]
    exact (bind_of_ok hadd _).trans hfold

end

end Merger

end StubMerge
