import StubMerge.Proofs.Copies
import StubMerge.Proofs.Coverage
import StubMerge.Proofs.Drafts
import StubMerge.Proofs.Naming

/-!
# Merging keeps names

Whatever a merge does with a declaration, the node that it is folded into and the copy that is made
of it should go by the names that the declaration has in its own file. That is so as long as
declarations of one name are written in scopes of one name (`SpelledAlike`): a copy that is set
against a node comes to stand in the scope of that node, and a name that is written as a path means
something else there.

`Merger.Visit.nodes` has the nodes that a declaration goes into. `Merger.Located` is what holds all
along: every node that the index lists is in the scope that some declaration of its name is in, and
every open scope has the name of the scope that it was opened for.
-/

namespace StubMerge

/-- Whatever shares a name with a declaration of the second list is written in a scope of the same
name, unless both are scopes and their headers agree. -/
def SpelledAlike (left right : List Declaration) : Prop :=
  ∀ x ∈ left ++ right, ∀ y ∈ right, (∃ key ∈ x.keys, key ∈ y.keys) →
    x.path = y.path ∨ y.kind.isScope = true ∧ x.kind.agrees y.kind = true

instance (left right : List Declaration) : Decidable (SpelledAlike left right) :=
  inferInstanceAs (Decidable (∀ x ∈ left ++ right, ∀ y ∈ right, (∃ key ∈ x.keys, key ∈ y.keys) →
    x.path = y.path ∨ y.kind.isScope = true ∧ x.kind.agrees y.kind = true))

/-- If no name is written as a path, all are spelled alike. -/
theorem spelledAlike_of_plain {left right : Outline}
    (hl : ∀ d ∈ left.declarations, d.kind.isPlain = true)
    (hr : ∀ d ∈ right.declarations, d.kind.isPlain = true) :
    SpelledAlike left.declarations right.declarations := by
  have hpath : ∀ x ∈ left.declarations ++ right.declarations, ∀ key ∈ x.keys,
      pathOf key = x.path := by
    intro x hx key hkey
    rcases List.mem_append.1 hx with hx | hx
    · exact Kind.pathOf_key (Outline.nested_declarationsOf _ .top hl x hx).any_isMark (hl x hx) hkey
    · exact Kind.pathOf_key (Outline.nested_declarationsOf _ .top hr x hx).any_isMark (hr x hx) hkey
  intro x hx y hy ⟨key, hxk, hyk⟩
  left
  rw [← hpath x hx key hxk, hpath y (List.mem_append_right _ hy) key hyk]

/-- What holds a leaf goes by the same names. -/
theorem Leaf.HeldBy.keys_eq {l l' : Leaf} (h : l.HeldBy l') (path : String) :
    l'.keys path = l.keys path := by
  cases h <;> rfl

/-- A leaf that a declaration of its name was folded into goes by the names of the declaration. -/
theorem Kind.keys_fold {k k' : Kind} (h : k.agrees k' = true) (hk : k'.isContainer = false)
    {path path' key : String} (hkey : key ∈ k.keys path) (hkey' : key ∈ k'.keys path') :
    (k.fold k').keys path = k'.keys path := by
  have hheld := Kind.heldBy_fold h hk hkey hkey'
  obtain ⟨l', rfl⟩ := Kind.exists_leaf hk
  generalize k.fold (.leaf l') = folded at hheld ⊢
  cases hheld with
  | leaf hl => exact hl.keys_eq path

theorem Place.isDeclaration_of_listed {p : Place} (h : p.listed = true) : p.kind.isDeclaration = true := by
  rcases kind_of_listed h with ⟨s, hs, -⟩ | ⟨l, hl⟩
  · rw [hs]
    rfl
  · rw [hl]
    rfl

theorem Forest.Shows.qualifiedName?_of_mem {f : Forest} {t : Tree} {ts : List Tree} {p : Place}
    (h : f.Shows (t :: ts)) (hp : p ∈ t.places) (hk : p.kind.isScope = true) :
    f.qualifiedName? p.id = some (p.kind.within p.path) := by
  have hkeys := h.indexKeys_of_mem hp
  obtain ⟨s, hs⟩ := Kind.exists_scope hk
  rw [indexKeys, Place.keys, h.kind_of_mem hp, hs] at hkeys
  rw [qualifiedName?, h.kind_of_mem hp, hs]
  exact congrArg List.head? hkeys

namespace Merger

namespace Visit

/-- The numbers of the scopes that are open. -/
def scopes (v : Visit) : List NodeId := v.stack.map Opened.id

/-- The nodes that a declaration goes into: the one that it is folded into, and the copy of it. A
scope is always folded into the scope that is found, since its body goes there. -/
def nodes (base : String) (v : Visit) : List NodeId :=
  let f := v.merger.output
  match v.merger.previous? v.scopes (v.declaration base).keys v.entry.kind with
  | none => [f.size]
  | some p =>
    if (f.kind p).agrees v.entry.kind then [p]
    else if (f.kind p).isScope && v.entry.kind.isScope then
      if (otherHeader? f p).isSome then [p] else [p, f.size + 1]
    else [f.size]

/-- A declaration goes into some node. -/
theorem nodes_ne_nil (base : String) (v : Visit) : v.nodes base ≠ [] := by
  unfold nodes
  split
  · nofun
  · dsimp only
    split_ifs <;> nofun

/-- All nodes that a declaration went into are in the tree under its names. -/
def Named (base : String) (t : Tree) (v : Visit) : Prop :=
  ∀ n ∈ v.nodes base, ∃ p ∈ t.places, p.id = n ∧ p.kind.isDeclaration = true ∧
    p.keys = (v.declaration base).keys

theorem Named.grown {base : String} {t t' : Tree} {v : Visit} (h : v.Named base t)
    {N : List Place} (hg : Grown N t.places t'.places) : v.Named base t' := by
  intro n hn
  obtain ⟨p, hp, rfl, hk, hkeys⟩ := h n hn
  obtain ⟨q, hq, hkept⟩ := hg.exists_kept hp
  exact ⟨q, hq, hkept.id_eq, hkept.kind.isDeclaration_eq.trans hk, hkept.keys_eq.trans hkeys⟩

end Visit

/-- A node has the names and the scope of a declaration, and grew from what was declared. -/
structure Comes (p : Place) (x : Declaration) : Prop where
  kind : x.kind.GrowsTo p.kind
  path_eq : p.path = x.path

theorem Comes.keys_eq {p : Place} {x : Declaration} (h : Comes p x) : p.keys = x.keys := by
  rw [Place.keys, h.kind.keys_eq, h.path_eq]
  rfl

theorem Comes.kept {p q : Place} {x : Declaration} (h : Comes p x) (hk : p.Kept q) : Comes q x :=
  ⟨h.kind.trans hk.kind, hk.path_eq.trans h.path_eq⟩

/-- Every declaration comes from a known one. It was there at first, when there
were fewer nodes, or is one that a visited declaration went into. Every open scope has the name of
the scope that it was opened for, and so had the innermost one at each visit. -/
structure Located (known : List Declaration) (first : Nat) (t : Tree) (stack : List Opened)
    (done : List Visit) : Prop where
  declared : ∀ p ∈ t.places, p.kind.isDeclaration = true →
    ∃ x ∈ known, Comes p x
  origin : ∀ p ∈ t.places, p.kind.isDeclaration = true →
    p.id < first ∨ ∃ v ∈ done, p.id ∈ v.nodes ""
  opened : ∀ o ∈ stack, ∃ p ∈ t.places, p.id = o.id ∧ p.kind.within p.path = o.path
  named : ∀ v ∈ done, v.Named "" t
  current : ∀ v ∈ done,
    (v.merger.output.qualifiedName? (currentScope v.scopes)).getD "" = pathIn "" v.stack

/-- What is new in a step, if it is a declaration, is one of the nodes and comes from a known
declaration. -/
def NewAre (known : List Declaration) (ns : List NodeId) (t t' : Tree) : Prop :=
  ∃ N, Grown N t.places t'.places ∧ ∀ q ∈ N, q.kind.isDeclaration = true →
    q.id ∈ ns ∧ ∃ x ∈ known, Comes q x

section

variable {known : List Declaration} {first : Nat} {m m' : Merger} {t t' : Tree}
  {stack : List Opened} {done : List Visit} {d e : Entry} {cs : List Tree} {K : Frames} {i : NodeId}

theorem NewAre.of_same {ns : List NodeId} (hg : Grown [] t.places t'.places) :
    NewAre known ns t t' :=
  ⟨[], hg, by simp⟩

/-- Visits may have been made since, and what is new is what those declarations went into. -/
theorem Located.grown (h : Located known first t stack done) (vs : List Visit)
    {N : List Place} (hg : Grown N t.places t'.places)
    (hN : ∀ q ∈ N, q.kind.isDeclaration = true →
      (∃ v ∈ vs, q.id ∈ v.nodes "") ∧ ∃ x ∈ known, Comes q x)
    (hvs : ∀ v ∈ vs, v.Named "" t' ∧
      (v.merger.output.qualifiedName? (currentScope v.scopes)).getD "" = pathIn "" v.stack) :
    Located known first t' stack (done ++ vs) where
  declared q hq hdecl := by
    rcases hg.mem_cases hq with ⟨p, hp, hk⟩ | hmem
    · obtain ⟨x, hx, hcomes⟩ := h.declared p hp (hk.kind.isDeclaration_eq ▸ hdecl)
      exact ⟨x, hx, hcomes.kept hk⟩
    · exact (hN q hmem hdecl).2
  origin q hq hdecl := by
    rcases hg.mem_cases hq with ⟨p, hp, hk⟩ | hmem
    · rw [hk.id_eq]
      rcases h.origin p hp (hk.kind.isDeclaration_eq ▸ hdecl) with hfirst | ⟨w, hw, hn⟩
      · exact .inl hfirst
      · exact .inr ⟨w, List.mem_append_left _ hw, hn⟩
    · obtain ⟨v, hv, hn⟩ := (hN q hmem hdecl).1
      exact .inr ⟨v, List.mem_append_right _ hv, hn⟩
  opened o ho := by
    obtain ⟨p, hp, hid, hpath⟩ := h.opened o ho
    obtain ⟨q, hq, hk⟩ := hg.exists_kept hp
    exact ⟨q, hq, hk.id_eq.trans hid, by rw [hk.path_eq, hk.kind.within_eq, hpath]⟩
  named v hv := (List.mem_append.1 hv).elim (fun hv => (h.named v hv).grown hg) fun hv =>
    (hvs v hv).1
  current v hv := (List.mem_append.1 hv).elim (h.current v) fun hv => (hvs v hv).2

/-- The innermost open scope has the path of what is visited in it. -/
theorem Located.within_current (h : Located known first t stack done) (hm : m.Stands t)
    (ht : t = (Tree.node (currentScope (stack.map Opened.id)) e cs).under K) :
    e.kind.within (pathAlong (Frames.steps K)) = pathIn "" stack := by
  subst ht
  cases stack with
  | nil =>
    obtain ⟨hgroup, hsteps⟩ := hm.at_root
    rw [hgroup, hsteps]
    rfl
  | cons o stack =>
    obtain ⟨q, hq, hid, hpath⟩ := h.opened o List.mem_cons_self
    obtain rfl := hm.shows.eq_of_id (Tree.placeIn_mem_places _ K) hq hid.symm
    exact hpath

theorem Located.current_eq (h : Located known first t stack done) (hm : m.Stands t)
    (ho : Open t (stack.map Opened.id)) :
    (m.output.qualifiedName? (currentScope (stack.map Opened.id))).getD "" = pathIn "" stack := by
  cases stack with
  | nil =>
    have hshows : m.output.Shows [t.under []] := hm.shows
    have hkind : m.output.kind Forest.root = .group := by
      rw [← hm.top, hshows.kind_eq, hm.group]
    rw [show currentScope ([].map Opened.id) = Forest.root from rfl, Forest.qualifiedName?, hkind]
    rfl
  | cons o stack =>
    obtain ⟨p, hp, hid, hpath⟩ := h.opened o List.mem_cons_self
    obtain ⟨q, hq, hid', hscope, -⟩ := ho o.id List.mem_cons_self
    obtain rfl := hm.shows.eq_of_id hp hq (hid.trans hid'.symm)
    rw [show currentScope ((o :: stack).map Opened.id) = p.id from hid.symm,
      hm.shows.qualifiedName?_of_mem hp hscope, hpath]
    rfl

/-- What is found for a declaration and does not agree with it is in the scope that the declaration
is in. So is what is found for a leaf. -/
theorem Located.path_eq (h : Located known first t stack done) (hm : m.Stands t) {y : Declaration}
    (halike : ∀ x ∈ known, (∃ key ∈ x.keys, key ∈ y.keys) →
      x.path = y.path ∨ y.kind.isScope = true ∧ x.kind.agrees y.kind = true) {p : Place}
    (hp : p ∈ t.places) (hl : p.listed = true) {scopes : List NodeId}
    (hprev : m.previous? scopes y.keys y.kind = some p.id)
    (hy : y.kind.isScope = true → p.kind.agrees y.kind = false) : p.path = y.path := by
  obtain ⟨x, hx, hcomes⟩ := h.declared p hp (Place.isDeclaration_of_listed hl)
  obtain ⟨key, hyk, hpk⟩ := hm.shares_key hp hprev
  rw [hcomes.path_eq]
  rcases halike x hx ⟨key, hcomes.keys_eq ▸ hpk, hyk⟩ with hpath | ⟨hscope, hagree⟩
  · exact hpath
  · -- A scope is as it was declared, and that agrees.
    have hxs : x.kind.isScope = true := (Kind.isScope_eq_of_agrees hagree).trans hscope
    have hkind : p.kind = x.kind := hcomes.kind.eq_of_container (Kind.isContainer_of_scope hxs)
    rw [← hkind, hy hscope] at hagree
    cases hagree

/-- A step puts in a copy of an entry, in a scope with the given path, and no other declaration. -/
structure CopiedIn (n : NodeId) (e : Entry) (path : String) (t t' : Tree) : Prop where
  grown : ∃ N, Grown N t.places t'.places ∧ ∀ q ∈ N, q.kind.isDeclaration = true → q.id = n
  copy : ∃ q ∈ t'.places, q.id = n ∧ q.entry = e ∧ q.path = path

theorem CopiedIn.newAre {n : NodeId} {y : Declaration} (h : CopiedIn n y.entry y.path t t')
    (hm' : m'.Stands t') (hy : y ∈ known) {ns : List NodeId} (hn : n ∈ ns) :
    NewAre known ns t t' := by
  obtain ⟨N, hg, hN⟩ := h.grown
  obtain ⟨c, hc, hid, hentry, hpath⟩ := h.copy
  refine ⟨N, hg, fun q hq hdecl => ⟨hN q hq hdecl ▸ hn, y, hy, ?_⟩⟩
  obtain rfl := hm'.shows.eq_of_id (hg.mem_of_new hq) hc ((hN q hq hdecl).trans hid.symm)
  refine ⟨?_, hpath⟩
  rw [Place.kind, hentry]
  exact .same _

/-- A copy goes by the names of what was copied. -/
theorem CopiedIn.exists_named {n : NodeId} {y : Declaration} (h : CopiedIn n y.entry y.path t t')
    (hy : y.kind.isDeclaration = true) :
    ∃ p ∈ t'.places, p.id = n ∧ p.kind.isDeclaration = true ∧ p.keys = y.keys := by
  obtain ⟨c, hc, hid, hentry, hpath⟩ := h.copy
  refine ⟨c, hc, hid, ?_, ?_⟩
  · rw [Place.kind, hentry]
    exact hy
  · rw [Place.keys, Place.kind, hentry, hpath]
    rfl

/-- A step that puts in a copy and no other declaration puts in a node of the names of what was
copied. -/
theorem CopiedIn.named {n : NodeId} {y : Declaration} (h : CopiedIn n y.entry y.path t t')
    (hm' : m'.Stands t') (hy : y ∈ known) (hdecl : y.kind.isDeclaration = true) :
    NewAre known [n] t t' ∧ ∀ k ∈ [n], ∃ p ∈ t'.places, p.id = k ∧
      p.kind.isDeclaration = true ∧ p.keys = y.keys :=
  ⟨h.newAre hm' hy (List.mem_singleton_self n), List.forall_mem_singleton.2 (h.exists_named hdecl)⟩

/-- What is put behind the members of a node is in the scope of its members. -/
theorem copiedIn_append {n : NodeId} (hconf : d.kind.isConflict = false) :
    CopiedIn n e (pathAlong (⟨i, d.kind, Frames.slot K⟩ :: Frames.steps K))
      ((Tree.node i d cs).under K) ((Tree.node i d (cs ++ [.node n e []])).under K) := by
  have hg : Grown [⟨n, e, .member, ⟨i, d.kind, Frames.slot K⟩ :: Frames.steps K⟩]
      ((Tree.node i d cs).under K).places
      ((Tree.node i d (cs ++ [.node n e []])).under K).places :=
    Tree.grown_append (.node n e []) hconf
  exact ⟨⟨_, hg, fun q hq _ => congrArg Place.id (List.mem_singleton.1 hq)⟩,
    ⟨_, hg.mem_of_new List.mem_cons_self, rfl, rfl, rfl⟩⟩

/-- What is put into the innermost open scope is in the scope that is visited. -/
theorem Located.copiedIn_current (n : NodeId)
    (h : Located known first ((Tree.node (currentScope (stack.map Opened.id)) d cs).under K) stack done)
    (hm : m.Stands ((Tree.node (currentScope (stack.map Opened.id)) d cs).under K))
    (hconf : d.kind.isConflict = false) :
    CopiedIn n e (pathIn "" stack) ((Tree.node (currentScope (stack.map Opened.id)) d cs).under K)
      ((Tree.node (currentScope (stack.map Opened.id)) d (cs ++ [.node n e []])).under K) := by
  rw [← h.within_current hm rfl]
  exact copiedIn_append hconf

/-- What is set against a node is in the scope of that node. -/
theorem Sets.copiedIn {l : Labels} {n n' : NodeId} {p : Place}
    (h : Sets l n' p (.node n e []) t t') : CopiedIn n e p.path t t' := by
  obtain ⟨q, hq, hid, hentry, -, hscopes⟩ := h.exists_copy
  obtain ⟨W, i, a, hg, hW⟩ := h.grown
  refine ⟨⟨_, hg, fun w hw hdecl => ?_⟩, ⟨q, hq, hid, hentry, Place.path_eq_of_scopes hscopes⟩⟩
  rcases List.mem_append.1 hw with hw | hw
  · -- Conflicts and their sides are not declarations.
    rcases hW w hw with hk | hk
    · rw [hk] at hdecl
      cases hdecl
    · cases hkind : w.kind with
      | conflict _ | scopeConflict _ =>
        rw [hkind] at hdecl
        cases hdecl
      | _ =>
        rw [hkind] at hk
        cases hk
  · rw [Tree.placesAt, Tree.placesAll] at hw
    exact congrArg Place.id (List.mem_singleton.1 hw)

/-- The second of two headers is in the scope of the first. -/
theorem copiedIn_opposedHeaders {l : Labels} {n : NodeId} (hK : Frames.slot K = .member)
    (hd : d.kind.isScope = true) :
    CopiedIn (n + 1) e (pathAlong (Frames.steps K)) ((Tree.node i d cs).under K)
      ((Tree.opposedHeaders n l (.node i d cs) e).under K) := by
  have hg : Grown _ ((Tree.node i d cs).under K).places
      ((Tree.opposedHeaders n l (.node i d cs) e).under K).places :=
    Tree.grown_opposedHeaders hK hd
  refine ⟨⟨_, hg, fun q hq hdecl => ?_⟩,
    ⟨_, hg.mem_of_new (List.mem_cons_of_mem _ List.mem_cons_self), rfl, rfl, rfl⟩⟩
  rcases List.mem_pair.1 hq with rfl | rfl
  · cases hdecl
  · rfl

variable (m stack e) in
/-- The declaration that is visited, in a file. -/
abbrev visited : Declaration := Visit.declaration "" ⟨m, stack, e⟩

/-- A leaf goes into nodes of its names. -/
theorem AddsLeaf.named
    (hcase : AddsLeaf m (stack.map Opened.id) (visited m stack e).keys e t m' t')
    (h : Located known first t stack done) (hm : m.Stands t) (hm' : m'.Stands t')
    (he : e.kind.isContainer = false) (hy : visited m stack e ∈ known)
    (halike : ∀ x ∈ known, (∃ key ∈ x.keys, key ∈ (visited m stack e).keys) →
      x.path = (visited m stack e).path ∨
        e.kind.isScope = true ∧ x.kind.agrees e.kind = true) :
    NewAre known (Visit.nodes "" ⟨m, stack, e⟩) t t' ∧ Visit.Named "" t' ⟨m, stack, e⟩ := by
  have hdecl : (visited m stack e).kind.isDeclaration = true := Kind.isDeclaration_of_leaf he
  have hscope : e.kind.isScope = false := by
    obtain ⟨l, hl⟩ := Kind.exists_leaf he
    rw [hl]
    rfl
  have hleaf : ∀ {p : Place}, (visited m stack e).kind.isScope = true →
      p.kind.agrees (visited m stack e).kind = false := fun hs => nomatch hscope.symm.trans hs
  unfold Visit.Named Visit.nodes
  simp only [Visit.scopes]
  cases hcase with
  | @new K d cs _ hprev hconf _ _ =>
    have hcopied := h.copiedIn_current (e := e) m.output.size hm hconf
    rw [hprev]
    exact hcopied.named (y := visited m stack e) hm' hy hdecl
  | @fold K i d _ hprev hlisted hagree _ =>
    have hp := Tree.placeIn_mem_places (.node i d []) K
    have hpath := h.path_eq hm halike hp hlisted hprev hleaf
    obtain ⟨key, hkey, hkey'⟩ := hm.shares_key hp hprev
    have hkind : m.output.kind i = d.kind := hm.shows.kind_of_mem hp
    simp only [hprev, hkind, hagree, if_true]
    refine ⟨.of_same (Tree.grown_entry (Entry.growsTo_fold hagree) (.inr rfl)), fun n hn => ?_⟩
    rw [List.mem_singleton.1 hn]
    have hkeys : (d.kind.fold e.kind).keys ((Tree.node i d []).placeIn K).path =
        e.kind.keys ((Tree.node i d []).placeIn K).path := Kind.keys_fold hagree he hkey' hkey
    rw [hpath] at hkeys
    refine ⟨_, Tree.placeIn_mem_places (.node i (d.fold e) []) K, rfl, ?_, ?_⟩
    · exact Kind.isDeclaration_of_leaf
        ((Kind.growsTo_fold hagree).isContainer_eq.trans
          ((Kind.isContainer_eq_of_agrees hagree).trans he))
    · refine Eq.trans ?_ hkeys
      rw [← hpath]
      rfl
  | @oppose p _ _ _ hprev hp hl hagree _ hsets =>
    have hcopied := hsets.copiedIn
    rw [h.path_eq hm halike hp hl hprev hleaf] at hcopied
    have hkind : m.output.kind p.id = p.kind := hm.shows.kind_of_mem hp
    simp only [hprev, hkind, hagree, hscope, Bool.and_false, Bool.false_eq_true, if_false]
    exact hcopied.named (y := visited m stack e) hm' hy hdecl

/-- What is found for a scope and is a scope goes by the one name of the declaration. -/
theorem exists_named_of_found {N : List Place} {p : Place} (hg : Grown N t.places t'.places)
    (hm : m.Stands t) (he : e.kind.isScope = true) (hp : p ∈ t.places)
    (hs : p.kind.isScope = true)
    (hprev : m.previous? (stack.map Opened.id) (visited m stack e).keys e.kind = some p.id) :
    ∃ q ∈ t'.places, q.id = p.id ∧ q.kind.isDeclaration = true ∧
      q.keys = (visited m stack e).keys := by
  have hkeys : (visited m stack e).keys = [e.kind.within (pathIn "" stack)] :=
    Kind.keys_of_scope he _
  have hpkeys : p.keys = [p.kind.within p.path] := Kind.keys_of_scope hs _
  obtain ⟨key, hkey, hpk⟩ := hm.shares_key hp hprev
  obtain ⟨q, hq, hk⟩ := hg.exists_kept hp
  refine ⟨q, hq, hk.id_eq, ?_, ?_⟩
  · exact Kind.isDeclaration_of_scope (hk.kind.isScope_eq.trans hs)
  · rw [hkeys, List.mem_singleton] at hkey
    rw [hpkeys, List.mem_singleton] at hpk
    rw [hk.keys_eq, hpkeys, hkeys, ← hkey, hpk]

/-- A scope goes into nodes of its name, and so does its body. -/
theorem OpensScope.named
    (hcase : OpensScope m (stack.map Opened.id) (visited m stack e).keys e t m' t' i)
    (h : Located known first t stack done) (hm : m.Stands t) (hm' : m'.Stands t')
    (he : e.kind.isScope = true) (hy : visited m stack e ∈ known)
    (halike : ∀ x ∈ known, (∃ key ∈ x.keys, key ∈ (visited m stack e).keys) →
      x.path = (visited m stack e).path ∨
        e.kind.isScope = true ∧ x.kind.agrees e.kind = true) :
    NewAre known (Visit.nodes "" ⟨m, stack, e⟩) t t' ∧ Visit.Named "" t' ⟨m, stack, e⟩ ∧
      i ∈ Visit.nodes "" ⟨m, stack, e⟩ := by
  have hdecl : (visited m stack e).kind.isDeclaration = true := Kind.isDeclaration_of_scope he
  obtain ⟨N, hg⟩ := hcase.grown
  unfold Visit.Named Visit.nodes
  simp only [Visit.scopes]
  cases hcase with
  | @new K d cs _ hprev hconf _ _ =>
    have hcopied := h.copiedIn_current (e := e) m.output.size hm hconf
    obtain ⟨hnew, hnamed⟩ := hcopied.named (y := visited m stack e) hm' hy hdecl
    rw [hprev]
    exact ⟨hnew, hnamed, List.mem_singleton_self _⟩
  | @oppose p _ _ _ hprev hp hl hleaf _ hsets =>
    have hcopied := hsets.copiedIn
    have hkind : m.output.kind p.id = p.kind := hm.shows.kind_of_mem hp
    have hagree : p.kind.agrees e.kind = false := by
      by_contra hc
      rw [Kind.isScope_eq_of_agrees (by simpa using hc), he] at hleaf
      cases hleaf
    rw [h.path_eq hm halike hp hl hprev fun _ => hagree] at hcopied
    obtain ⟨hnew, hnamed⟩ := hcopied.named (y := visited m stack e) hm' hy hdecl
    simp only [hprev, hkind, hagree, hleaf, Bool.false_and, Bool.false_eq_true, if_false]
    exact ⟨hnew, hnamed, List.mem_singleton_self _⟩
  | @fold K i d cs _ hprev hd hagree _ =>
    have hp := Tree.placeIn_mem_places (.node i d cs) K
    have hkind : m.output.kind i = d.kind := hm.shows.kind_of_mem hp
    simp only [hprev, hkind, hagree, if_true]
    exact ⟨.of_same (Tree.grown_entry (Entry.growsTo_addComments _ _) (.inl rfl)),
      List.forall_mem_singleton.2 (exists_named_of_found hg hm he hp hd hprev),
      List.mem_singleton_self _⟩
  | @foldOther k K i d cs b l _ hprev hk hbefore hafter hd hagree _ _ =>
    have hp := Tree.placeIn_mem_places (.node i d cs) (k :: K)
    have hkind : m.output.kind i = d.kind := hm.shows.kind_of_mem hp
    have hother : otherHeader? m.output i = some b.id :=
      otherHeader?_left hm.shows hk hbefore hafter
    simp only [hprev, hkind, hagree, hd, he, hother, Option.isSome_some, Bool.and_self,
      Bool.false_eq_true, if_false, if_true]
    exact ⟨.of_same (Tree.grown_entry (Entry.growsTo_addComments _ _) (.inl rfl)),
      List.forall_mem_singleton.2 (exists_named_of_found hg hm he hp hd hprev),
      List.mem_singleton_self _⟩
  | @third k K i d cs b l _ hprev hk hbefore hafter hd hagree _ _ =>
    have hp := Tree.placeIn_mem_places (.node i d cs) (k :: K)
    have hkind : m.output.kind i = d.kind := hm.shows.kind_of_mem hp
    have hother : otherHeader? m.output i = some b.id :=
      otherHeader?_left hm.shows hk hbefore hafter
    simp only [hprev, hkind, hagree, hd, he, hother, Option.isSome_some, Bool.and_self,
      Bool.false_eq_true, if_false, if_true]
    exact ⟨.of_same (.refl _),
      List.forall_mem_singleton.2 (exists_named_of_found hg hm he hp hd hprev),
      List.mem_singleton_self _⟩
  | @second K i d cs _ hprev hK hd hagree _ =>
    have hp := Tree.placeIn_mem_places (.node i d cs) K
    have hkind : m.output.kind i = d.kind := hm.shows.kind_of_mem hp
    have hother : otherHeader? m.output i = none :=
      otherHeader?_eq_none hm.shows (hm.shaped.sided _) (by simp [hK])
    have hl : ((Tree.node i d cs).placeIn K).listed = true := by
      obtain ⟨q, hq, hid, hl⟩ := hm.exists_previous hprev
      obtain rfl := hm.shows.eq_of_id hp hq hid.symm
      exact hl
    have hcopied : CopiedIn (m.output.size + 1) e (pathAlong (Frames.steps K)) _
        ((Tree.opposedHeaders m.output.size m.labels (.node i d cs) e).under K) :=
      copiedIn_opposedHeaders hK hd
    rw [show pathAlong (Frames.steps K) = (visited m stack e).path from
      h.path_eq hm halike hp hl hprev fun _ => hagree] at hcopied
    simp only [hprev, hkind, hagree, hd, he, hother, Option.isSome_none, Bool.and_self,
      Bool.false_eq_true, if_false, if_true]
    refine ⟨hcopied.newAre (y := visited m stack e) hm' hy (by simp), fun n hn => ?_,
      List.mem_cons_self⟩
    rcases List.mem_pair.1 hn with rfl | rfl
    · exact exists_named_of_found hg hm he hp hd hprev
    · exact hcopied.exists_named (y := visited m stack e) hdecl

/-- The step for a leaf or a scope whose nodes are known. -/
theorem Located.visit (h : Located known first t stack done) (hm : m.Stands t)
    (ho : Open t (stack.map Opened.id))
    (hnew : NewAre known (Visit.nodes "" ⟨m, stack, e⟩) t t')
    (hnamed : Visit.Named "" t' ⟨m, stack, e⟩) :
    Located known first t' stack (done ++ [⟨m, stack, e⟩]) := by
  obtain ⟨N, hg, hN⟩ := hnew
  refine h.grown _ hg (fun q hq hdecl => ⟨⟨_, List.mem_singleton_self _, (hN q hq hdecl).1⟩,
    (hN q hq hdecl).2⟩) fun v hv => ?_
  rw [List.mem_singleton.1 hv]
  exact ⟨hnamed, h.current_eq hm ho⟩

end

/-- Each step keeps names, if all are spelled alike. -/
theorem follows_located {left right : List Declaration} (halike : SpelledAlike left right)
    (groups : List Declaration) (first : Nat) :
    Follows "" right groups fun _ t stack done => Located (left ++ right) first t stack done where
  close h := ⟨h.declared, h.origin, fun o ho => h.opened o (List.mem_cons_of_mem _ ho), h.named,
    h.current⟩
  comments {_ _ _ _ _ _ done _} _ _ _ _ hi := by
    rw [← List.append_nil done]
    exact hi.grown [] (Tree.grown_entry (Entry.growsTo_addComments _ _) (.inl rfl)) (by simp)
      (by simp)
  leaf {m t m' t' e stack done later} hall he hm ho hi hm' _ hcase := by
    have hy : visited m stack e ∈ right := by simp [hall]
    obtain ⟨hnew, hnamed⟩ := hcase.named hi hm hm' he (List.mem_append_right _ hy)
      fun x hx hkey => halike x hx _ hy hkey
    exact hi.visit hm ho hnew hnamed
  scope {m t m' t' i e stack done later} hall he hm ho hi hm' _ hcase := by
    have hy : visited m stack e ∈ right := by simp [hall]
    obtain ⟨hnew, hnamed, hmem⟩ := hcase.named hi hm hm' he (List.mem_append_right _ hy)
      fun x hx hkey => halike x hx _ hy hkey
    have hnext := hi.visit hm ho hnew hnamed
    refine ⟨hnext.declared, hnext.origin, fun o ho => ?_, hnext.named, hnext.current⟩
    rcases List.mem_cons.1 ho with rfl | ho
    · -- The scope that was opened is one of those that the declaration went into.
      obtain ⟨p, hp, hid, hscope, -⟩ := hcase.exists_opened hm he
      obtain ⟨q, hq, hid', -, hkeys⟩ := hnamed i hmem
      obtain rfl := hm'.shows.eq_of_id hp hq (hid.trans hid'.symm)
      refine ⟨p, hp, hid, List.singleton_inj.1 ?_⟩
      rw [← Kind.keys_of_scope hscope, ← Kind.keys_of_scope he]
      exact hkeys
    · exact hnext.opened o ho

/-- What the first pass leaves is where it was declared. -/
theorem located_firstTree {m : Merger} {left : Outline} (hl : left.isConflictFree = true)
    (hm : m.Stands (firstTree { root := left })) (right : List Declaration) :
    Located (left.declarations ++ right) m.output.size (firstTree { root := left }) [] [] where
  declared p hp hdecl := by
    have hmem : p.declaration ∈ left.declarations := by
      have h := List.mem_map_of_mem (f := Place.declaration) (mem_declaredPlaces.2 ⟨hp, hdecl⟩)
      rwa [declarations_firstTree hl] at h
    exact ⟨_, List.mem_append_left _ hmem, .same _, rfl⟩
  origin p hp _ := by
    refine .inl (hm.shows.lt_size ?_)
    rw [← Tree.map_id_places]
    exact List.mem_map_of_mem hp
  opened o ho := by cases ho
  named v hv := by cases hv
  current v hv := by cases hv

end Merger

/-- **A merge keeps names.** Texts that can be read can be merged. If their declarations are spelled
alike, each one of the second text is visited while a scope of the merge is current that has the
name of the scope that it is written in. What it goes into is part of the merge, under the names
that the declaration has in its own file, and all other declarations of the merge were there
before. -/
theorem merge_keeps_names (labels : Labels) {left right : String}
    {leftFile rightFile : Option String} {l r : Reading} (hl : read left leftFile = .ok l)
    (hr : read right rightFile = .ok r)
    (halike : SpelledAlike l.root.declarations r.root.declarations) :
    ∃ m res, ({ labels } : Merger).add { root := l.root } = .ok m ∧
      merge labels { root := l.root } { root := r.root } = .ok res ∧
      (m.visits { root := r.root }).map (Merger.Visit.declaration "") = r.root.declarations ∧
      (∀ v ∈ m.visits { root := r.root },
        (v.merger.output.qualifiedName? (Merger.currentScope v.scopes)).getD "" =
          (v.declaration "").path ∧
        v.nodes "" ≠ [] ∧
        ∀ n ∈ v.nodes "", n ∈ res.forest.descendants Forest.root ∧
          res.forest.indexKeys n = (v.declaration "").keys) ∧
      ∀ n ∈ res.forest.descendants Forest.root, (res.forest.kind n).isDeclaration = true →
        n < m.output.size ∨ ∃ v ∈ m.visits { root := r.root }, n ∈ v.nodes "" := by
  have hfree : ({ root := l.root } : Source).root.isConflictFree = true := read_isConflictFree hl
  have hfree' : ({ root := r.root } : Source).root.isConflictFree = true := read_isConflictFree hr
  obtain ⟨m, hadd, hfirst, -⟩ := Merger.add_first labels hfree
  obtain ⟨m₁, m', t, g, t', hadd₁, -, hm, -, hvisits, hi, hmerge, hshows, htop, hall⟩ :=
    (Merger.follows_located halike _ m.output.size).merge labels hfree hfree'
      fun _ _ _ _ => Merger.located_firstTree hfree hfirst _
  obtain rfl : m₁ = m := Except.ok.inj (hadd₁.symm.trans hadd)
  have hgroup : t'.kind = .group := hm.group_of_absorbsAll hall
  refine ⟨m₁, _, hadd, hmerge, hvisits, fun v hv => ⟨hi.current v hv, v.nodes_ne_nil "", ?_⟩, ?_⟩
  · intro n hn
    obtain ⟨p, hp, rfl, hdecl, hkeys⟩ := hi.named v hv n hn
    obtain ⟨hmem, -, hindex, -⟩ := hshows.kept_of_isDeclaration htop hgroup hall hm.shaped hp hdecl
    exact ⟨hmem, hindex.trans hkeys⟩
  · intro n hn hdecl
    obtain ⟨q, hq, rfl⟩ : ∃ q ∈ t'.places, q.id = n := by
      have hmem := List.mem_cons_of_mem Forest.root hn
      rw [hshows.reached_eq htop] at hmem
      exact List.mem_map.1 hmem
    obtain ⟨p, hp, hmoved⟩ := Tree.AbsorbsAll.exists_old hall hm.shaped.paired hq
    rw [hshows.kind_of_mem hq, Place.kind, hmoved.entry_eq, ← Place.kind] at hdecl
    rw [hmoved.id_eq]
    exact hi.origin p hp hdecl

/-- A class written as a path is folded into one that is nested, and another one is set against a
constant of its name. Both keep their names. -/
theorem merge_keeps_names_of_trucks :
    ∃ l r m res,
      read "module Cars\n  class Truck\n  end\n  MAX = 1\nend\n" none = .ok l ∧
      read "class Cars::Truck\nend\n\nmodule Cars\n  class MAX\n  end\nend\n" none = .ok r ∧
      ({ labels := ⟨"left", "right"⟩ } : Merger).add { root := l.root } = .ok m ∧
      merge ⟨"left", "right"⟩ { root := l.root } { root := r.root } = .ok res ∧
      ∀ v ∈ m.visits { root := r.root }, ∀ n ∈ v.nodes "",
        res.forest.indexKeys n = (v.declaration "").keys := by
  have hcheck : (match read "module Cars\n  class Truck\n  end\n  MAX = 1\nend\n" none,
      read "class Cars::Truck\nend\n\nmodule Cars\n  class MAX\n  end\nend\n" none with
    | .ok l, .ok r => decide (SpelledAlike l.root.declarations r.root.declarations)
    | _, _ => false) = true := by decide +kernel
  split at hcheck
  · rename_i l r hl hr
    obtain ⟨m, res, hadd, hmerge, -, hvisits, -⟩ :=
      merge_keeps_names ⟨"left", "right"⟩ hl hr (of_decide_eq_true hcheck)
    exact ⟨l, r, m, res, hl, hr, hadd, hmerge, fun v hv n hn => ((hvisits v hv).2.2 n hn).2⟩
  · cases hcheck

/-- The names of each declaration of the second text, each with those that the nodes it goes into
have in the merge. -/
def namesInMerge (left right : String) : Option (List (List String × List (List String))) := do
  let l ← (read left none).toOption
  let r ← (read right none).toOption
  let m ← (({ labels := ⟨"left", "right"⟩ } : Merger).add { root := l.root }).toOption
  let res ← (merge ⟨"left", "right"⟩ { root := l.root } { root := r.root }).toOption
  return (m.visits { root := r.root }).map fun v =>
    ((v.declaration "").keys, (v.nodes "").map res.forest.indexKeys)

/-- If a class written as a path is set against a constant, the copy comes to stand in the module of
the constant and is written as a path there too, so it gets another name. It is then not found when
it is opened once more. -/
theorem namesInMerge_of_path_against_const :
    namesInMerge "module A\n  B = 1\nend\n"
      "class A::B\n  def x; end\nend\n\nclass A::B\n  def y; end\nend\n" =
    some [(["A::B"], [["A::A::B"]]), (["A::B#x"], [["A::A::B#x"]]), (["A::B"], [["A::A::B"]]),
      (["A::B#y"], [["A::A::B#y"]])] := by
  decide +kernel

end StubMerge
