import StubMerge.Proofs.Merging
import StubMerge.Proofs.Traces

/-!
# Nothing is lost

Every declaration of the second of two outlines can be found again in the merge, under its name and
in its scope. Mostly there is a node that holds it: one that goes by its name and says at least as
much, or a copy of its own. A scope may also be told apart from the one that is there by the right
header of a conflict between headers, or be a third header for the scope, which only the list of
conflicts knows of. In each case there is one node that the body of the scope goes into, and what is
in the body is accounted for relative to that node.

`Merger.CoveredIn` states the cases for the tree of a merge. Names, scopes and entries outlast every
step and the coalescing at the end, and so does each case (`CoveredIn.grown`, `CoveredIn.covered`).
`Merger.Covered` states the cases for the forest of a finished merge, and `Merger.CoversAll` goes
through a whole outline, from scopes to their bodies.
-/

namespace StubMerge

/-! ## Holding a declaration -/

/-- Two headers are the same apart from the name. Whether two names are spellings of one depends on
where the headers stand, so that is asked of their keys. -/
inductive Scope.SameHeader : Scope → Scope → Prop
  | moduleOf (name name' : String) : SameHeader (.moduleOf name) (.moduleOf name')
  | classOf (name name' : String) (superclass : Option String) :
      SameHeader (.classOf name superclass) (.classOf name' superclass)
  | structOf (name name' : String) (members : List String) (keywordInit : Bool) :
      SameHeader (.structOf name members keywordInit) (.structOf name' members keywordInit)
  | singleton : SameHeader .singleton .singleton

theorem Scope.sameHeader_iff_agrees {s s' : Scope} : s.SameHeader s' ↔ s.agrees s' = true := by
  constructor
  · rintro (_ | _ | _ | _) <;> simp [Scope.agrees]
  · intro h
    cases s <;> cases s' <;> simp only [Scope.agrees, Bool.and_eq_true, beq_iff_eq,
      Bool.false_eq_true] at h
    · exact .moduleOf _ _
    · exact h ▸ .classOf _ _ _
    · obtain ⟨rfl, rfl⟩ := h
      exact .structOf _ _ _ _
    · exact .singleton

/-- The second leaf says all that the first one says. Visibility is not compared. -/
inductive Leaf.HeldBy : Leaf → Leaf → Prop
  | same (l : Leaf) : HeldBy l l
  | method (m : Method) (visibility : Visibility) (signatures : List Signature) :
      m.signatures ⊆ signatures →
      HeldBy (.method m) (.method { m with visibility, signatures })
  | attr (a : Attribute) (visibility : Visibility) (signatures : List Signature) :
      a.signatures ⊆ signatures → HeldBy (.attr a) (.attr { a with visibility, signatures })
  | enums (names names' : List String) : names ⊆ names' → HeldBy (.enums names) (.enums names')

/-- The second node declares all that the first one declares, the names of scopes apart. -/
inductive Kind.HeldBy : Kind → Kind → Prop
  | scope {s s' : Scope} : s'.SameHeader s → HeldBy (.scope s) (.scope s')
  | leaf {l l' : Leaf} : l.HeldBy l' → HeldBy (.leaf l) (.leaf l')

/-- Of two scopes that agree the one holds the other. -/
theorem Kind.heldBy_of_agrees {k k' : Kind} (h : k.agrees k' = true) (hk : k'.isScope = true) :
    k'.HeldBy k := by
  obtain ⟨s', rfl⟩ := Kind.exists_scope hk
  cases k with
  | scope s => exact .scope (Scope.sameHeader_iff_agrees.2 h)
  | _ => cases h

/-- What holds a declaration is one. -/
theorem Kind.HeldBy.isDeclaration {k k' : Kind} (h : k.HeldBy k') : k'.isDeclaration = true := by
  cases h <;> rfl

/-- What holds a declaration still holds it when it has grown. -/
theorem Kind.HeldBy.grown {k k₁ k₂ : Kind} (h : k.HeldBy k₁) (hg : k₁.GrowsTo k₂) :
    k.HeldBy k₂ := by
  cases hg with
  | same => exact h
  | method m sigs hm =>
    cases h with
    | leaf h =>
      cases h with
      | same => exact .leaf (.method m m.visibility sigs (by rw [hm]; exact List.nil_subset _))
      | method m₀ v s hs =>
        obtain rfl : s = [] := hm
        rw [List.subset_nil] at hs
        exact .leaf (.method m₀ v sigs (by rw [hs]; exact List.nil_subset _))
  | attr a sigs ha =>
    cases h with
    | leaf h =>
      cases h with
      | same => exact .leaf (.attr a a.visibility sigs (by rw [ha]; exact List.nil_subset _))
      | attr a₀ v s hs =>
        obtain rfl : s = [] := ha
        rw [List.subset_nil] at hs
        exact .leaf (.attr a₀ v sigs (by rw [hs]; exact List.nil_subset _))
  | enums names more =>
    cases h with
    | leaf h =>
      cases h with
      | same => exact .leaf (.enums names _ (List.subset_append_left _ _))
      | enums names₀ _ hs =>
        exact .leaf (.enums names₀ _ (List.Subset.trans hs (List.subset_append_left _ _)))

/-- One name under two separators gives two keys. -/
theorem isSingleton_eq_of_joinPath {path path' name : String} {b b' : Bool}
    (h : joinPath path (if b then pathSeparator else "#") name =
      joinPath path' (if b' then pathSeparator else "#") name) : b = b' := by
  -- A name that stands alone is shorter, and otherwise the separators end differently.
  have hne : ∀ path path' : String,
      joinPath path pathSeparator name ≠ joinPath path' "#" name := by
    intro path path' h
    have hr : joinPath path' "#" name = path' ++ "#" ++ name := by
      simp [joinPath, pathSeparator]
    rw [hr, joinPath] at h
    split at h
    · have hlen := congrArg (fun s : String => s.toList.length) h
      simp only [String.toList_append, List.length_append] at hlen
      have hone : ("#" : String).toList.length = 1 := rfl
      omega
    · have hlist := congrArg String.toList h
      simp only [String.toList_append] at hlist
      have hcut := List.append_cancel_right hlist
      have hlast := congrArg List.getLast? hcut
      have hsep : pathSeparator.toList = [':', ':'] := rfl
      have hhash : ("#" : String).toList = ['#'] := rfl
      simp [hsep, hhash] at hlast
  cases b <;> cases b'
  · rfl
  · exact absurd h.symm (hne path' path)
  · exact absurd h (hne path path')
  · rfl

/-- A leaf that agrees with a declaration of the same name holds it once it is folded in. -/
theorem Kind.heldBy_fold {k k' : Kind} (h : k.agrees k' = true) (hk : k'.isContainer = false)
    {path path' key : String} (hkey : key ∈ k.keys path) (hkey' : key ∈ k'.keys path') :
    k'.HeldBy (k.fold k') := by
  obtain ⟨l', rfl⟩ := Kind.exists_leaf hk
  cases k with
  | leaf l =>
    have hagrees : l.agrees l' = true := h
    refine .leaf ?_
    cases l <;> cases l' <;> simp only [Leaf.agrees, Bool.and_eq_true, beq_iff_eq,
      Bool.false_eq_true] at hagrees
    case method.method m m' =>
      obtain ⟨⟨hname, hparams⟩, -⟩ := hagrees
      simp only [Kind.keys, Leaf.keys, List.mem_singleton] at hkey hkey'
      have hsingle : m.isSingleton = m'.isSingleton :=
        isSingleton_eq_of_joinPath (hname ▸ hkey.symm.trans hkey')
      obtain ⟨name, b, v, params, sigs⟩ := m
      obtain ⟨name', b', v', params', sigs'⟩ := m'
      obtain rfl : name = name' := hname
      obtain rfl : b = b' := hsingle
      obtain rfl : params = params' := hparams
      exact .method _ v _ fun x hx => List.mem_appendNew.2 (.inr hx)
    case attr.attr a a' =>
      obtain ⟨⟨hkind, hnames⟩, -⟩ := hagrees
      obtain ⟨kind, names, v, sigs⟩ := a
      obtain ⟨kind', names', v', sigs'⟩ := a'
      obtain rfl : kind = kind' := hkind
      obtain rfl : names = names' := hnames
      exact .attr _ v _ fun x hx => List.mem_appendNew.2 (.inr hx)
    case enums.enums names names' => exact .enums _ _ fun x hx => List.mem_appendNew.2 (.inr hx)
    case const.const | typeMember.typeMember | mixin.mixin | send.send =>
      obtain ⟨rfl, rfl⟩ := hagrees
      exact .same _
    all_goals
      subst hagrees
      exact .same _
  | _ => cases h

/-! ## Covering a declaration -/

/-- A declaration goes by one of the names. -/
def Declaration.SharesKey (d : Declaration) (keys : List String) : Prop :=
  ∃ key ∈ d.keys, key ∈ keys

theorem Place.Kept.scope_eq {p q : Place} (h : p.Kept q) : q.scope = p.scope := by
  rw [Place.scope, Place.scope, scopeAlong, scopeAlong, h.above.scopes_eq]

theorem Place.scope_eq_of_scopes {p q : Place}
    (h : q.above.filter (fun st => st.kind.isScope) = p.above.filter fun st => st.kind.isScope) :
    q.scope = p.scope := by
  rw [scope, scope, scopeAlong, scopeAlong, h]

/-- Two places are the headers of one conflict. -/
structure Tree.Headers (t : Tree) (p q : Place) : Prop where
  left_mem : p ∈ t.places
  right_mem : q ∈ t.places
  left_slot : p.slot = .header .left
  right_slot : q.slot = .header .right
  same : p.above.head? = q.above.head?
  left_scope : p.kind.isScope = true
  right_scope : q.kind.isScope = true

theorem Tree.Headers.grown {t t' : Tree} {p q : Place} (h : t.Headers p q) {N : List Place}
    (hg : Grown N t.places t'.places) : ∃ p' q', t'.Headers p' q' ∧ p.Kept p' ∧ q.Kept q' := by
  obtain ⟨p', hp', hkp⟩ := hg.exists_kept h.left_mem
  obtain ⟨q', hq', hkq⟩ := hg.exists_kept h.right_mem
  have hslot : ∀ {p p' : Place}, p.Kept p' → p.slot ≠ .member → p'.slot = p.slot := by
    intro p p' hk hne
    rcases hk.slot with hs | ⟨-, hm, -⟩
    · exact hs
    · exact absurd hm hne
  have hp : p.slot ≠ .member := by rw [h.left_slot]; simp
  have hq : q.slot ≠ .member := by rw [h.right_slot]; simp
  refine ⟨p', q', ⟨hp', hq', ?_, ?_, ?_, ?_, ?_⟩, hkp, hkq⟩
  · rw [hslot hkp hp, h.left_slot]
  · rw [hslot hkq hq, h.right_slot]
  · rw [hkp.fixed hp, hkq.fixed hq, h.same]
  · rw [hkp.kind.isScope_eq, h.left_scope]
  · rw [hkq.kind.isScope_eq, h.right_scope]

namespace Merger

/-- What a merge writes down about a declaration that does not agree with what is declared at some
location. -/
def conflictOf (labels : Labels) (d : Declaration) (location : Option Location) : Conflict where
  labels
  description := d.keys.headD d.kind.noun
  noun := d.kind.noun
  leftLocation := location
  rightLocation := d.entry.location

/-- How a tree and a list of conflicts account for a declaration in a scope whose body goes into the
node `scope`. The last number is that of the node which its own body goes into, or which it is
found at. -/
inductive CoveredIn (labels : Labels) (t : Tree) (conflicts : List Conflict) (d : Declaration)
    (scope : NodeId) : NodeId → Prop
  | folded {p : Place} : p ∈ t.places → d.SharesKey p.keys → d.kind.HeldBy p.kind →
      d.entry.comments ⊆ p.entry.comments → CoveredIn labels t conflicts d scope p.id
  | copied {q : Place} : q ∈ t.places → d.kind.isDeclaration = true → d.entry.GrowsTo q.entry →
      (q.scope = scope ∨ ∃ p ∈ t.places, d.SharesKey p.keys ∧ q.scope = p.scope) →
      CoveredIn labels t conflicts d scope q.id
  | second {p q : Place} : t.Headers p q → d.kind.isScope = true → d.SharesKey p.keys →
      d.entry.GrowsTo q.entry → CoveredIn labels t conflicts d scope p.id
  | header {p q : Place} : t.Headers p q → d.kind.isScope = true → d.SharesKey p.keys →
      d.kind.HeldBy q.kind → d.entry.comments ⊆ p.entry.comments →
      CoveredIn labels t conflicts d scope p.id
  | recorded {p q : Place} : t.Headers p q → d.kind.isScope = true → d.SharesKey p.keys →
      p.kind.agrees d.kind = false → q.kind.agrees d.kind = false →
      conflictOf labels d p.entry.location ∈ conflicts → CoveredIn labels t conflicts d scope p.id

variable {labels : Labels} {t t' : Tree} {conflicts conflicts' : List Conflict} {d : Declaration}
  {m m' : Merger} {scopes : List NodeId} {scope i : NodeId}

/-- What is covered stays covered while the tree grows. -/
theorem CoveredIn.grown (h : CoveredIn labels t conflicts d scope i) {N : List Place}
    (hg : Grown N t.places t'.places) (hc : conflicts ⊆ conflicts') :
    CoveredIn labels t' conflicts' d scope i := by
  have hsame : ∀ {p p' : Place}, p.Kept p' → p.kind.isScope = true → p'.kind = p.kind := by
    intro p p' hk hs
    exact hk.kind.eq_of_container (Kind.isContainer_of_scope hs)
  cases h with
  | folded hp hkey hheld hcomments =>
    obtain ⟨q, hq, hk⟩ := hg.exists_kept hp
    rw [← hk.id_eq]
    exact .folded hq (by rwa [hk.keys_eq]) (hheld.grown hk.kind)
      fun x hx => hk.entry.comments.subset (hcomments hx)
  | copied hq hd hgrows hscope =>
    obtain ⟨q', hq', hk⟩ := hg.exists_kept hq
    rw [← hk.id_eq]
    refine .copied hq' hd (hgrows.trans hk.entry) ?_
    rw [hk.scope_eq]
    refine hscope.imp_right ?_
    rintro ⟨p, hp, hkey, hscope⟩
    obtain ⟨p', hp', hkp⟩ := hg.exists_kept hp
    exact ⟨p', hp', by rwa [hkp.keys_eq], by rw [hkp.scope_eq, hscope]⟩
  | second hpq hd hkey hgrows =>
    obtain ⟨p', q', hpq', hkp, hkq⟩ := hpq.grown hg
    rw [← hkp.id_eq]
    exact .second hpq' hd (by rwa [hkp.keys_eq]) (hgrows.trans hkq.entry)
  | header hpq hd hkey hheld hcomments =>
    obtain ⟨p', q', hpq', hkp, hkq⟩ := hpq.grown hg
    rw [← hkp.id_eq]
    exact .header hpq' hd (by rwa [hkp.keys_eq]) (hheld.grown hkq.kind)
      fun x hx => hkp.entry.comments.subset (hcomments hx)
  | recorded hpq hd hkey hp hq hmem =>
    obtain ⟨p', q', hpq', hkp, hkq⟩ := hpq.grown hg
    rw [← hkp.id_eq]
    refine .recorded hpq' hd (by rwa [hkp.keys_eq]) ?_ ?_ ?_
    · rwa [hsame hkp hpq.left_scope]
    · rwa [hsame hkq hpq.right_scope]
    · rw [hkp.entry.location]
      exact hc hmem

theorem record_conflicts (m : Merger) (keys : List String) (e : Entry) (i : NodeId) :
    m.conflicts.toList ⊆ (m.record keys e i).conflicts.toList := by
  simp [record]

/-! ## What each step covers -/

theorem AddsLeaf.conflicts_subset {keys : List String} {e : Entry}
    (h : AddsLeaf m scopes keys e t m' t') : m.conflicts.toList ⊆ m'.conflicts.toList := by
  cases h with
  | new _ _ _ hc | fold _ _ _ hc => rw [hc]; exact List.Subset.refl _
  | oppose _ _ _ _ hc _ => rw [hc]; exact m.record_conflicts _ _ _

theorem OpensScope.conflicts_subset {keys : List String} {e : Entry} {i : NodeId}
    (h : OpensScope m scopes keys e t m' t' i) : m.conflicts.toList ⊆ m'.conflicts.toList := by
  cases h with
  | new _ _ _ hc | fold _ _ _ hc | foldOther _ _ _ _ _ _ _ hc => rw [hc]; exact List.Subset.refl _
  | oppose _ _ _ _ hc _ | third _ _ _ _ _ _ _ hc | second _ _ _ _ hc =>
    rw [hc]
    exact m.record_conflicts _ _ _

/-- What is put into the innermost open scope is a copy in that scope. -/
theorem CoveredIn.of_append {n : NodeId} {e : Entry} {cs : List Tree} {K : Frames}
    (hm : m.Stands ((Tree.node (currentScope scopes) e cs).under K))
    (ho : Open ((Tree.node (currentScope scopes) e cs).under K) scopes)
    (he : e.kind.isConflict = false) (hd : d.kind.isDeclaration = true) :
    CoveredIn labels
      ((Tree.node (currentScope scopes) e (cs ++ [.node n d.entry []])).under K) conflicts d
      (currentScope scopes) n := by
  have hg : Grown _ ((Tree.node (currentScope scopes) e cs).under K).places _ :=
    Tree.grown_append (.node n d.entry []) he
  refine .copied (q := ⟨n, d.entry, .member, ⟨currentScope scopes, e.kind, Frames.slot K⟩ ::
    Frames.steps K⟩) (hg.mem_of_new (by simp [Tree.placesAt])) hd (.refl _) (.inl ?_)
  exact hm.scopeAlong_current ho

/-- What is set against a node that goes by its name is a copy in the scope of that node. -/
theorem CoveredIn.of_sets {l : Labels} {n n' : NodeId} {p : Place}
    (h : Sets l n' p (.node n d.entry []) t t') (hp : p ∈ t.places) (hkey : d.SharesKey p.keys)
    (hd : d.kind.isDeclaration = true) : CoveredIn labels t' conflicts d scope n := by
  obtain ⟨q, hq, hid, hentry, -, hscopes⟩ := h.exists_copy
  obtain ⟨W, i, a, hg, -⟩ := h.grown
  obtain ⟨p', hp', hk⟩ := hg.exists_kept hp
  obtain rfl : q.id = n := hid
  refine .copied hq hd ?_ (.inr ⟨p', hp', ?_, ?_⟩)
  · rw [hentry]
    exact .refl _
  · rwa [hk.keys_eq]
  · rw [hk.scope_eq]
    exact Place.scope_eq_of_scopes hscopes

theorem AddsLeaf.covers (h : AddsLeaf m scopes d.keys d.entry t m' t') (hm : m.Stands t)
    (ho : Open t scopes) (hd : d.kind.isContainer = false) :
    ∃ i, CoveredIn labels t' m'.conflicts.toList d (currentScope scopes) i := by
  have hdecl : d.kind.isDeclaration = true := Kind.isDeclaration_of_leaf hd
  cases h with
  | new _ he _ _ => exact ⟨_, .of_append hm ho he hdecl⟩
  | @fold K i e _ hprev hlisted hagree _ =>
    obtain ⟨key, hkey, hkey'⟩ := hm.shares_key (Tree.placeIn_mem_places (.node i e []) K) hprev
    have hkeys : ((Tree.node i (e.fold d.entry) []).placeIn K).keys =
        ((Tree.node i e []).placeIn K).keys := (Kind.growsTo_fold hagree).keys_eq _
    refine ⟨_, .folded (Tree.placeIn_mem_places (.node i (e.fold d.entry) []) K) ?_ ?_ ?_⟩
    · exact ⟨key, hkey, hkeys ▸ hkey'⟩
    · exact Kind.heldBy_fold hagree hd hkey' hkey
    · exact fun x hx => List.mem_appendNew.2 (.inr hx)
  | oppose hprev hp _ _ _ hsets => exact ⟨_, .of_sets hsets hp (hm.shares_key hp hprev) hdecl⟩

/-- The two headers of a conflict, as places. -/
theorem headers_under {k : Frame} {K : Frames} {i : NodeId} {e : Entry} {cs : List Tree} {b : Tree}
    {l : Labels} (h : ((Tree.node i e cs).under (k :: K)).Shaped)
    (hk : k.entry.kind = .scopeConflict l) (hbefore : k.before = []) (hafter : k.after = [b]) :
    ((Tree.node i e cs).under (k :: K)).Headers ((Tree.node i e cs).placeIn (k :: K))
      (b.placeIn (⟨k.id, k.entry, [.node i e cs], []⟩ :: K)) := by
  have hview : (Tree.node i e cs).under (k :: K) =
      b.under (⟨k.id, k.entry, [.node i e cs], []⟩ :: K) := by
    simp [Tree.under, Frame.fill, hbefore, hafter]
  have hleft : Frames.slot (k :: K) = .header .left := by
    simp [Frames.slot, hk, hbefore, Kind.slot]
  have hright : Frames.slot (⟨k.id, k.entry, [.node i e cs], []⟩ :: K) = .header .right := by
    simp [Frames.slot, hk, Kind.slot]
  refine ⟨Tree.placeIn_mem_places _ _, ?_, hleft, hright, rfl, h.of_header hleft, ?_⟩
  · rw [hview]
    exact Tree.placeIn_mem_places _ _
  · rw [hview] at h
    exact h.of_header hright

theorem OpensScope.covers (h : OpensScope m scopes d.keys d.entry t m' t' i)
    (hm : m.Stands t) (ho : Open t scopes) (ht' : t'.Shaped) (hd : d.kind.isScope = true) :
    CoveredIn m.labels t' m'.conflicts.toList d (currentScope scopes) i := by
  have hdecl : d.kind.isDeclaration = true := Kind.isDeclaration_of_scope hd
  cases h with
  | new _ he _ _ => exact .of_append hm ho he hdecl
  | oppose hprev hp _ _ _ hsets => exact .of_sets hsets hp (hm.shares_key hp hprev) hdecl
  | @fold K i e cs _ hprev _ hagree _ =>
    have hkey := hm.shares_key (Tree.placeIn_mem_places (.node i e cs) K) hprev
    have hmem := Tree.placeIn_mem_places (.node i (e.addComments d.entry.comments) cs) K
    exact .folded hmem hkey (Kind.heldBy_of_agrees hagree hd)
      fun x hx => List.mem_appendNew.2 (.inr hx)
  | @foldOther k K i e cs b l _ hprev hk hbefore hafter _ _ hagree _ =>
    have hkey := hm.shares_key (Tree.placeIn_mem_places (.node i e cs) (k :: K)) hprev
    exact .header (headers_under ht' hk hbefore hafter) hd hkey (Kind.heldBy_of_agrees hagree hd)
      fun x hx => List.mem_appendNew.2 (.inr hx)
  | @third k K i e cs b l _ hprev hk hbefore hafter _ hagree hagreeb hc =>
    have hpq := headers_under ht' hk hbefore hafter
    refine .recorded hpq hd (hm.shares_key hpq.left_mem hprev) hagree hagreeb ?_
    have hentry : m.output.entry i = e := hm.shows.entry_of_mem hpq.left_mem
    rw [hc, record, hentry]
    exact Array.mem_toList_iff.2 Array.mem_push_self
  | @second K i e cs _ hprev hK he _ _ =>
    -- The scope comes to stand below the conflict, which adds nothing to its path.
    let conflict : Frame := ⟨m.output.size, { kind := .scopeConflict m.labels }, [],
      [.node (m.output.size + 1) d.entry []]⟩
    have hpq : Tree.Headers _ ((Tree.node i e cs).placeIn (conflict :: K)) _ :=
      headers_under (k := conflict) ht' rfl rfl rfl
    have hkey := hm.shares_key (Tree.placeIn_mem_places (.node i e cs) K) hprev
    exact .second hpq hd hkey (.refl _)

/-! ## What a pass covers -/

/-- The node that a body goes into depends only on what is found for the header. -/
theorem OpensScope.eq_found {keys : List String} {e : Entry}
    (h : OpensScope m scopes keys e t m' t' i) (hm : m.Stands t) :
    i = match m.previous? scopes keys e.kind with
      | none => m.output.size
      | some p => if (m.output.kind p).isScope then p else m.output.size := by
  have hfound : ∀ {e' : Entry} {cs : List Tree} {K : Frames}, t = (Tree.node i e' cs).under K →
      e'.kind.isScope = true → (m.output.kind i).isScope = true := by
    intro e' cs K ht he'
    have hshows := hm.shows
    rw [ht] at hshows
    have hkind : m.output.kind i = e'.kind := hshows.kind_eq
    rwa [hkind]
  cases h with
  | new hprev => rw [hprev]
  | oppose hprev hp _ hleaf =>
    simp only [hprev, hm.shows.kind_of_mem hp, hleaf, Bool.false_eq_true, if_false]
  | fold hprev he | second hprev _ he => simp only [hprev, hfound rfl he, if_true]
  | foldOther hprev _ _ _ he | third hprev _ _ _ he => simp only [hprev, hfound rfl he, if_true]

/-- The node that a body goes into is the one that opening the scope returns. -/
theorem OpensScope.openScope_eq {path : String} {e : Entry}
    (h : OpensScope m scopes (e.kind.keys path) e t m' t' i) (hm : m.Stands t) (ho : Open t scopes)
    (he : e.kind.isScope = true) : ∃ m'', m.openScope scopes path e = .ok (m'', i) := by
  obtain ⟨m'', t'', j, hopen, -, -, -, hcase⟩ := openScope_spec hm ho he path
  obtain rfl : i = j := (h.eq_found hm).trans (hcase.eq_found hm).symm
  exact ⟨m'', hopen⟩

/-- `C` relates a declaration that is visited and the innermost scope that is open at the time to
some node, which is the one that its body goes into if it is a scope. -/
def Visit.LeadsTo (base : String) (C : Declaration → NodeId → NodeId → Prop) (v : Visit) : Prop :=
  ∃ i, C (v.declaration base) (currentScope (v.stack.map Opened.id)) i ∧
    (v.entry.kind.isScope = true → ∃ m',
      v.merger.openScope (v.stack.map Opened.id) (pathIn base v.stack) v.entry = .ok (m', i))

theorem Visit.LeadsTo.imp {base : String} {C C' : Declaration → NodeId → NodeId → Prop} {v : Visit}
    (h : v.LeadsTo base C) (hC : ∀ {d scope i}, C d scope i → C' d scope i) :
    v.LeadsTo base C' := by
  obtain ⟨i, hi, hopen⟩ := h
  exact ⟨i, hC hi, hopen⟩

/-- Whatever was visited stays covered. -/
theorem follows_covered (labels : Labels) (base : String) (all groups : List Declaration) :
    Follows base all groups fun m t _ done => m.labels = labels ∧
      ∀ v ∈ done, v.LeadsTo base (CoveredIn labels t m.conflicts.toList) where
  close h := h
  comments {m i e cs K stack done g} _ _ _ hm hi :=
    ⟨hi.1, fun v hv => (hi.2 v hv).imp fun h =>
      h.grown (hm.unionComments g.entry.comments).2 (List.Subset.refl _)⟩
  leaf {m t m' t' e stack done later} _ he hm ho hi _ hlabels hcase := by
    obtain ⟨N, hg⟩ := hcase.grown
    refine ⟨hlabels.trans hi.1, fun v hv => ?_⟩
    rcases List.mem_append.1 hv with hv | hv
    · exact (hi.2 v hv).imp fun h => h.grown hg hcase.conflicts_subset
    · obtain ⟨i, hcovered⟩ := AddsLeaf.covers (d := ⟨e, _, _⟩) hcase hm ho he
      rw [List.mem_singleton.1 hv]
      refine ⟨i, hcovered, fun hscope => ?_⟩
      rw [Kind.isContainer_of_scope hscope] at he
      cases he
  scope {m t m' t' i e stack done later} _ he hm ho hi hm' hlabels hcase := by
    obtain ⟨N, hg⟩ := hcase.grown
    refine ⟨hlabels.trans hi.1, fun v hv => ?_⟩
    rcases List.mem_append.1 hv with hv | hv
    · exact (hi.2 v hv).imp fun h => h.grown hg hcase.conflicts_subset
    · rw [List.mem_singleton.1 hv, ← hi.1]
      exact ⟨i, OpensScope.covers (d := ⟨e, _, _⟩) hcase hm ho hm'.shaped he,
        fun _ => hcase.openScope_eq hm ho he⟩

end Merger

/-! ## The finished merge -/

/-- Declarations are not there for a conflict. -/
theorem Tree.Shaped.not_wrapper {t : Tree} (h : t.Shaped) {p : Place} (hp : p ∈ t.places)
    (hk : p.kind.isDeclaration = true) : p.step.isWrapper = false := by
  obtain ⟨K, s, rfl, rfl⟩ := mem_places.1 hp
  have hdecl : s.kind.isDeclaration = true := hk
  have hconf : s.kind.isConflict = false := by
    cases hs : s.kind with
    | conflict l | scopeConflict l =>
      rw [hs] at hdecl
      cases hdecl
    | _ => rfl
  have hstep : (s.placeIn K).step = ⟨s.id, s.kind, Frames.slot K⟩ := rfl
  rw [hstep, Step.isWrapper, hconf]
  cases hK : Frames.slot K with
  | side x =>
    have hgroup : s.kind = .group := (h.of_side hK).1
    rw [hgroup] at hdecl
    cases hdecl
  | _ => rfl

theorem Place.Moved.keys_eq {p q : Place} (h : p.Moved q) : q.keys = p.keys := by
  rw [Place.keys, Place.keys, Place.path_eq_of_scopes h.scopes, Place.kind, Place.kind, h.entry_eq]

theorem Tree.Headers.moved {t t' : Tree} {p q : Place} (h : t.Headers p q) (hall : t.AbsorbsAll t')
    (ht : t.Shaped) : ∃ p' q', t'.Headers p' q' ∧ p.Moved p' ∧ q.Moved q' := by
  obtain ⟨p', hp', hmp⟩ := hall.exists_moved ht.paired h.left_mem
    (ht.not_wrapper h.left_mem (Kind.isDeclaration_of_scope h.left_scope))
  obtain ⟨q', hq', hmq⟩ := hall.exists_moved ht.paired h.right_mem
    (ht.not_wrapper h.right_mem (Kind.isDeclaration_of_scope h.right_scope))
  refine ⟨p', q', ⟨hp', hq', hmp.slot_eq.trans h.left_slot, hmq.slot_eq.trans h.right_slot, ?_, ?_,
    ?_⟩, hmp, hmq⟩
  · rw [hmp.fixed (by simp [h.left_slot]), hmq.fixed (by simp [h.right_slot]), h.same]
  · rw [Place.kind, hmp.entry_eq]
    exact h.left_scope
  · rw [Place.kind, hmq.entry_eq]
    exact h.right_scope

namespace Forest

/-- The scope that a node is in; the root if it is in none. -/
def scopeOf (f : Forest) (i : NodeId) : NodeId := (f.scopesAbove i).headD root

/-- A node below the root is a conflict between the headers of two nodes. -/
def HeadersAt (f : Forest) (c l r : NodeId) : Prop :=
  c ∈ f.descendants root ∧ (∃ lb, f.kind c = .scopeConflict lb) ∧ f.children c = [l, r]

variable {f : Forest} {t : Tree} {ts : List Tree} {p q : Place}

/-- A header is one of the two children of what is above it. -/
theorem Shows.children_of_header (h : f.Shows (t :: ts)) (ht : t.Paired) (hp : p ∈ t.places)
    {side : Side} (hslot : p.slot = .header side) :
    ∃ st l r lb, p.above.head? = some st ∧ st.kind = .scopeConflict lb ∧
      f.children st.id = [l, r] ∧ p.id = side.pick l r := by
  obtain ⟨K, s, rfl, rfl⟩ := Tree.mem_places.1 hp
  obtain ⟨k, K, lb, rfl, hk, hfirst⟩ := Frames.exists_of_slot_header (K := K) hslot
  have hat : Tree.PairedAt k.entry.kind (k.before ++ s :: k.after) := ht.at_frame
  rw [hk] at hat
  obtain ⟨a, b, heq, -, -⟩ := hat
  have hchildren : f.children k.id = (k.before ++ s :: k.after).map Tree.id :=
    Shows.children_eq (s := k.fill s) (K := K) h
  rw [heq] at hchildren
  refine ⟨_, a.id, b.id, lb, rfl, hk, hchildren, ?_⟩
  rcases Tree.Shaped.eq_pair_cases heq with ⟨hbefore, rfl, -⟩ | ⟨hbefore, rfl, -⟩
  · obtain rfl := hfirst.1 hbefore
    rfl
  · cases side with
    | left => simp [hbefore] at hfirst
    | right => rfl

theorem Shows.mem_descendants (h : f.Shows (t :: ts)) (ht : t.id = root) (hgroup : t.kind = .group)
    (hp : p ∈ t.places) (hk : p.kind ≠ .group) : p.id ∈ f.descendants root := by
  have hmem : p.id ∈ root :: f.descendants root := by
    rw [h.reached_eq ht]
    exact List.mem_map_of_mem hp
  rcases List.mem_cons.1 hmem with hid | hmem
  · refine absurd ?_ hk
    rw [← h.kind_of_mem hp, hid, ← ht, Shows.kind_eq (s := t) (K := []) h, hgroup]
  · exact hmem

theorem Shows.headersAt (h : f.Shows (t :: ts)) (ht : t.id = root) (hgroup : t.kind = .group)
    (hpaired : t.Paired) (hpq : t.Headers p q) : ∃ c, f.HeadersAt c p.id q.id := by
  obtain ⟨st, l, r, lb, hst, hkind, hchildren, hl⟩ :=
    h.children_of_header hpaired hpq.left_mem hpq.left_slot
  obtain ⟨st', l', r', -, hst', -, hchildren', hr⟩ :=
    h.children_of_header hpaired hpq.right_mem hpq.right_slot
  obtain rfl : st = st' := Option.some.inj (hst.symm.trans (hpq.same.trans hst'))
  obtain ⟨w, hw, hstep⟩ := Tree.exists_place_of_step hpq.left_mem (List.mem_of_mem_head? hst)
  have hwkind : w.kind = .scopeConflict lb := by rw [← hkind, ← hstep]; rfl
  have hwid : w.id = st.id := by rw [← hstep]; rfl
  refine ⟨w.id, h.mem_descendants ht hgroup hw (by rw [hwkind]; simp), ⟨lb, ?_⟩, ?_⟩
  · rw [h.kind_of_mem hw, hwkind]
  · rw [hwid, hchildren, hl, hr]
    have hpair : [l, r] = [l', r'] := hchildren.symm.trans hchildren'
    simp only [List.cons.injEq, and_true] at hpair
    rw [Side.pick, Side.pick, hpair.2]

theorem Shows.scopeOf_of_mem (h : f.Shows (t :: ts)) (hp : p ∈ t.places) :
    f.scopeOf p.id = p.scope := by
  rw [scopeOf, h.scopesAbove_of_mem hp]
  rfl

end Forest

/-! ### What the end of a merge keeps -/

section

variable {g : Forest} {t t' : Tree} {p q : Place} (hshows : g.Shows [t'])
  (htop : t'.id = Forest.root) (hgroup : t'.kind = .group) (hall : t.AbsorbsAll t')
  (ht : t.Shaped)

include hshows htop hgroup hall ht

/-- A place at which something is declared is still there after conflicts were coalesced, with its
entry, its names and its scope. -/
theorem Forest.Shows.kept_of_isDeclaration (hp : p ∈ t.places)
    (hk : p.kind.isDeclaration = true) :
    p.id ∈ g.descendants Forest.root ∧ g.entry p.id = p.entry ∧ g.indexKeys p.id = p.keys ∧
      g.scopeOf p.id = p.scope := by
  obtain ⟨q, hq, hm⟩ := hall.exists_moved ht.paired hp (ht.not_wrapper hp hk)
  rw [← hm.id_eq]
  refine ⟨hshows.mem_descendants htop hgroup hq ?_, ?_, ?_, ?_⟩
  · intro hqgroup
    have hkind : p.kind = .group := by rw [← hqgroup, Place.kind, Place.kind, hm.entry_eq]
    rw [hkind] at hk
    cases hk
  · rw [hshows.entry_of_mem hq, hm.entry_eq]
  · rw [hshows.indexKeys_of_mem hq, hm.keys_eq]
  · rw [hshows.scopeOf_of_mem hq, Place.scope_eq_of_scopes hm.scopes]

/-- Two headers of one conflict stay so, with their entries and names. -/
theorem Forest.Shows.kept_of_headers (hpq : t.Headers p q) :
    (∃ c, g.HeadersAt c p.id q.id) ∧ g.entry p.id = p.entry ∧ g.entry q.id = q.entry ∧
      g.indexKeys p.id = p.keys := by
  obtain ⟨p', q', hpq', hmp, hmq⟩ := hpq.moved hall ht
  obtain ⟨c, hc⟩ := hshows.headersAt htop hgroup (hall.paired ht.paired) hpq'
  rw [hmp.id_eq, hmq.id_eq] at hc
  obtain ⟨-, hentry, hkeys, -⟩ := hshows.kept_of_isDeclaration htop hgroup hall ht hpq.left_mem
    (Kind.isDeclaration_of_scope hpq.left_scope)
  obtain ⟨-, hentry', -, -⟩ := hshows.kept_of_isDeclaration htop hgroup hall ht hpq.right_mem
    (Kind.isDeclaration_of_scope hpq.right_scope)
  exact ⟨⟨c, hc⟩, hentry, hentry', hkeys⟩

end

namespace Merger

/-- How a finished merge accounts for a declaration in a scope whose body went into the node
`scope`. The last number is that of the node which its own body went into, or which it is found
at. -/
inductive Covered (labels : Labels) (res : Result) (d : Declaration) (scope : NodeId) :
    NodeId → Prop
  /-- A node that goes by its name says all that it says. -/
  | folded {o : NodeId} : o ∈ res.forest.descendants Forest.root →
      d.SharesKey (res.forest.indexKeys o) → d.kind.HeldBy (res.forest.kind o) →
      d.entry.comments ⊆ (res.forest.entry o).comments → Covered labels res d scope o
  /-- It has a node of its own, in its scope or in that of a node which goes by its name. -/
  | copied {o : NodeId} : o ∈ res.forest.descendants Forest.root →
      d.entry.GrowsTo (res.forest.entry o) →
      (res.forest.scopeOf o = scope ∨ ∃ p ∈ res.forest.descendants Forest.root,
        d.SharesKey (res.forest.indexKeys p) ∧ res.forest.scopeOf o = res.forest.scopeOf p) →
      Covered labels res d scope o
  /-- It is a scope and has the right one of two headers for itself. The left one goes by its name,
  and its body is there. -/
  | second {c l r : NodeId} : res.forest.HeadersAt c l r → d.kind.isScope = true →
      d.SharesKey (res.forest.indexKeys l) → d.entry.GrowsTo (res.forest.entry r) →
      Covered labels res d scope l
  /-- It is a scope that goes by the name of two headers, the right one says all that its own says,
  and its comments are at the left one. -/
  | header {c l r : NodeId} : res.forest.HeadersAt c l r → d.kind.isScope = true →
      d.SharesKey (res.forest.indexKeys l) → d.kind.HeldBy (res.forest.kind r) →
      d.entry.comments ⊆ (res.forest.entry l).comments → Covered labels res d scope l
  /-- It is a scope that goes by the name of two headers and agrees with neither, and there is a
  record of that. -/
  | recorded {c l r : NodeId} : res.forest.HeadersAt c l r → d.kind.isScope = true →
      d.SharesKey (res.forest.indexKeys l) → (res.forest.kind l).agrees d.kind = false →
      (res.forest.kind r).agrees d.kind = false →
      conflictOf labels d (res.forest.entry l).location ∈ res.conflicts →
      Covered labels res d scope l

/-- What the tree of a merge covers, the finished merge covers. -/
theorem CoveredIn.covered {labels : Labels} {t t' : Tree} {conflicts : List Conflict}
    {d : Declaration} {scope i : NodeId} {g : Forest}
    (h : CoveredIn labels t conflicts d scope i) (hall : t.AbsorbsAll t') (ht : t.Shaped)
    (hshows : g.Shows [t']) (htop : t'.id = Forest.root) (hgroup : t'.kind = .group) :
    Covered labels ⟨g, conflicts⟩ d scope i := by
  cases h with
  | folded hp hkey hheld hcomments =>
    obtain ⟨hmem, hentry, hkeys, -⟩ :=
      hshows.kept_of_isDeclaration htop hgroup hall ht hp hheld.isDeclaration
    refine .folded hmem ?_ ?_ ?_
    · rwa [hkeys]
    · rwa [Forest.kind, hentry]
    · rwa [hentry]
  | copied hq hd hgrows hscope =>
    obtain ⟨hmem, hentry, -, hscopeOf⟩ :=
      hshows.kept_of_isDeclaration htop hgroup hall ht hq (hgrows.kind.isDeclaration_eq.trans hd)
    refine .copied hmem ?_ ?_
    · rwa [hentry]
    · rw [hscopeOf]
      refine hscope.imp_right ?_
      rintro ⟨p, hp, ⟨key, hdkey, hkey⟩, hscope⟩
      obtain ⟨hmem, -, hkeys, hscopeOf⟩ :=
        hshows.kept_of_isDeclaration htop hgroup hall ht hp (Kind.isDeclaration_of_mem_keys hkey)
      exact ⟨p.id, hmem, ⟨key, hdkey, by rwa [hkeys]⟩, hscope.trans hscopeOf.symm⟩
  | second hpq hd hkey hgrows =>
    obtain ⟨⟨c, hc⟩, -, hentry, hkeys⟩ := hshows.kept_of_headers htop hgroup hall ht hpq
    refine .second hc hd ?_ ?_
    · rwa [hkeys]
    · rwa [hentry]
  | header hpq hd hkey hheld hcomments =>
    obtain ⟨⟨c, hc⟩, hentry, hentry', hkeys⟩ := hshows.kept_of_headers htop hgroup hall ht hpq
    refine .header hc hd ?_ ?_ ?_
    · rwa [hkeys]
    · rwa [Forest.kind, hentry']
    · rwa [hentry]
  | recorded hpq hd hkey hp hq hmem =>
    obtain ⟨⟨c, hc⟩, hentry, hentry', hkeys⟩ := hshows.kept_of_headers htop hgroup hall ht hpq
    refine .recorded hc hd ?_ ?_ ?_ ?_
    · rwa [hkeys]
    · rwa [Forest.kind, hentry]
    · rwa [Forest.kind, hentry']
    · rwa [hentry]

/-! ## From scopes to their bodies -/

mutual
/-- A finished merge accounts for an outline in the scope `path`: for what it declares, and for all
that is in its body. The body of the scope that it is in went into the node `scope`. -/
def Covers (labels : Labels) (res : Result) (scope : NodeId) (path : String)
    (enclosing : List String) : Outline → Prop
  | .node e cs =>
    match e.kind with
    | .scope _ => ∃ body, Covered labels res ⟨e, path, enclosing⟩ scope body ∧
        CoversAll labels res body (e.kind.within path) (e.kind.within path :: enclosing) cs
    | .leaf _ => ∃ o, Covered labels res ⟨e, path, enclosing⟩ scope o
    | _ => CoversAll labels res scope path enclosing cs
/-- A finished merge accounts for outlines in the scope `path`. -/
def CoversAll (labels : Labels) (res : Result) (scope : NodeId) (path : String)
    (enclosing : List String) : List Outline → Prop
  | [] => True
  | c :: cs => Covers labels res scope path enclosing c ∧
      CoversAll labels res scope path enclosing cs
end

section

variable {labels : Labels} {res : Result} {base : String}

mutual
/-- A merge that accounts for every visit accounts for the outline that was visited. -/
theorem covers_of_visits : ∀ (o : Outline), o.isConflictFree = true →
    ∀ (stack : List Opened) {m m' : Merger},
    m.visit (stack.map Opened.id) (pathIn base stack) o = .ok m' →
    (∀ v ∈ visitsIn base m stack o, v.LeadsTo base (Covered labels res)) →
    Covers labels res (currentScope (stack.map Opened.id)) (pathIn base stack)
      (stack.map Opened.path) o
  | .node e cs, hfree, stack, m, m', hvisit, hvisits => by
    obtain ⟨hconf, -, hcs⟩ := Outline.isConflictFree_node.1 hfree
    rw [Merger.visit] at hvisit
    rw [visitsIn] at hvisits
    rw [Covers]
    cases hk : e.kind with
    | group =>
      simp only [hk] at hvisit hvisits ⊢
      exact coversAll_of_visits cs hcs stack hvisit hvisits
    | conflict l | scopeConflict l => simp [hk, Kind.isConflict] at hconf
    | leaf l =>
      simp only [hk] at hvisits ⊢
      obtain ⟨o, ho, -⟩ := hvisits _ List.mem_cons_self
      exact ⟨o, ho⟩
    | scope s =>
      have hscope : e.kind.isScope = true := by rw [hk]; rfl
      simp only [hk] at hvisit hvisits ⊢
      rw [← hk] at hvisit hvisits ⊢
      obtain ⟨⟨m₁, i⟩, hopen, hvisit⟩ := exists_of_bind_eq_ok hvisit
      simp only [hopen] at hvisits
      obtain ⟨⟨body, hcovered, hbody⟩, hvisits⟩ := List.forall_mem_cons.1 hvisits
      obtain ⟨m₂, hopen₂⟩ := hbody hscope
      obtain rfl : i = body := congrArg Prod.snd (Except.ok.inj (hopen.symm.trans hopen₂))
      exact ⟨i, hcovered, coversAll_of_visits cs hcs (⟨i, _⟩ :: stack) hvisit hvisits⟩
/-- A merge that accounts for every visit accounts for the outlines that were visited. -/
theorem coversAll_of_visits : ∀ (os : List Outline), Outline.areConflictFree os = true →
    ∀ (stack : List Opened) {m m' : Merger},
    m.visitAll (stack.map Opened.id) (pathIn base stack) os = .ok m' →
    (∀ v ∈ visitsOf base m stack os, v.LeadsTo base (Covered labels res)) →
    CoversAll labels res (currentScope (stack.map Opened.id)) (pathIn base stack)
      (stack.map Opened.path) os
  | [], _, stack, m, m', _, _ => by
    rw [CoversAll]
    trivial
  | o :: os, hfree, stack, m, m', hvisit, hvisits => by
    obtain ⟨hfree₁, hfree₂⟩ := Outline.areConflictFree_cons.1 hfree
    rw [Merger.visitAll] at hvisit
    obtain ⟨m₁, hvisit₁, hvisit₂⟩ := exists_of_bind_eq_ok hvisit
    rw [visitsOf, hvisit₁] at hvisits
    obtain ⟨hvisits₁, hvisits₂⟩ := List.forall_mem_append.1 hvisits
    rw [CoversAll]
    exact ⟨covers_of_visits o hfree₁ stack hvisit₁ hvisits₁,
      coversAll_of_visits os hfree₂ stack hvisit₂ hvisits₂⟩
end

/-- A merge that comes to a result has made a second pass. -/
theorem exists_second_pass {left right : Source} (hl : left.root.isConflictFree = true)
    {m : Merger} (hadd : ({ labels } : Merger).add left = .ok m)
    (hmerge : StubMerge.merge labels left right = .ok res) :
    m.started = true ∧ ∃ m', m.add right = .ok m' := by
  constructor
  · obtain ⟨m', hadd', -, -, hstarted, -⟩ := add_first labels hl
    rwa [Except.ok.inj (hadd.symm.trans hadd')]
  · rw [StubMerge.merge, bind_of_ok hadd] at hmerge
    obtain ⟨m', hadd', -⟩ := exists_of_bind_eq_ok hmerge
    exact ⟨m', hadd'⟩

/-- As `coversAll_of_visits`, for a whole pass after the first one. -/
theorem coversAll_of_add {s : Source} (hs : s.root.isConflictFree = true) {m m' : Merger}
    (hstarted : m.started = true) (hadd : m.add s = .ok m')
    (hvisits : ∀ v ∈ m.visits s, v.LeadsTo s.path (Covered labels res)) :
    CoversAll labels res Forest.root s.path [] s.root.children := by
  obtain ⟨⟨e, cs⟩, path⟩ := s
  obtain ⟨-, -, hcs⟩ := Outline.isConflictFree_node.1 hs
  rw [Merger.add, if_pos hstarted] at hadd
  exact coversAll_of_visits cs hcs [] hadd hvisits

end

end Merger

/-- **Nothing is lost.** Outlines without conflicts can be merged, and the merge accounts for every
declaration of the second one. -/
theorem merge_covers_right (labels : Labels) (left right : Source)
    (hl : left.root.isConflictFree = true) (hr : right.root.isConflictFree = true) :
    ∃ res, merge labels left right = .ok res ∧
      Merger.CoversAll labels res Forest.root right.path [] right.root.children := by
  obtain ⟨m₁, m, t, g, t', hadd₁, -, hm, -, -, ⟨-, hcovered⟩, hmerge, hshows, htop, hall⟩ :=
    (Merger.follows_covered labels right.path right.declarations right.groups).merge labels hl hr
      fun _ _ hlabels _ => ⟨hlabels, by simp⟩
  have hgroup : t'.kind = .group := hm.group_of_absorbsAll hall
  obtain ⟨hstarted, m₂, hadd₂⟩ := Merger.exists_second_pass hl hadd₁ hmerge
  exact ⟨_, hmerge, Merger.coversAll_of_add hr hstarted hadd₂ fun v hv =>
    (hcovered v hv).imp fun h => h.covered hall hm.shaped hshows htop hgroup⟩

/-- The cars once more, with a third header in the second outline: the merge accounts for it. -/
theorem merge_covers_third_header :
    ∃ res body, merge ⟨"old", "new"⟩ { root := oldCars }
        { root := .node {} [newCars, .node { kind := .scope (.classOf "Car" none) } []] } =
          .ok res ∧
      Merger.Covered ⟨"old", "new"⟩ res ⟨{ kind := .scope (.classOf "Car" none) }, "", []⟩
        Forest.root body := by
  obtain ⟨res, hmerge, -, hcovers, -⟩ := merge_covers_right ⟨"old", "new"⟩ { root := oldCars }
    { root := .node {} [newCars, .node { kind := .scope (.classOf "Car" none) } []] } rfl rfl
  obtain ⟨body, hbody, -⟩ := hcovers
  exact ⟨res, body, hmerge, hbody⟩

end StubMerge
