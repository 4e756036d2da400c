import StubMerge.Proofs.Merging
import StubMerge.Proofs.PlainPairs
import StubMerge.Proofs.Sites

/-!
# An outline merged into itself

When an outline is merged into itself, every declaration finds its twin: the copy that the first
pass made of it, or another one that agrees. So there are no conflicts, and every node stays where
it is. What a node can gain comes from declarations of its name and from groups in a scope of its
name (`merge_self`).

For leaves that is plain, since a leaf agrees with its twin whatever that has gained. A scope is not
matched with scopes that are open, and its twin may be one of those. But each open scope was opened
for a declaration that was visited before and agrees with it, so there are fewer of them than
declarations that agree, and one of the copies is left (`Merger.SelfMerged.exists_closed`).
-/

namespace StubMerge

/-! ## What a node can gain -/

/-- The signatures of what is declared. -/
def Kind.signatures : Kind → List Signature
  | leaf (.method m) => m.signatures
  | leaf (.attr a) => a.signatures
  | _ => []

/-- The values of an enumeration. -/
def Kind.values : Kind → List String
  | leaf (.enums names) => names
  | _ => []

/-- Whether a declaration has a name. Attributes and mixins may have none. -/
def Kind.isNamed : Kind → Bool
  | leaf (.attr a) => !a.names.isEmpty
  | leaf (.mixin _ names) => !names.isEmpty
  | _ => true

/-- What a node may be given. -/
structure Gain where
  comments : List String := []
  signatures : List Signature := []
  values : List String := []

/-- What is declared, with signatures if it had none and with further values at the end. -/
def Kind.gain (g : Gain) : Kind → Kind
  | leaf (.method m) =>
    leaf (.method { m with
      signatures := if m.signatures = [] then g.signatures else m.signatures })
  | leaf (.attr a) =>
    leaf (.attr { a with
      signatures := if a.signatures = [] then g.signatures else a.signatures })
  | leaf (.enums names) => leaf (.enums (names.appendNew g.values))
  | k => k

/-- An entry that was given something: comments come behind those that it has. -/
def Entry.gain (g : Gain) (e : Entry) : Entry :=
  { e with kind := e.kind.gain g, comments := e.comments.appendNew g.comments }

namespace Kind

variable {k k' : Kind} {g : Gain}

theorem gain_of_container (h : k.isContainer = true) : k.gain g = k := by
  cases k with
  | leaf l => cases h
  | _ => rfl

theorem keys_gain (k : Kind) (g : Gain) (path : String) : (k.gain g).keys path = k.keys path := by
  cases k with
  | leaf l => cases l <;> rfl
  | _ => rfl

theorem isScope_gain (k : Kind) (g : Gain) : (k.gain g).isScope = k.isScope := by
  cases k with
  | leaf l => cases l <;> rfl
  | _ => rfl

theorem isConflict_gain (k : Kind) (g : Gain) : (k.gain g).isConflict = k.isConflict := by
  cases k with
  | leaf l => cases l <;> rfl
  | _ => rfl

/-- A declaration agrees with what it was before. -/
theorem agrees_gain (h : k.isDeclaration = true) : (k.gain g).agrees k = true := by
  cases k with
  | scope s => cases s <;> simp [gain, agrees, Scope.agrees]
  | leaf l =>
    cases l with
    | method m => by_cases hs : m.signatures = [] <;> simp [gain, agrees, Leaf.agrees,
        signaturesAgree, hs]
    | attr a => by_cases hs : a.signatures = [] <;> simp [gain, agrees, Leaf.agrees,
        signaturesAgree, hs]
    | _ => simp [gain, agrees, Leaf.agrees]
  | _ => cases h

theorem signatures_eq_self {sigs more : List Signature} (h : ∀ sig ∈ more, sig ∈ sigs) :
    (if sigs = [] then more else sigs) = sigs := by
  split
  · next hs =>
    subst hs
    exact List.eq_nil_iff_forall_not_mem.2 fun sig hsig => List.not_mem_nil (h sig hsig)
  · rfl

/-- What is there already adds nothing. -/
theorem gain_eq_self (hsigs : ∀ sig ∈ g.signatures, sig ∈ k.signatures)
    (hvalues : ∀ v ∈ g.values, v ∈ k.values) : k.gain g = k := by
  cases k with
  | leaf l =>
    cases l with
    | method m => rw [gain, show _ = m.signatures from signatures_eq_self hsigs]
    | attr a => rw [gain, show _ = a.signatures from signatures_eq_self hsigs]
    | enums names => rw [gain, show _ = names from appendNew_eq_self hvalues]
    | _ => rfl
  | _ => rfl

theorem agrees_self (h : k.isDeclaration = true) : k.agrees k = true := by
  have hagree := agrees_gain (g := {}) h
  rwa [gain_eq_self (by simp) (by simp)] at hagree

/-- Headers that agree agree with the same headers. -/
theorem agrees_congr (h : k.agrees k' = true) (hk : k'.isScope = true) (r : Kind) :
    k.agrees r = k'.agrees r := by
  cases k with
  | scope s =>
    cases k' with
    | scope s' =>
      cases r with
      | scope x => cases s <;> cases s' <;> cases x <;> simp_all [agrees, Scope.agrees]
      | _ => rfl
    | _ => cases hk
  | leaf l =>
    cases k' with
    | leaf l' => cases hk
    | _ => cases h
  | _ => cases h

/-- A declaration with a name goes by some name. -/
theorem exists_key (h : k.isDeclaration = true) (hk : k.isNamed = true) (path : String) :
    ∃ key, key ∈ k.keys path := by
  cases k with
  | scope s => exact ⟨_, List.mem_singleton_self _⟩
  | leaf l =>
    cases l with
    | attr a =>
      obtain ⟨kind, names, visibility, sigs⟩ := a
      cases names with
      | nil => cases hk
      | cons name names =>
        cases kind <;> exact ⟨_, List.mem_cons_self⟩
    | mixin kind names =>
      cases names with
      | nil => cases hk
      | cons name names => exact ⟨_, List.mem_cons_self⟩
    | field f =>
      obtain ⟨kind, name, type, default⟩ := f
      cases kind <;> exact ⟨_, List.mem_cons_self⟩
    | _ => exact ⟨_, List.mem_cons_self⟩
  | _ => cases h

end Kind

theorem Entry.gain_eq_self {e : Entry} {g : Gain} (hcomments : ∀ c ∈ g.comments, c ∈ e.comments)
    (hsigs : ∀ sig ∈ g.signatures, sig ∈ e.kind.signatures)
    (hvalues : ∀ v ∈ g.values, v ∈ e.kind.values) : e.gain g = e := by
  rw [gain, Kind.gain_eq_self hsigs hvalues, appendNew_eq_self hcomments]

/-- What a node has if a declaration is folded into it. -/
def Gain.more (g : Gain) (e : Entry) : Gain where
  comments := g.comments ++ e.comments
  signatures := g.signatures.appendNew e.kind.signatures
  values := g.values ++ e.kind.values

theorem appendNew_appendNew {α : Type} [BEq α] (xs ys zs : List α) :
    (xs.appendNew ys).appendNew zs = xs.appendNew (ys ++ zs) := by
  rw [List.appendNew, List.appendNew, List.appendNew, List.foldl_append]

/-- What is folded in is gained. Signatures that agree with some are the same, or there are none. -/
theorem Kind.fold_gain {k : Kind} {d : Entry} {g : Gain} (h : (k.gain g).agrees d.kind = true) :
    (k.gain g).fold d.kind = k.gain (g.more d) := by
  obtain ⟨k', comments, location⟩ := d
  cases k with
  | leaf l =>
    obtain ⟨l', rfl⟩ : ∃ l', k' = .leaf l' := by
      cases k' with
      | leaf l' => exact ⟨l', rfl⟩
      | _ => cases l <;> cases h
    cases l with
    | method m =>
      cases l' with
      | method m' =>
        simp only [gain, agrees, Leaf.agrees, Bool.and_eq_true] at h
        by_cases hs : m.signatures = []
        · simp [gain, fold, Leaf.fold, Gain.more, signatures, hs]
        · have hsame := (appendNew_of_signaturesAgree h.2).resolve_left (by simp [hs])
          rw [if_neg hs] at hsame
          simp [gain, fold, Leaf.fold, hs, hsame]
      | _ => cases h
    | attr a =>
      cases l' with
      | attr a' =>
        simp only [gain, agrees, Leaf.agrees, Bool.and_eq_true] at h
        by_cases hs : a.signatures = []
        · simp [gain, fold, Leaf.fold, Gain.more, signatures, hs]
        · have hsame := (appendNew_of_signaturesAgree h.2).resolve_left (by simp [hs])
          rw [if_neg hs] at hsame
          simp [gain, fold, Leaf.fold, hs, hsame]
      | _ => cases h
    | enums names =>
      cases l' with
      | enums names' =>
        simp [gain, fold, Leaf.fold, Gain.more, values, appendNew_appendNew]
      | _ => cases h
    | _ => rfl
  | _ => rfl

theorem Entry.fold_gain {e d : Entry} {g : Gain} (h : (e.gain g).kind.agrees d.kind = true) :
    (e.gain g).fold d = e.gain (g.more d) := by
  have hkind : (e.kind.gain g).fold d.kind = e.kind.gain (g.more d) := Kind.fold_gain h
  have hcomments : (e.comments.appendNew g.comments).appendNew d.comments =
      e.comments.appendNew (g.more d).comments := appendNew_appendNew ..
  rw [fold, addComments, gain, gain, ← hkind, ← hcomments]

theorem Entry.addComments_gain (e : Entry) (g : Gain) (xs : List String) :
    (e.gain g).addComments xs = e.gain { g with comments := g.comments ++ xs } := by
  rw [addComments, gain, gain, appendNew_appendNew]
  rfl

/-! ## Where it comes from -/

/-- Whether comments of a group can come to a node: the group is in a scope of the name of the node,
or it is in no scope and the node is the file. -/
def Site.hears (s : Site) (x : Declaration) : Prop :=
  match x.enclosing with
  | [] => s.depth = 0
  | key :: _ => s.kind.isScope = true ∧ s.kind.within s.path = key

/-- What a node is given comes from declarations of the outline that share a name with it, and
comments may come from groups. -/
structure Gain.From (o : Outline) (s : Site) (g : Gain) : Prop where
  comments : ∀ c ∈ g.comments,
    (∃ x ∈ o.declarations, x.meets s.toDeclaration = true ∧ c ∈ x.entry.comments) ∨
      ∃ x ∈ o.groups, s.hears x ∧ c ∈ x.entry.comments
  signatures : ∀ sig ∈ g.signatures,
    ∃ x ∈ o.declarations, x.meets s.toDeclaration = true ∧ sig ∈ x.kind.signatures
  values : ∀ v ∈ g.values,
    ∃ x ∈ o.declarations, x.meets s.toDeclaration = true ∧ v ∈ x.kind.values

/-- A node of the outline after the outline was merged into itself. -/
def Site.Gains (o : Outline) (s s' : Site) : Prop :=
  ∃ g : Gain, g.From o s ∧ s' = ⟨{ s.toDeclaration with entry := s.entry.gain g }, s.depth⟩

/-- A place after the outline was merged into itself. -/
def Place.Gains (o : Outline) (p q : Place) : Prop :=
  ∃ g : Gain, g.From o p.site ∧ q = { p with entry := p.entry.gain g }

section

variable {o : Outline} {s : Site} {p q : Place} {g : Gain}

theorem Gain.from_nothing : ({} : Gain).From o s := ⟨by simp, by simp, by simp⟩

/-- A declaration that shares a name may be folded in. -/
theorem Gain.From.more (h : g.From o s) {x : Declaration} (hx : x ∈ o.declarations)
    (hmeets : x.meets s.toDeclaration = true) : (g.more x.entry).From o s where
  comments c hc := (List.mem_append.1 hc).elim (h.comments c) fun hc => .inl ⟨x, hx, hmeets, hc⟩
  signatures sig hsig := (List.mem_appendNew.1 hsig).elim (h.signatures sig) fun hsig =>
    ⟨x, hx, hmeets, hsig⟩
  values v hv := (List.mem_append.1 hv).elim (h.values v) fun hv => ⟨x, hx, hmeets, hv⟩

theorem Gain.From.moreComments (h : g.From o s) (xs : List String)
    (hxs : ∀ c ∈ xs, (∃ x ∈ o.declarations, x.meets s.toDeclaration = true ∧
      c ∈ x.entry.comments) ∨ ∃ x ∈ o.groups, s.hears x ∧ c ∈ x.entry.comments) :
    ({ g with comments := g.comments ++ xs } : Gain).From o s where
  comments c hc := (List.mem_append.1 hc).elim (h.comments c) (hxs c)
  signatures := h.signatures
  values := h.values

namespace Place.Gains

theorem refl (p : Place) : p.Gains o p := by
  refine ⟨{}, Gain.from_nothing, ?_⟩
  rw [Entry.gain_eq_self (by simp) (by simp) (by simp)]

theorem site (h : p.Gains o q) : p.site.Gains o q.site := by
  obtain ⟨g, hg, rfl⟩ := h
  exact ⟨g, hg, rfl⟩

theorem id_eq (h : p.Gains o q) : q.id = p.id := by
  obtain ⟨g, -, rfl⟩ := h
  rfl

theorem keys_eq (h : p.Gains o q) : q.keys = p.keys := by
  obtain ⟨g, -, rfl⟩ := h
  exact p.kind.keys_gain g p.path

theorem kind_eq (h : p.Gains o q) (hk : p.kind.isContainer = true) : q.kind = p.kind := by
  obtain ⟨g, -, rfl⟩ := h
  exact Kind.gain_of_container hk

theorem isScope_eq (h : p.Gains o q) : q.kind.isScope = p.kind.isScope := by
  obtain ⟨g, -, rfl⟩ := h
  exact Kind.isScope_gain p.kind g

/-- A place agrees with what it was. -/
theorem agrees (h : p.Gains o q) (hk : p.kind.isDeclaration = true) :
    q.kind.agrees p.kind = true := by
  obtain ⟨g, -, rfl⟩ := h
  exact Kind.agrees_gain hk

theorem listed_eq (h : p.Gains o q) : q.listed = p.listed := by
  obtain ⟨g, -, rfl⟩ := h
  unfold Place.listed Place.kind Entry.gain
  cases hk : p.entry.kind with
  | leaf l => cases l <;> rfl
  | _ => rfl

end Place.Gains

end

/-! ## Lists in step -/

section

variable {α β : Type} {R : α → β → Prop} {xs : List α} {ys : List β}

theorem eq_of_forall₂ {xs ys : List α} {R : α → α → Prop} (h : List.Forall₂ R xs ys)
    (heq : ∀ x ∈ xs, ∀ y, R x y → y = x) : ys = xs := by
  induction h with
  | nil => rfl
  | @cons x y xs ys hxy _ ih =>
    rw [heq x List.mem_cons_self y hxy, ih fun z hz => heq z (List.mem_cons_of_mem _ hz)]

theorem countP_le_add (xs : List α) {p q r : α → Bool}
    (h : ∀ x ∈ xs, p x = true → q x = true ∨ r x = true) :
    xs.countP p ≤ xs.countP q + xs.countP r := by
  induction xs with
  | nil => simp
  | cons x xs ih =>
    have hrest := ih fun y hy => h y (List.mem_cons_of_mem _ hy)
    have hx := h x List.mem_cons_self
    simp only [List.countP_cons]
    split_ifs <;> simp_all <;> omega

/-- One item may be replaced. -/
theorem forall₂_replace {A B : List β} {y y' : β} (hy : ∀ x ∈ xs, R x y → R x y')
    (h : List.Forall₂ R xs (A ++ y :: B)) : List.Forall₂ R xs (A ++ y' :: B) := by
  induction A generalizing xs with
  | nil =>
    cases h with
    | cons hxy hrest => exact .cons (hy _ List.mem_cons_self hxy) hrest
  | cons a A ih =>
    cases h with
    | cons hxa hrest => exact .cons hxa (ih (fun x hx => hy x (List.mem_cons_of_mem _ hx)) hrest)

end

/-- One entry may be replaced, if what is below it does not change. -/
theorem forall₂_places_entry {R : Place → Place → Prop} {P : List Place} {i : NodeId}
    {e e' : Entry} {cs : List Tree} {K : Frames} (hcs : e'.kind = e.kind ∨ cs = [])
    (hr : ∀ p ∈ P, R p ((Tree.node i e cs).placeIn K) → R p ((Tree.node i e' cs).placeIn K))
    (h : List.Forall₂ R P ((Tree.node i e cs).under K).places) :
    List.Forall₂ R P ((Tree.node i e' cs).under K).places := by
  have hbelow : Tree.placesAll e'.kind true (⟨i, e'.kind, Frames.slot K⟩ :: Frames.steps K) cs =
      Tree.placesAll e.kind true (⟨i, e.kind, Frames.slot K⟩ :: Frames.steps K) cs := by
    rcases hcs with hk | rfl
    · rw [hk]
    · rfl
  rw [Tree.places_under, Tree.placesAt, List.append_assoc, List.cons_append] at h ⊢
  rw [hbelow]
  exact forall₂_replace hr h

namespace Merger

/-! ## Twins -/

/-- If something under one of the names agrees and is not open, such a node is found. -/
theorem Stands.exists_agreeing {m : Merger} {t : Tree} (hm : m.Stands t) {scopes : List NodeId}
    {keys : List String} {kind : Kind} {q : Place} (hq : q ∈ t.places) (hl : q.listed = true)
    {key : String} (hkey : key ∈ keys) (hqk : key ∈ q.keys) (hopen : q.id ∉ scopes)
    (hagree : q.kind.agrees kind = true) :
    ∃ i, m.previous? scopes keys kind = some i ∧ (m.output.kind i).agrees kind = true := by
  have hcand : q.id ∈ m.index.candidates keys :=
    Index.mem_candidates.2 ⟨key, hkey, (hm.index key q.id).2 ⟨q, hq, hl, rfl, hqk⟩⟩
  cases hprev : m.previous? scopes keys kind with
  | none => exact absurd (previous?_eq_none hprev hcand) hopen
  | some i =>
    refine ⟨i, rfl, ?_⟩
    by_contra hno
    have hnone := (previous?_eq_some hprev).2.2 (by simpa using hno) q.id hcand hopen
    rw [hm.shows.kind_of_mem hq, hagree] at hnone
    cases hnone

/-- The places of the copy that the first pass makes. -/
abbrev copies (o : Outline) : List Place := (firstTree { root := o }).places

theorem quiet_copies {o : Outline} (ho : o.isConflictFree = true) : ∀ p ∈ copies o, p.Quiet := by
  obtain ⟨e, cs⟩ := o
  obtain ⟨-, -, hcs⟩ := Outline.isConflictFree_node.1 ho
  intro p hp
  rcases List.mem_cons.1 hp with rfl | hp
  · exact ⟨rfl, rfl, by simp⟩
  · exact Outline.quiet_numberAll cs 1 _ true rfl hcs (by simp) p hp

end Merger

/-- Whether declarations go by the same names and agree. -/
def Declaration.alike (x d : Declaration) : Bool := x.keys == d.keys && x.kind.agrees d.kind

namespace Merger

/-- An outline is being merged into itself: no conflict came up, and every place of the first copy
has only gained something. Each open scope has the name of the scope that it was opened for, and of
the scopes that agree with a declaration no more are open than were visited. -/
structure SelfMerged (o : Outline) (m : Merger) (t : Tree) (stack : List Opened)
    (done : List Declaration) : Prop where
  conflicts : m.conflicts = #[]
  places : List.Forall₂ (Place.Gains o) (copies o) t.places
  opened : ∀ x ∈ stack, ∃ p ∈ copies o, p.id = x.id ∧ p.kind.isScope = true ∧
    p.kind.within p.path = x.path
  count : ∀ d : Declaration,
    (copies o).countP (fun p => p.declaration.alike d && (stack.map Opened.id).contains p.id) ≤
      done.countP (·.alike d)

section

variable {o : Outline} {m m' : Merger} {t t' : Tree} {stack : List Opened}
  {done later : List Declaration} {y : Declaration}

theorem mem_declarations (ho : o.isConflictFree = true) :
    y ∈ o.declarations ↔
      ∃ p ∈ copies o, p.kind.isDeclaration = true ∧ p.declaration = y := by
  rw [show o.declarations = _ from (declarations_firstTree ho).symm, List.mem_map]
  simp only [mem_declaredPlaces, and_assoc]

/-- As many copies agree with a declaration as there are declarations that do. -/
theorem countP_copies (ho : o.isConflictFree = true) (d : Declaration) :
    (copies o).countP (fun p => p.declaration.alike d) = o.declarations.countP (·.alike d) := by
  rw [show o.declarations = _ from (declarations_firstTree ho).symm, List.countP_map,
    declaredPlaces, List.countP_filter]
  refine List.countP_congr fun p _ => ?_
  have hdecl : p.kind.agrees d.kind = true → p.kind.isDeclaration = true := by
    intro hagree
    cases hk : p.kind with
    | scope s => rfl
    | leaf l => rfl
    | _ => rw [hk] at hagree; cases hagree
  simp only [Function.comp_apply, Bool.and_eq_true]
  constructor
  · intro halike
    exact ⟨halike, hdecl (Bool.and_eq_true_iff.1 halike).2⟩
  · exact And.left

namespace SelfMerged

theorem ids_eq (h : SelfMerged o m t stack done) :
    (copies o).map Place.id = t.places.map Place.id := by
  have hids : ∀ {P Q : List Place}, List.Forall₂ (Place.Gains o) P Q →
      P.map Place.id = Q.map Place.id := by
    intro P Q hPQ
    induction hPQ with
    | nil => rfl
    | cons hpq _ ih => rw [List.map_cons, List.map_cons, hpq.id_eq, ih]
  exact hids h.places

theorem nodup_ids (h : SelfMerged o m t stack done) (hm : m.Stands t) :
    ((copies o).map Place.id).Nodup := by
  rw [h.ids_eq, Tree.map_id_places]
  exact hm.shows.nodup_ids

theorem exists_copy (h : SelfMerged o m t stack done) {q : Place} (hq : q ∈ t.places) :
    ∃ p ∈ copies o, p.Gains o q :=
  exists_of_forall₂ (R := fun (q p : Place) => p.Gains o q) h.places.flip hq

/-- One of the copies that agree with a declaration is not open. -/
theorem exists_closed (h : SelfMerged o m t stack done) (ho : o.isConflictFree = true)
    (hall : o.declarations = done ++ y :: later) (hy : y.kind.isDeclaration = true) :
    ∃ p ∈ copies o, p.declaration.alike y = true ∧ p.id ∉ stack.map Opened.id := by
  by_contra hnone
  push Not at hnone
  have hopen : (copies o).countP (fun p => p.declaration.alike y) ≤ (copies o).countP
      (fun p => p.declaration.alike y && (stack.map Opened.id).contains p.id) := by
    refine List.countP_mono_left fun p hp halike => ?_
    rw [halike, Bool.true_and, List.contains_iff_mem]
    exact hnone p hp halike
  have hself : y.alike y = true := by simp [Declaration.alike, Kind.agrees_self hy]
  have hdone : done.countP (·.alike y) < o.declarations.countP (·.alike y) := by
    rw [hall, List.countP_append, List.countP_cons_of_pos (p := fun x : Declaration => x.alike y) hself]
    omega
  have hcount := h.count y
  rw [countP_copies ho] at hopen
  omega

theorem eq_of_id (h : SelfMerged o m t stack done) (hm : m.Stands t) {p q : Place}
    (hp : p ∈ copies o) (hq : q ∈ copies o) (hid : p.id = q.id) : p = q :=
  List.inj_on_of_nodup_map (h.nodup_ids hm) hp hq hid

/-- If a copy that agrees with a declaration is opened, there is one more open only for what the
declaration agrees with. -/
theorem count_cons (h : SelfMerged o m t stack done) (hm : m.Stands t) {p : Place}
    (hp : p ∈ copies o) (halike : p.declaration.alike y = true) (hy : y.kind.isScope = true)
    (d : Declaration) :
    (copies o).countP (fun q => q.declaration.alike d &&
        (p.id :: stack.map Opened.id).contains q.id) ≤ (done ++ [y]).countP (·.alike d) := by
  have hcount := h.count d
  obtain ⟨hkeys, hagree⟩ := Bool.and_eq_true_iff.1 halike
  rw [List.countP_append, List.countP_singleton]
  by_cases hyd : y.alike d = true
  · have hone : (copies o).countP (fun q => q.id == p.id) ≤ 1 := by
      have hle := List.nodup_iff_count_le_one.1 (h.nodup_ids hm) p.id
      rwa [List.count, List.countP_map] at hle
    have hadd := countP_le_add (copies o)
      (p := fun q => q.declaration.alike d && (p.id :: stack.map Opened.id).contains q.id)
      (q := fun q => q.declaration.alike d && (stack.map Opened.id).contains q.id)
      (r := fun q => q.id == p.id) fun q _ hq => by
        simp only [List.contains_cons, Bool.and_eq_true, Bool.or_eq_true] at hq ⊢
        tauto
    rw [if_pos hyd]
    omega
  · -- What agrees with both would make them agree with each other.
    have hsame : (copies o).countP (fun q => q.declaration.alike d &&
        (p.id :: stack.map Opened.id).contains q.id) ≤ (copies o).countP
        (fun q => q.declaration.alike d && (stack.map Opened.id).contains q.id) := by
      refine List.countP_mono_left fun q hq hqd => ?_
      simp only [List.contains_cons, Bool.and_eq_true, Bool.or_eq_true, beq_iff_eq] at hqd ⊢
      obtain ⟨hqd, hid | hmem⟩ := hqd
      · obtain rfl := h.eq_of_id hm hq hp hid
        refine absurd ?_ hyd
        obtain ⟨hkeys', hagree'⟩ := Bool.and_eq_true_iff.1 hqd
        refine Bool.and_eq_true_iff.2 ⟨?_, ?_⟩
        · rw [← eq_of_beq hkeys]
          exact hkeys'
        · rw [← Kind.agrees_congr hagree hy]
          exact hagree'
      · exact ⟨hqd, hmem⟩
    omega

/-- A declaration that is visited agrees with some node that is not open. -/
theorem exists_twin (h : SelfMerged o m t stack done) (ho : o.isConflictFree = true)
    (hm : m.Stands t) (hopen : Open t (stack.map Opened.id))
    (hall : o.declarations = done ++ y :: later) (hy : y.kind.isDeclaration = true)
    (hnamed : y.kind.isNamed = true) :
    ∃ i, m.previous? (stack.map Opened.id) y.keys y.kind = some i ∧
      (m.output.kind i).agrees y.kind = true := by
  have hmem : y ∈ o.declarations := by simp [hall]
  obtain ⟨key, hkey⟩ : ∃ key, key ∈ y.keys := Kind.exists_key hy hnamed y.path
  obtain ⟨p, hp, hkeys, hclosed, hagree⟩ : ∃ p ∈ copies o, p.keys = y.keys ∧
      p.id ∉ stack.map Opened.id ∧ ∀ q, p.Gains o q → q.kind.agrees y.kind = true := by
    by_cases hscope : y.kind.isScope = true
    · obtain ⟨p, hp, halike, hclosed⟩ := h.exists_closed ho hall hy
      obtain ⟨hkeys, hagree⟩ := Bool.and_eq_true_iff.1 halike
      refine ⟨p, hp, eq_of_beq hkeys, hclosed, fun q hq => ?_⟩
      have hcont : p.kind.isContainer = true :=
        Kind.isContainer_of_scope ((Kind.isScope_eq_of_agrees hagree).trans hscope)
      rw [hq.kind_eq hcont]
      exact hagree
    · -- A leaf is never open, so its own copy will do.
      obtain ⟨p, hp, hdecl, rfl⟩ := (mem_declarations ho).1 hmem
      refine ⟨p, hp, rfl, fun hid => hscope ?_, fun q hq => hq.agrees hdecl⟩
      obtain ⟨q, hq, hqid, hqs, -⟩ := hopen p.id hid
      obtain ⟨p', hp', hg⟩ := h.exists_copy hq
      obtain rfl : p' = p := h.eq_of_id hm hp' hp (hg.id_eq.symm.trans hqid)
      exact hg.isScope_eq.symm.trans hqs
  obtain ⟨q, hq, hg⟩ := exists_of_forall₂ h.places hp
  refine hm.exists_agreeing hq ?_ hkey ?_ ?_ (hagree q hg)
  · rw [hg.listed_eq]
    exact (quiet_copies ho p hp).listed (hkeys ▸ hkey)
  · rw [hg.keys_eq, hkeys]
    exact hkey
  · rw [hg.id_eq]
    exact hclosed

/-- One node may gain more. -/
theorem places_entry {i : NodeId} {e e' : Entry} {cs : List Tree} {K : Frames}
    (h : SelfMerged o m ((Tree.node i e cs).under K) stack done)
    (hcs : e'.kind = e.kind ∨ cs = [])
    (he : ∀ p ∈ copies o, p.id = i → ∀ g : Gain, g.From o p.site → e = p.entry.gain g →
      p.keys = ((Tree.node i e cs).placeIn K).keys →
      ∃ g' : Gain, g'.From o p.site ∧ e' = p.entry.gain g') :
    List.Forall₂ (Place.Gains o) (copies o) ((Tree.node i e' cs).under K).places := by
  refine forall₂_places_entry hcs (fun p hp hgains => ?_) h.places
  have hkeys := hgains.keys_eq
  obtain ⟨g, hg, heq⟩ := hgains
  obtain ⟨hid, hentry, hslot, habove⟩ := Place.mk.inj heq
  obtain ⟨g', hg', he'⟩ := he p hp hid.symm g hg hentry hkeys.symm
  refine ⟨g', hg', ?_⟩
  rw [← he', ← hid, ← hslot, ← habove]
  rfl

/-- A leaf is folded into one that agrees. -/
theorem addsLeaf {e : Entry} (h : SelfMerged o m t stack done) (ho : o.isConflictFree = true)
    (hm : m.Stands t) (hopen : Open t (stack.map Opened.id))
    (hall : o.declarations = done ++ y :: later) (hentry : y.entry = e)
    (hleaf : e.kind.isContainer = false) (hnamed : y.kind.isNamed = true)
    (hcase : AddsLeaf m (stack.map Opened.id) y.keys e t m' t') :
    SelfMerged o m' t' stack (done ++ [y]) := by
  subst hentry
  have hy : y ∈ o.declarations := by simp [hall]
  obtain ⟨i, hprev, hagree⟩ :=
    h.exists_twin ho hm hopen hall (Kind.isDeclaration_of_leaf hleaf) hnamed
  have hcount : ∀ d : Declaration, done.countP (·.alike d) ≤ (done ++ [y]).countP (·.alike d) :=
    fun d => by simp [List.countP_append]
  cases hcase with
  | new hnone => exact absurd (hnone.symm.trans hprev) (by simp)
  | @fold K j d _ hfound _ hagrees hconflicts =>
    refine ⟨hconflicts.trans h.conflicts, ?_, h.opened, fun d => (h.count d).trans (hcount d)⟩
    obtain ⟨key, hkey, hpk⟩ := hm.shares_key (Tree.placeIn_mem_places (.node j d []) K) hfound
    refine h.places_entry (.inr rfl) fun p _ _ g hg hd hkeys => ⟨g.more y.entry, ?_, ?_⟩
    · exact hg.more hy (Declaration.meets_iff.2 ⟨key, hkey, show key ∈ p.keys from hkeys ▸ hpk⟩)
    · rw [hd] at hagrees ⊢
      exact Entry.fold_gain hagrees
  | @oppose q _ _ _ hfound hq _ hno _ _ =>
    obtain rfl : q.id = i := Option.some.inj (hfound.symm.trans hprev)
    rw [hm.shows.kind_of_mem hq] at hagree
    exact absurd (hno.symm.trans hagree) (by simp)

/-- A scope is folded into one that agrees. -/
theorem opensScope {e : Entry} {i : NodeId} (h : SelfMerged o m t stack done)
    (ho : o.isConflictFree = true) (hm : m.Stands t) (hopen : Open t (stack.map Opened.id))
    (hall : o.declarations = done ++ y :: later) (hentry : y.entry = e)
    (hscope : e.kind.isScope = true)
    (hcase : OpensScope m (stack.map Opened.id) y.keys e t m' t' i) :
    SelfMerged o m' t' (⟨i, e.kind.within y.path⟩ :: stack) (done ++ [y]) := by
  subst hentry
  have hy : y ∈ o.declarations := by simp [hall]
  obtain ⟨s, hs⟩ := Kind.exists_scope hscope
  have hnamed : y.kind.isNamed = true := by rw [Declaration.kind, hs]; rfl
  obtain ⟨j, hprev, hagree⟩ :=
    h.exists_twin ho hm hopen hall (Kind.isDeclaration_of_scope hscope) hnamed
  -- What is found agrees, so the header is folded into it.
  have hfound : ∀ {d : Entry} {cs : List Tree} {K : Frames} {n : NodeId},
      t = (Tree.node n d cs).under K →
      m.previous? (stack.map Opened.id) y.keys y.kind = some n → d.kind.agrees y.kind = true := by
    intro d cs K n ht hn
    obtain rfl : n = j := Option.some.inj (hn.symm.trans hprev)
    have hmem : (Tree.node n d cs).placeIn K ∈ t.places := by
      rw [ht]
      exact Tree.placeIn_mem_places _ K
    rwa [show m.output.kind n = d.kind from hm.shows.kind_of_mem hmem] at hagree
  cases hcase with
  | new hnone => exact absurd (hnone.symm.trans hprev) (by simp)
  | @oppose q _ _ _ hq hmem _ hleaf _ _ =>
    obtain rfl : q.id = j := Option.some.inj (hq.symm.trans hprev)
    rw [hm.shows.kind_of_mem hmem] at hagree
    rw [Kind.isScope_eq_of_agrees hagree] at hleaf
    exact absurd (hscope.symm.trans hleaf) (by simp)
  | @fold K _ d cs _ hn hd hagrees hconflicts =>
    have hmem := Tree.placeIn_mem_places (.node i d cs) K
    obtain ⟨key, hkey, hpk⟩ := hm.shares_key hmem hn
    obtain ⟨p, hp, hg⟩ := h.exists_copy hmem
    have hps : p.kind.isScope = true := hg.isScope_eq.symm.trans hd
    have hkind : p.kind = d.kind := (hg.kind_eq (Kind.isContainer_of_scope hps)).symm
    -- Both go by one name.
    have hpkeys : p.keys = [p.kind.within p.path] := Kind.keys_of_scope hps _
    have hykeys : y.keys = [y.kind.within y.path] := Kind.keys_of_scope hscope _
    have hpath : p.kind.within p.path = y.kind.within y.path := by
      rw [hg.keys_eq, hpkeys, List.mem_singleton] at hpk
      rw [hykeys, List.mem_singleton] at hkey
      exact hpk.symm.trans hkey
    have halike : p.declaration.alike y = true := by
      refine Bool.and_eq_true_iff.2 ⟨beq_iff_eq.2 ?_, ?_⟩
      · exact hpkeys.trans (hpath ▸ hykeys.symm)
      · rw [show p.declaration.kind = d.kind from hkind]
        exact hagrees
    refine ⟨hconflicts.trans h.conflicts, ?_, ?_, ?_⟩
    · refine h.places_entry (.inl rfl) fun p _ _ g hg hd hkeys => ⟨_, hg.moreComments y.entry.comments ?_, ?_⟩
      · exact fun c hc => .inl ⟨y, hy, Declaration.meets_iff.2
          ⟨key, hkey, show key ∈ p.keys from hkeys ▸ hpk⟩, hc⟩
      · rw [hd]
        exact Entry.addComments_gain ..
    · intro x hx
      rcases List.mem_cons.1 hx with rfl | hx
      · exact ⟨p, hp, hg.id_eq.symm, hps, hpath⟩
      · exact h.opened x hx
    · intro d'
      rw [List.map_cons, show i = p.id from hg.id_eq]
      exact h.count_cons hm hp halike hscope d'
  | foldOther hn _ _ _ _ hno => exact absurd (hno.symm.trans (hfound rfl hn)) (by simp)
  | third hn _ _ _ _ hno => exact absurd (hno.symm.trans (hfound rfl hn)) (by simp)
  | second hn _ _ hno => exact absurd (hno.symm.trans (hfound rfl hn)) (by simp)

/-- The innermost open scope hears the groups in the scope that is visited. What the file says
itself it has said already. -/
theorem hears_of_current (h : SelfMerged o m t stack done) (hm : m.Stands t) {p : Place}
    (hp : p ∈ copies o) (hid : p.id = currentScope (stack.map Opened.id)) {x : Declaration}
    (hx : x ∈ ({ root := o } : Source).groups) (henclosing : x.enclosing = stack.map Opened.path) :
    (∀ c ∈ x.entry.comments, c ∈ p.entry.comments) ∨ x ∈ o.groups ∧ p.site.hears x := by
  cases stack with
  | nil =>
    obtain rfl : p = ⟨Forest.root, ({} : Entry).addComments o.entry.comments, .member, []⟩ :=
      h.eq_of_id hm hp List.mem_cons_self hid
    rcases List.mem_cons.1 hx with rfl | hx
    · exact .inl fun c hc => List.mem_appendNew.2 (.inr hc)
    · refine .inr ⟨hx, ?_⟩
      rw [Site.hears, henclosing]
      rfl
  | cons y stack =>
    rcases List.mem_cons.1 hx with rfl | hx
    · cases henclosing
    · refine .inr ⟨hx, ?_⟩
      obtain ⟨q, hq, hqid, hscope, hpath⟩ := h.opened y List.mem_cons_self
      obtain rfl : p = q := h.eq_of_id hm hp hq (hid.trans hqid.symm)
      rw [Site.hears, henclosing]
      exact ⟨hscope, hpath⟩

/-- Comments of a group come to the innermost open scope. -/
theorem hears {i : NodeId} {e : Entry} {cs : List Tree} {K : Frames}
    (h : SelfMerged o m ((Tree.node i e cs).under K) stack done)
    (hm : m.Stands ((Tree.node i e cs).under K)) (hi : i = currentScope (stack.map Opened.id))
    {x : Declaration} (hx : x ∈ ({ root := o } : Source).groups)
    (henclosing : x.enclosing = stack.map Opened.path) (hm' : m'.conflicts = m.conflicts) :
    SelfMerged o m' ((Tree.node i (e.addComments x.entry.comments) cs).under K) stack done := by
  refine ⟨hm'.trans h.conflicts, ?_, h.opened, h.count⟩
  refine h.places_entry (.inl rfl) fun p hp hid g hg he _ => ?_
  rcases h.hears_of_current hm hp (hid.trans hi) hx henclosing with hold | ⟨hgroup, hhears⟩
  · have hsame : (p.entry.gain g).comments.appendNew x.entry.comments =
        (p.entry.gain g).comments :=
      appendNew_eq_self fun c hc => List.mem_appendNew.2 (.inl (hold c hc))
    exact ⟨g, hg, by rw [he, Entry.addComments, hsame]⟩
  · refine ⟨_, hg.moreComments x.entry.comments fun c hc => .inr ⟨x, hgroup, hhears, hc⟩, ?_⟩
    rw [he]
    exact Entry.addComments_gain ..

end SelfMerged

/-- Each step of the second pass keeps to the first copy. -/
theorem follows_selfMerged (ho : o.isConflictFree = true)
    (hnamed : ∀ d ∈ o.declarations, d.kind.isNamed = true) :
    Follows "" o.declarations ({ root := o } : Source).groups
      fun m t stack done => SelfMerged o m t stack (done.map (Visit.declaration "")) where
  close {m t x stack done} h := by
    refine ⟨h.conflicts, h.places, fun z hz => h.opened z (List.mem_cons_of_mem _ hz), fun d => ?_⟩
    refine le_trans (List.countP_mono_left fun p _ hp => ?_) (h.count d)
    simp only [List.map_cons, List.contains_cons, Bool.and_eq_true, Bool.or_eq_true] at hp ⊢
    exact ⟨hp.1, .inr hp.2⟩
  comments hx henclosing hi hm h := h.hears hm hi hx henclosing rfl
  leaf {m t m' t' e stack done later} hall he hm hopen h _ _ hcase := by
    rw [List.map_append]
    exact h.addsLeaf ho hm hopen hall rfl he (hnamed _ (by rw [hall]; simp)) hcase
  scope {m t m' t' i e stack done later} hall he hm hopen h _ _ hcase := by
    rw [List.map_append]
    exact h.opensScope ho hm hopen hall rfl he hcase

theorem selfMerged_firstTree (hm : m.conflicts = #[]) :
    SelfMerged o m (firstTree { root := o }) [] [] where
  conflicts := hm
  places := List.forall₂_same.2 fun p _ => .refl p
  opened x hx := by cases hx
  count d := by simp

end

end Merger

/-! ## The merge -/

/-- What is left of an outline by the first pass: all that is below the top, and the comments of the
top, each once. -/
def Outline.copied (o : Outline) : Outline :=
  .node (({} : Entry).addComments o.entry.comments) o.children

theorem Merger.outline_firstTree (o : Outline) :
    (Merger.firstTree { root := o }).outline = o.copied := by
  rw [firstTree, Tree.outline, Tree.outlineAll_numberAll, Outline.copied]

/-- Where there are no conflicts, none absorbs another. -/
theorem Tree.AbsorbsAll.eq_of_quiet {t t' : Tree} (h : t.AbsorbsAll t')
    (hquiet : ∀ p ∈ t.places, p.kind.isConflict = false) : t' = t := by
  rcases Relation.ReflTransGen.cases_head h with rfl | ⟨u, hstep, -⟩
  · rfl
  · cases hstep with
    | @step K i c l r c' l' r' e d dl dr d' dl' dr' xs ys ls rs ls' rs' lb hd =>
      have hmem := Tree.placeIn_mem_places (.node c d [.node l dl ls, .node r dr rs])
        (⟨i, e, xs, .node c' d' [.node l' dl' ls', .node r' dr' rs'] :: ys⟩ :: K)
      have hno := hquiet _ hmem
      rw [show Place.kind _ = d.kind from rfl, hd] at hno
      cases hno

/-- Where all names are different and there are no groups, there is nothing to gain. -/
theorem Place.Gains.eq_self {o : Outline} (ho : o.isConflictFree = true)
    (hdistinct : o.declarations.Pairwise fun d d' => d.meets d' = false) (hgroups : o.groups = [])
    {p q : Place} (hp : p ∈ Merger.copies o) (h : p.Gains o q) : q = p := by
  obtain ⟨g, hg, rfl⟩ := h
  -- What shares a name with a place is what is declared there.
  have hself : ∀ x ∈ o.declarations, x.meets p.declaration = true → x = p.declaration := by
    intro x hx hmeets
    obtain ⟨key, -, hkey⟩ := Declaration.meets_iff.1 hmeets
    have hmem := (Merger.mem_declarations ho).2 ⟨p, hp, Kind.isDeclaration_of_mem_keys hkey, rfl⟩
    exact Declaration.eq_of_meets hdistinct hx hmem hmeets
  rw [Entry.gain_eq_self]
  · intro c hc
    rcases hg.comments c hc with ⟨x, hx, hmeets, hxc⟩ | ⟨x, hx, -⟩
    · rw [hself x hx hmeets] at hxc
      exact hxc
    · rw [hgroups] at hx
      cases hx
  · intro sig hsig
    obtain ⟨x, hx, hmeets, hxs⟩ := hg.signatures sig hsig
    rw [hself x hx hmeets] at hxs
    exact hxs
  · intro v hv
    obtain ⟨x, hx, hmeets, hxv⟩ := hg.values v hv
    rw [hself x hx hmeets] at hxv
    exact hxv

/-- **An outline merged into itself.** There are no conflicts, and the merge has the nodes of the
outline, in order and where they were. A node may have gained comments, values and, if it had none,
signatures, all from declarations that share a name with it; a scope may also have got the comments
of groups in a scope of its name, and the file those of groups that are in no scope. If all names
are different and there are no groups, nothing changes. -/
theorem merge_self (labels : Labels) {o : Outline} (ho : o.isConflictFree = true)
    (hnamed : ∀ d ∈ o.declarations, d.kind.isNamed = true) :
    ∃ res, merge labels { root := o } { root := o } = .ok res ∧ res.conflicts = [] ∧
      List.Forall₂ (Site.Gains o) o.copied.sites (res.forest.outline Forest.root).sites ∧
      (o.declarations.Pairwise (fun d d' => d.meets d' = false) → o.groups = [] →
        res.forest.outline Forest.root = o.copied) := by
  have hfree : ({ root := o } : Source).root.isConflictFree = true := ho
  obtain ⟨m₁, m, t, f, t', -, -, hm, -, -, hi, hmerge, hshows, htop, hall⟩ :=
    (Merger.follows_selfMerged ho hnamed).merge labels hfree hfree
      fun _ _ _ hconflicts => Merger.selfMerged_firstTree hconflicts
  have hquiet : ∀ q ∈ t.places, q.kind.isConflict = false := by
    intro q hq
    obtain ⟨p, hp, g, -, rfl⟩ := hi.exists_copy hq
    exact (p.kind.isConflict_gain g).trans (Merger.quiet_copies ho p hp).kind
  obtain rfl := hall.eq_of_quiet hquiet
  have houtline : f.outline Forest.root = t'.outline := by
    rw [← htop]
    exact Forest.Shows.outline_eq (K := []) hshows
  refine ⟨_, hmerge, ?_, ?_, fun hdistinct hgroups => ?_⟩
  · rw [hi.conflicts]
  · rw [houtline, ← Merger.outline_firstTree, ← Tree.map_site_places, ← Tree.map_site_places,
      List.forall₂_map_left_iff, List.forall₂_map_right_iff]
    exact hi.places.imp fun p q hg => hg.site
  · have hsame : t'.places = Merger.copies o :=
      eq_of_forall₂ hi.places fun p hp q hg => hg.eq_self ho hdistinct hgroups hp
    refine Outline.eq_of_sites_eq ?_
    rw [houtline, ← Merger.outline_firstTree, ← Tree.map_site_places, ← Tree.map_site_places, hsame]

/-- A class that is opened three times, once of them within itself. -/
def reopenedCar : Outline := .node {} [
  .node { kind := .scope (.classOf "Car" none) } [
    .node { kind := .leaf (.method { name := "wash" }) } [],
    .node { kind := .scope (.classOf "::Car" none), comments := ["inner"] } []],
  .node { kind := .scope (.classOf "Car" none) } [
    .node { kind := .leaf (.method { name := "wash", signatures := [{}] }) } []]]

theorem merge_self_of_reopenedCar :
    ∃ res, merge ⟨"old", "new"⟩ { root := reopenedCar } { root := reopenedCar } = .ok res ∧
      res.conflicts = [] ∧ List.Forall₂ (Site.Gains reopenedCar) reopenedCar.copied.sites
        (res.forest.outline Forest.root).sites := by
  obtain ⟨res, hmerge, hconflicts, hsites, -⟩ :=
    merge_self ⟨"old", "new"⟩ (o := reopenedCar) (by decide) (by decide)
  exact ⟨res, hmerge, hconflicts, hsites⟩

/-- A class that is opened twice, with a group in the first part. -/
def noticedCar : Outline := .node {} [
  .node { kind := .scope (.classOf "Car" none) } [.node { comments := ["notice"] } []],
  .node { kind := .scope (.classOf "Car" none) } []]

/-- The comment of the group comes to the other part of the class, which is found first. No
declaration has it. -/
theorem merge_noticedCar :
    (merge ⟨"left", "right"⟩ { root := noticedCar } { root := noticedCar }).toOption.map
        (fun res => (res.forest.outline Forest.root).preorder 0) =
      some [(0, {}), (1, { kind := .scope (.classOf "Car" none) }), (2, { comments := ["notice"] }),
        (1, { kind := .scope (.classOf "Car" none), comments := ["notice"] })] ∧
      ∀ d ∈ noticedCar.declarations, d.entry.comments = [] := by
  decide +kernel

end StubMerge
