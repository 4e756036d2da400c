import Mathlib.Logic.Relation
import Mathlib.Data.List.Infix
import Mathlib.Data.List.Nodup
import StubMerge.Proofs.Table

/-!
# Links of a forest

A table writes every link down twice: a node knows its parent, and the parent lists the node.
`Forest.IsForest` says of a whole table, nodes without a parent included, that the two agree, that
no node is listed twice, and that no node stands above itself. The last is said by a depth: every
parent is less deep than its children.

`mem_ancestors_iff` says that in a forest the walk upwards is long enough. So the check that an edit
makes against cycles is exact, and every edit that succeeds on nodes of the table leaves a forest
(`IsForest.insert`, `IsForest.replace`, `IsForest.detach`, `IsForest.moveChildren`). For the depth
one lemma serves all of them: nodes that come below a new parent get deeper, with all that is below
them, and nothing else changes (`exists_depth_of_moved`).
-/

namespace StubMerge

namespace Forest

/-- `a` stands above `i`. -/
def Above (f : Forest) : NodeId → NodeId → Prop :=
  Relation.TransGen fun p c => f.parent c = some p

/-- The links of a table are those of a forest. -/
structure IsForest (f : Forest) : Prop where
  linked : ∀ p c, c ∈ f.children p ↔ f.parent c = some p
  once : ∀ p, (f.children p).Nodup
  /-- No node stands above itself: a parent is less deep than its children. -/
  layered : ∃ depth : NodeId → Nat, ∀ p c, f.parent c = some p → depth p < depth c

variable {f g : Forest} {p c i a : NodeId}

/-! ## Reading links after a change -/

theorem node_of_size_le (h : f.size ≤ i) : f.node i = {} := by
  have h' : f.nodes.size ≤ i := h
  simp [node, h']

theorem children_setChildren (f : Forest) {i : NodeId} (h : i < f.size) (cs : List NodeId)
    (j : NodeId) : (f.setChildren i cs).children j = if j = i then cs else f.children j := by
  by_cases hj : j = i
  · subst hj
    rw [if_pos rfl, children, setChildren, node_modify_same h]
  · rw [if_neg hj, children, setChildren, node_modify_other f hj, children]

@[simp] theorem parent_setChildren (f : Forest) (i : NodeId) (cs : List NodeId) (j : NodeId) :
    (f.setChildren i cs).parent j = f.parent j := by
  by_cases hj : j = i
  · subst hj
    by_cases h : j < f.size
    · rw [parent, setChildren, node_modify_same h, parent]
    · rw [parent, node_of_size_le (by simpa using h), parent, node_of_size_le (by simpa using h)]
  · rw [parent, setChildren, node_modify_other f hj, parent]

theorem parent_setParent (f : Forest) {i : NodeId} (h : i < f.size) (q : Option NodeId)
    (j : NodeId) : (f.setParent i q).parent j = if j = i then q else f.parent j := by
  by_cases hj : j = i
  · subst hj
    rw [if_pos rfl, parent, setParent, node_modify_same h]
  · rw [if_neg hj, parent, setParent, node_modify_other f hj, parent]

@[simp] theorem children_setParent (f : Forest) (i : NodeId) (q : Option NodeId) (j : NodeId) :
    (f.setParent i q).children j = f.children j := by
  by_cases hj : j = i
  · subst hj
    by_cases h : j < f.size
    · rw [children, setParent, node_modify_same h, children]
    · rw [children, node_of_size_le (by simpa using h), children,
        node_of_size_le (by simpa using h)]
  · rw [children, setParent, node_modify_other f hj, children]

/-- What a node carries says nothing about links. -/
theorem links_setEntry (f : Forest) (i : NodeId) (e : Entry) (j : NodeId) :
    (f.setEntry i e).parent j = f.parent j ∧ (f.setEntry i e).children j = f.children j := by
  have hnode : ((f.setEntry i e).node j).parent = (f.node j).parent ∧
      ((f.setEntry i e).node j).children = (f.node j).children := by
    by_cases hj : j = i
    · subst hj
      by_cases h : j < f.size
      · rw [setEntry, node_modify_same h]
        exact ⟨rfl, rfl⟩
      · rw [node_of_size_le (by simpa using h), node_of_size_le (by simpa using h)]
        exact ⟨rfl, rfl⟩
    · rw [setEntry, node_modify_other f hj]
      exact ⟨rfl, rfl⟩
  exact hnode

/-- A new node has no links, and neither has a number that is not in use. -/
theorem links_alloc (f : Forest) (e : Entry) (j : NodeId) :
    (f.alloc e).1.parent j = f.parent j ∧ (f.alloc e).1.children j = f.children j := by
  have hnode : ((f.alloc e).1.node j).parent = (f.node j).parent ∧
      ((f.alloc e).1.node j).children = (f.node j).children := by
    rcases Nat.lt_trichotomy j f.size with h | rfl | h
    · rw [node_alloc_other f e h]
      exact ⟨rfl, rfl⟩
    · have hnew : (f.alloc e).1.node f.size = { entry := e } := node_alloc_same f e
      rw [hnew, node_of_size_le le_rfl]
      exact ⟨rfl, rfl⟩
    · rw [node_of_size_le (f := (f.alloc e).1) (by simpa using Nat.succ_le_of_lt h), node_of_size_le h.le]
      exact ⟨rfl, rfl⟩
  exact hnode

/-! ## Walking upwards -/

theorem above_of_parent (h : f.parent c = some p) : f.Above p c := .single h

/-- What is above a node is its parent or above its parent. -/
theorem above_iff : f.Above a i ↔ ∃ p, f.parent i = some p ∧ (a = p ∨ f.Above a p) := by
  constructor
  · intro h
    cases h with
    | single h => exact ⟨a, h, .inl rfl⟩
    | tail hap h => exact ⟨_, h, .inr hap⟩
  · rintro ⟨p, hp, rfl | hap⟩
    · exact .single hp
    · exact .tail hap hp

theorem above_of_mem_upwards {n : Nat} (h : a ∈ f.upwards n (f.parent i)) : f.Above a i := by
  induction n generalizing i with
  | zero => simp [upwards] at h
  | succ n ih =>
    cases hp : f.parent i with
    | none => simp [hp, upwards] at h
    | some p =>
      rw [hp, upwards] at h
      rcases List.mem_cons.1 h with rfl | h
      · exact above_of_parent hp
      · exact above_iff.2 ⟨p, hp, .inr (ih h)⟩

theorem exists_mem_upwards (h : f.Above a i) : ∃ n, a ∈ f.upwards n (f.parent i) := by
  induction h with
  | single h => exact ⟨1, by simp [h, upwards]⟩
  | tail _ h ih =>
    obtain ⟨n, hn⟩ := ih
    exact ⟨n + 1, by rw [h, upwards]; exact List.mem_cons_of_mem _ hn⟩

/-- A shorter walk is the start of a longer one. -/
theorem upwards_eq_take {n m : Nat} (h : n ≤ m) (x : Option NodeId) :
    f.upwards n x = (f.upwards m x).take n := by
  induction n generalizing m x with
  | zero => simp [upwards]
  | succ n ih =>
    obtain ⟨m, rfl⟩ : ∃ k, m = k + 1 := ⟨m - 1, by omega⟩
    cases x with
    | none => simp [upwards]
    | some y => rw [upwards, upwards, List.take_succ_cons, ← ih (by omega)]

namespace IsForest

theorem congr (h : f.IsForest) (hp : ∀ i, g.parent i = f.parent i)
    (hc : ∀ i, g.children i = f.children i) : g.IsForest where
  linked p c := by rw [hp, hc]; exact h.linked p c
  once p := by rw [hc]; exact h.once p
  layered := by
    obtain ⟨depth, hdepth⟩ := h.layered
    exact ⟨depth, fun p c hpc => hdepth p c (by rwa [← hp])⟩

/-- Both ends of a link are in the table. -/
theorem lt_size (h : f.IsForest) (hpc : f.parent c = some p) : p < f.size ∧ c < f.size := by
  constructor
  · by_contra hp
    have hmem := (h.linked p c).2 hpc
    rw [children, node_of_size_le (by simpa using hp)] at hmem
    cases hmem
  · by_contra hc
    rw [parent, node_of_size_le (by simpa using hc)] at hpc
    cases hpc

theorem mem_lt_size (h : f.IsForest) (hc : c ∈ f.children p) : c < f.size :=
  (h.lt_size ((h.linked p c).1 hc)).2

theorem not_above_self (h : f.IsForest) (i : NodeId) : ¬ f.Above i i := by
  obtain ⟨depth, hdepth⟩ := h.layered
  have hlt : ∀ {a i}, f.Above a i → depth a < depth i := by
    intro a i ha
    induction ha with
    | single hp => exact hdepth _ _ hp
    | tail _ hp ih => exact ih.trans (hdepth _ _ hp)
  exact fun hi => lt_irrefl _ (hlt hi)

/-- A walk upwards never comes to a node twice, so it has at most as many nodes as the table. -/
theorem length_upwards_le (h : f.IsForest) (n : Nat) (i : NodeId) :
    (f.upwards n (f.parent i)).length ≤ f.size := by
  have hnodup : ∀ n i, (f.upwards n (f.parent i)).Nodup := by
    intro n
    induction n with
    | zero => simp [upwards]
    | succ n ih =>
      intro i
      cases hp : f.parent i with
      | none => simp [upwards]
      | some p =>
        rw [upwards]
        exact List.nodup_cons.2 ⟨fun hm => h.not_above_self p (above_of_mem_upwards hm), ih p⟩
  have hsub : f.upwards n (f.parent i) ⊆ List.range f.size := by
    intro a ha
    obtain ⟨x, hx, -⟩ : ∃ x, f.parent x = some a ∧ True := by
      have habove := above_of_mem_upwards ha
      rcases Relation.TransGen.head'_iff.1 habove with ⟨x, hx, -⟩
      exact ⟨x, hx, trivial⟩
    exact List.mem_range.2 (h.lt_size hx).1
  simpa using ((hnodup n i).subperm hsub).length_le

/-- The walk upwards comes to everything that stands above a node. -/
theorem mem_ancestors_iff (h : f.IsForest) : a ∈ f.ancestors i ↔ f.Above a i := by
  refine ⟨above_of_mem_upwards, fun ha => ?_⟩
  obtain ⟨n, hn⟩ := exists_mem_upwards ha
  have hle : n ≤ n + f.size := Nat.le_add_right _ _
  rw [upwards_eq_take hle] at hn
  have hwhole : f.ancestors i = f.upwards (n + f.size) (f.parent i) := by
    rw [ancestors, upwards_eq_take (Nat.le_add_left _ n)]
    exact List.take_of_length_le (h.length_upwards_le _ i)
  rw [hwhole]
  exact List.mem_of_mem_take hn

/-- No node is its own ancestor. -/
theorem not_mem_ancestors (h : f.IsForest) (i : NodeId) : i ∉ f.ancestors i :=
  fun hi => h.not_above_self i (h.mem_ancestors_iff.1 hi)

theorem not_atOrAbove (h : f.IsForest) (ha : f.isAtOrAbove a i = false) :
    a ≠ i ∧ ¬ f.Above a i := by
  simp only [isAtOrAbove, List.contains_eq_mem, Bool.or_eq_false_iff, beq_eq_false_iff_ne,
    decide_eq_false_iff_not] at ha
  exact ⟨ha.1, fun habove => ha.2 (h.mem_ancestors_iff.2 habove)⟩

/-- Nodes may be given a new parent that is neither one of them nor below one of them. -/
theorem exists_depth_of_moved (h : f.IsForest) {parent' : NodeId → Option NodeId}
    (moved : NodeId → Prop) (hp : ∀ s, moved s → s ≠ p ∧ ¬ f.Above s p)
    (hparent : ∀ q c, parent' c = some q → moved c ∧ q = p ∨ f.parent c = some q) :
    ∃ depth : NodeId → Nat, ∀ q c, parent' c = some q → depth q < depth c := by
  classical
  obtain ⟨depth, hdepth⟩ := h.layered
  -- What is moved, and all below it, gets deeper by more than the depth of the new parent.
  let below (i : NodeId) : Prop := ∃ s, moved s ∧ (s = i ∨ f.Above s i)
  refine ⟨fun i => if below i then depth i + depth p + 1 else depth i, fun q c hc => ?_⟩
  have hbelow : ¬ below p := by
    rintro ⟨s, hs, rfl | habove⟩
    · exact (hp s hs).1 rfl
    · exact (hp s hs).2 habove
  rcases hparent q c hc with ⟨hmoved, rfl⟩ | hold
  · have hcb : below c := ⟨c, hmoved, .inl rfl⟩
    simp only [if_neg hbelow, if_pos hcb]
    omega
  · have hlt := hdepth q c hold
    by_cases hq : below q
    · have hcb : below c := by
        obtain ⟨s, hs, hsq⟩ := hq
        refine ⟨s, hs, .inr (above_iff.2 ⟨q, hold, ?_⟩)⟩
        exact hsq.imp_left fun he => he
      simp only [if_pos hq, if_pos hcb]
      omega
    · simp only [if_neg hq]
      split <;> omega

/-! ## Edits -/

theorem empty : Forest.empty.IsForest := by
  have hnode : ∀ i, Forest.empty.node i = {} := by
    intro i
    cases i with
    | zero => rfl
    | succ i => exact node_of_size_le (by simp [size, Forest.empty])
  refine ⟨fun p c => ?_, fun p => ?_, ⟨fun _ => 0, fun p c hc => ?_⟩⟩
  · simp [children, parent, hnode]
  · simp [children, hnode]
  · simp [parent, hnode] at hc

theorem alloc (h : f.IsForest) (e : Entry) : (f.alloc e).1.IsForest :=
  h.congr (fun i => (f.links_alloc e i).1) fun i => (f.links_alloc e i).2

theorem setEntry (h : f.IsForest) (i : NodeId) (e : Entry) : (f.setEntry i e).IsForest :=
  h.congr (fun j => (f.links_setEntry i e j).1) fun j => (f.links_setEntry i e j).2

theorem unionComments (h : f.IsForest) (i : NodeId) (xs : List String) :
    (f.unionComments i xs).IsForest :=
  h.setEntry i _

/-- A node without a parent is put among the children of a node that is not at or below it. -/
theorem place (h : f.IsForest) (hp : p < f.size) (hc : c < f.size) (hnone : f.parent c = none)
    (hcycle : c ≠ p ∧ ¬ f.Above c p) {cs : List NodeId} (hcs : cs.Perm (c :: f.children p)) :
    ((f.setChildren p cs).setParent c (some p)).IsForest := by
  have hparent : ∀ i, ((f.setChildren p cs).setParent c (some p)).parent i =
      if i = c then some p else f.parent i := by
    intro i
    rw [parent_setParent _ (by simpa using hc), parent_setChildren]
  have hchildren : ∀ i, ((f.setChildren p cs).setParent c (some p)).children i =
      if i = p then cs else f.children i := by
    intro i
    rw [children_setParent, children_setChildren f hp]
  have hnew : c ∉ f.children p := fun hm => by
    rw [(h.linked p c).1 hm] at hnone
    cases hnone
  refine ⟨fun q i => ?_, fun q => ?_, ?_⟩
  · rw [hparent, hchildren]
    by_cases hq : q = p
    · subst hq
      rw [if_pos rfl, hcs.mem_iff, List.mem_cons, h.linked]
      by_cases hi : i = c <;> simp [hi]
    · rw [if_neg hq, h.linked]
      by_cases hi : i = c
      · simp [hi, hnone, Ne.symm hq]
      · rw [if_neg hi]
  · rw [hchildren]
    split
    · exact hcs.nodup_iff.2 (List.nodup_cons.2 ⟨hnew, h.once p⟩)
    · exact h.once q
  · refine h.exists_depth_of_moved (p := p) (· = c) (by rintro s rfl; exact hcycle) ?_
    intro q i hi
    rw [hparent] at hi
    split at hi
    · next hic => exact .inl ⟨hic, (Option.some.inj hi).symm⟩
    · exact .inr hi

theorem insert (h : f.IsForest) (hp : p < f.size) (hc : c < f.size) {position : Nat}
    (hg : f.insert p position c = .ok g) : g.IsForest ∧ g.size = f.size := by
  obtain ⟨-, hnone, hcycle, rfl⟩ := insert_eq_ok hg
  refine ⟨h.place hp hc hnone (h.not_atOrAbove hcycle) ?_, by simp⟩
  exact List.perm_insertIdx _ _ (min_le_right _ _)

theorem attach (h : f.IsForest) (hp : p < f.size) (hc : c < f.size)
    (hg : f.attach p c = .ok g) : g.IsForest ∧ g.size = f.size :=
  h.insert hp hc hg

theorem detach (h : f.IsForest) (hi : i < f.size) : (f.detach i).IsForest := by
  rw [Forest.detach]
  cases hp : f.parent i with
  | none => exact h
  | some p =>
    have hps := (h.lt_size hp).1
    have hparent : ∀ cs j, ((f.setParent i none).setChildren p cs).parent j =
        if j = i then none else f.parent j := by
      intro cs j
      rw [parent_setChildren, parent_setParent f hi]
    have hchildren : ∀ cs j, ((f.setParent i none).setChildren p cs).children j =
        if j = p then cs else f.children j := by
      intro cs j
      rw [children_setChildren _ (by simpa using hps), children_setParent]
    refine ⟨fun q j => ?_, fun q => ?_, ?_⟩
    · simp only [hparent, hchildren, children_setParent]
      by_cases hj : j = i
      · subst hj
        by_cases hq : q = p
        · simp [hq]
        · simp [hq, h.linked, hp, Ne.symm hq]
      · by_cases hq : q = p <;> simp [hq, hj, h.linked]
    · simp only [hchildren, children_setParent]
      split
      · exact (h.once p).filter _
      · exact h.once q
    · obtain ⟨depth, hdepth⟩ := h.layered
      refine ⟨depth, fun q j hj => hdepth q j ?_⟩
      simp only [hparent] at hj
      split at hj
      · cases hj
      · exact hj

/-- One of several different items is exchanged for a new one. -/
theorem mem_exchange {xs ys : List NodeId} {old new : NodeId} (hold : (xs ++ old :: ys).Nodup)
    (hnew : new ∉ xs ++ old :: ys) : (xs ++ new :: ys).Nodup ∧
      ∀ x, x ∈ xs ++ new :: ys ↔ x = new ∨ x ∈ xs ++ old :: ys ∧ x ≠ old := by
  rw [List.nodup_middle, List.nodup_cons] at hold
  obtain ⟨hout, hrest⟩ := hold
  have hperm : ∀ y, (xs ++ y :: ys).Perm (y :: (xs ++ ys)) := fun y => List.perm_middle
  refine ⟨(hperm new).nodup_iff.2 (List.nodup_cons.2 ⟨fun hm => hnew ?_, hrest⟩), fun x => ?_⟩
  · exact (hperm old).mem_iff.2 (List.mem_cons_of_mem _ hm)
  · rw [(hperm new).mem_iff, (hperm old).mem_iff, List.mem_cons, List.mem_cons]
    refine or_congr_right ⟨fun hx => ⟨.inr hx, ?_⟩, fun hx => hx.1.resolve_left hx.2⟩
    rintro rfl
    exact hout hx

theorem replace (h : f.IsForest) {old new : NodeId} (hnew : new < f.size)
    (hg : f.replace old new = .ok g) : g.IsForest ∧ g.size = f.size := by
  obtain ⟨p, xs, ys, hp, hnone, hcycle, hsplit, rfl⟩ := replace_eq_ok hg
  refine ⟨?_, by simp⟩
  obtain ⟨hps, hos⟩ := h.lt_size hp
  have hout : new ∉ f.children p := fun hm => by
    rw [(h.linked p new).1 hm] at hnone
    cases hnone
  have hne : new ≠ old := by
    rintro rfl
    rw [hp] at hnone
    cases hnone
  obtain ⟨hnodup, hmem⟩ := mem_exchange (hsplit ▸ h.once p) (hsplit ▸ hout)
  rw [← hsplit] at hmem
  generalize xs ++ new :: ys = cs at hnodup hmem ⊢
  have hparent : ∀ j, (((f.setChildren p cs).setParent new (some p)).setParent old none).parent j =
      if j = old then none else if j = new then some p else f.parent j := by
    intro j
    rw [parent_setParent _ (by simpa using hos), parent_setParent _ (by simpa using hnew),
      parent_setChildren]
  have hchildren : ∀ j, (((f.setChildren p cs).setParent new (some p)).setParent old
      none).children j = if j = p then cs else f.children j := by
    intro j
    rw [children_setParent, children_setParent, children_setChildren f hps]
  refine ⟨fun q j => ?_, fun q => ?_, ?_⟩
  · rw [hparent, hchildren]
    by_cases hq : q = p
    · rw [if_pos hq, hmem, h.linked, hq]
      by_cases hjo : j = old
      · simp [hjo, Ne.symm hne]
      · by_cases hjn : j = new <;> simp [hjo, hjn, hne]
    · rw [if_neg hq, h.linked]
      by_cases hjo : j = old
      · simp [hjo, hp, Ne.symm hq]
      · by_cases hjn : j = new
        · simp [hjn, hne, hnone, Ne.symm hq]
        · simp [hjo, hjn]
  · rw [hchildren]
    split
    · exact hnodup
    · exact h.once q
  · refine h.exists_depth_of_moved (p := p) (· = new)
      (by rintro s rfl; exact h.not_atOrAbove hcycle) fun q j hj => ?_
    rw [hparent] at hj
    split at hj
    · cases hj
    · split at hj
      · next hjn => exact .inl ⟨hjn, (Option.some.inj hj).symm⟩
      · exact .inr hj

theorem foldl_setParent {f : Forest} {cs : List NodeId} {q : Option NodeId}
    (hcs : ∀ c ∈ cs, c < f.size) :
    (cs.foldl (fun f c => f.setParent c q) f).size = f.size ∧
      ∀ j, (cs.foldl (fun f c => f.setParent c q) f).children j = f.children j ∧
        (cs.foldl (fun f c => f.setParent c q) f).parent j =
          if j ∈ cs then q else f.parent j := by
  induction cs generalizing f with
  | nil => simp
  | cons c cs ih =>
    obtain ⟨hsize, hlinks⟩ := ih (f := f.setParent c q) fun x hx => by simpa using hcs x (by simp [hx])
    refine ⟨hsize.trans (size_setParent ..), fun j => ⟨?_, ?_⟩⟩
    · rw [List.foldl_cons, (hlinks j).1, children_setParent]
    · rw [List.foldl_cons, (hlinks j).2, parent_setParent f (hcs c (by simp))]
      by_cases hj : j ∈ cs
      · simp [hj]
      · by_cases hjc : j = c <;> simp [hj, hjc]

/-- Every node keeps its children but the one they are taken from, and one node gets those behind
its own. -/
theorem links_moveChildren (h : f.IsForest) {source target : NodeId} (hs : source < f.size)
    (ht : target < f.size) (hg : f.moveChildren source target = .ok g) :
    g.size = f.size ∧
      (∀ j, g.parent j = if f.parent j = some source then some target else f.parent j) ∧
      ∀ q, g.children q = (if q = source then [] else f.children q) ++
        if q = target then f.children source else [] := by
  obtain ⟨-, -, k, hk, rfl⟩ := moveChildren_eq_ok hg
  have hvalid : ∀ c ∈ f.children source, c < (f.setChildren source []).size := by
    intro c hc
    simpa using h.mem_lt_size hc
  obtain ⟨hsize, hlinks⟩ := foldl_setParent (q := some target) hvalid
  rw [← hk] at hsize hlinks
  have hkeep : ∀ q, k.children q = if q = source then [] else f.children q := by
    intro q
    rw [(hlinks q).1, children_setChildren f hs]
  refine ⟨by simp [hsize], fun j => ?_, fun q => ?_⟩
  · rw [parent_setChildren, (hlinks j).2, parent_setChildren]
    simp only [h.linked]
  · rw [children_setChildren k (by simpa [hsize] using ht), ← hkeep]
    split
    · next hq => rw [hq]
    · rw [List.append_nil]

theorem moveChildren (h : f.IsForest) {source target : NodeId} (hs : source < f.size)
    (ht : target < f.size) (hg : f.moveChildren source target = .ok g) :
    g.IsForest ∧ g.size = f.size := by
  obtain ⟨-, hcycle, -⟩ := moveChildren_eq_ok hg
  have habove : ¬ f.Above source target := by
    rw [← h.mem_ancestors_iff]
    simpa using hcycle
  obtain ⟨hsize, hparent, hchildren⟩ := h.links_moveChildren hs ht hg
  refine ⟨⟨fun q j => ?_, fun q => ?_, ?_⟩, hsize⟩
  · have hkept : j ∈ (if q = source then [] else f.children q) ↔
        q ≠ source ∧ f.parent j = some q := by
      split
      · next hq => simp [hq]
      · next hq => simp [hq, h.linked]
    have hgot : j ∈ (if q = target then f.children source else []) ↔
        q = target ∧ f.parent j = some source := by
      split
      · next hq => simp [hq, h.linked]
      · next hq => simp [hq]
    rw [hchildren, List.mem_append, hkept, hgot, hparent]
    by_cases hj : f.parent j = some source
    · simp [hj, eq_comm]
    · rw [if_neg hj]
      refine ⟨fun hq => (hq.resolve_right fun he => hj he.2).2, fun hq => .inl ⟨?_, hq⟩⟩
      rintro rfl
      exact hj hq
  · rw [hchildren]
    split
    · split
      · exact h.once source
      · exact List.nodup_nil
    · next hqs =>
      split
      · refine (h.once q).append (h.once source) fun j hj hjs => hqs ?_
        rw [h.linked] at hj hjs
        exact Option.some.inj (hj.symm.trans hjs)
      · simpa using h.once q
  · refine h.exists_depth_of_moved (p := target) (f.parent · = some source) (fun s hps => ?_)
      fun q j hj => ?_
    · constructor
      · rintro rfl
        exact habove (above_of_parent hps)
      · exact fun hst => habove (.head hps hst)
    · rw [hparent] at hj
      split at hj
      · next hm => exact .inl ⟨hm, (Option.some.inj hj).symm⟩
      · exact .inr hj

/-! ## Copies -/

/-- A node whose parent links were kept stands below the same nodes as before. -/
theorem lt_of_above (h : f.IsForest) (hkeep : ∀ j < f.size, g.parent j = f.parent j)
    (ha : g.Above a i) (hi : i < f.size) : a < f.size := by
  induction ha with
  | single hp =>
    rw [hkeep _ hi] at hp
    exact (h.lt_size hp).1
  | tail _ hp ih =>
    rw [hkeep _ hi] at hp
    exact ih (h.lt_size hp).1

mutual
/-- A copy of an outline is a tree of its own beside the trees that are there. -/
theorem graft {f : Forest} (h : f.IsForest) : ∀ o : Outline, (f.graft o).1.IsForest ∧
    f.size < (f.graft o).1.size ∧ (f.graft o).2 = f.size ∧
    (f.graft o).1.parent f.size = none ∧ ∀ j < f.size, (f.graft o).1.parent j = f.parent j
  | .node e cs => by
    have hlt : f.size < (f.alloc e).1.size := by simp
    obtain ⟨hg, hsize, hkeep⟩ := graftAll (h.alloc e) hlt cs
    rw [Forest.graft]
    refine ⟨hg, hlt.trans_le hsize, rfl, ?_, fun j hj => ?_⟩
    · rw [snd_alloc, hkeep _ hlt, (links_alloc f e _).1, parent, node_of_size_le le_rfl]
    · rw [snd_alloc, hkeep _ (hj.trans hlt), (links_alloc f e _).1]
theorem graftAll {f : Forest} (h : f.IsForest) {p : NodeId} (hp : p < f.size) :
    ∀ cs : List Outline, (f.graftAll p cs).IsForest ∧ f.size ≤ (f.graftAll p cs).size ∧
      ∀ j < f.size, (f.graftAll p cs).parent j = f.parent j
  | [] => by
    rw [Forest.graftAll]
    exact ⟨h, le_rfl, fun _ _ => rfl⟩
  | c :: cs => by
    obtain ⟨hg, hsize, hid, hnone, hkeep⟩ := graft h c
    have hp' : p < (f.graft c).1.size := hp.trans hsize
    have hlink : ((f.graft c).1.link p f.size).IsForest := by
      refine hg.place hp' hsize hnone ⟨hp.ne', fun ha => ?_⟩ (List.perm_append_singleton ..)
      exact absurd (h.lt_of_above hkeep ha hp) (lt_irrefl _)
    have hlinksize : ((f.graft c).1.link p f.size).size = (f.graft c).1.size := by
      simp [Forest.link]
    obtain ⟨hall, hsize', hkeep'⟩ := graftAll hlink (by rwa [hlinksize]) cs
    rw [Forest.graftAll]
    simp only [hid]
    refine ⟨hall, hsize.le.trans (hlinksize ▸ hsize'), fun j hj => ?_⟩
    rw [hkeep' j (hlinksize ▸ hj.trans hsize), Forest.link, parent_setParent _ (by simpa using hsize),
      if_neg hj.ne, parent_setChildren, hkeep j hj]
end

end IsForest

end Forest

end StubMerge
