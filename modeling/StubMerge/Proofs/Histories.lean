import StubMerge.Proofs.Soundness

/-!
# What edits can make of the empty forest

`Forest.Made` holds of every forest that a sequence of calls makes of the empty one: nodes are
made, put somewhere, moved, taken out, copied from another forest that was made in the same way, or
given another entry. The calls may fail. All that is asked is that they name nodes which exist.

**Theorem (`made_links_agree`).** In such a forest the two ways in which a link is written down
agree, no node is listed twice, and no node stands above itself. So the walks, which take at most as
many steps as there are nodes, are never cut short, and replacing a node never finds that it is
missing among the children of its parent.

For the walks it has to be shown that none of them comes to a node twice. Upwards that is plain.
Downwards the stack is what has to be looked at: of the nodes on it, none stands above another
(`Apart`), and this is kept when the topmost is exchanged for its children.
-/

namespace StubMerge

namespace Forest

variable {f g : Forest} {i j p c : NodeId}

/-! ## Walks in a forest -/

/-- No node of a list is there twice, or stands above another. -/
def Apart (f : Forest) (ids : List NodeId) : Prop :=
  ids.Nodup ∧ ∀ a ∈ ids, ∀ b ∈ ids, ¬ f.Above a b

/-- A node is in a list, or one of the list stands above it. -/
def AtOrBelow (f : Forest) (ids : List NodeId) (i : NodeId) : Prop :=
  ∃ a ∈ ids, a = i ∨ f.Above a i

theorem Above.trans {a b c : NodeId} (hab : f.Above a b) (hbc : f.Above b c) : f.Above a c :=
  Relation.TransGen.trans hab hbc

/-- A shorter walk is the start of a longer one. -/
theorem walk_eq_take {n m : Nat} (h : n ≤ m) (stack : List NodeId) :
    f.walk n stack = (f.walk m stack).take n := by
  induction n generalizing m stack with
  | zero => simp [walk]
  | succ n ih =>
    obtain ⟨m, rfl⟩ : ∃ k, m = k + 1 := ⟨m - 1, by omega⟩
    cases stack with
    | nil => simp [walk]
    | cons i stack => rw [walk, walk, List.take_succ_cons, ← ih (by omega)]

namespace IsForest

/-- What is at or below the children of a node is below the node. -/
theorem above_of_atOrBelow_children (h : f.IsForest) (hj : f.AtOrBelow (f.children i) j) :
    f.Above i j := by
  obtain ⟨c, hc, rfl | hcj⟩ := hj
  · exact above_of_parent ((h.linked i c).1 hc)
  · exact (above_of_parent ((h.linked i c).1 hc)).trans hcj

theorem apart_children (h : f.IsForest) (i : NodeId) : f.Apart (f.children i) := by
  refine ⟨h.once i, fun a ha b hb hab => ?_⟩
  obtain ⟨p, hp, hap⟩ := above_iff.1 hab
  obtain rfl : p = i := Option.some.inj (hp.symm.trans ((h.linked i b).1 hb))
  have hpa : f.Above p a := above_of_parent ((h.linked p a).1 ha)
  rcases hap with rfl | hap
  · exact h.not_above_self _ hpa
  · exact h.not_above_self _ (hpa.trans hap)

/-- One step of a walk downwards keeps the nodes of the stack apart, and never comes back to the
node that was taken. -/
theorem apart_step (h : f.IsForest) {stack : List NodeId} (hs : f.Apart (i :: stack)) :
    f.Apart (f.children i ++ stack) ∧ ¬ f.AtOrBelow (f.children i ++ stack) i := by
  obtain ⟨hnodup, hapart⟩ := hs
  obtain ⟨hi, hstack⟩ := List.nodup_cons.1 hnodup
  obtain ⟨hcs, hchildren⟩ := h.apart_children i
  have hbelow : ∀ c ∈ f.children i, f.Above i c := fun c hc =>
    above_of_parent ((h.linked i c).1 hc)
  -- Nothing on the stack is below the node, or above one of its children.
  have hdown : ∀ s ∈ stack, ¬ f.Above i s := fun s hs =>
    hapart i (by simp) s (by simp [hs])
  have hup : ∀ c ∈ f.children i, ∀ s ∈ stack, ¬ f.Above s c := by
    intro c hc s hs hsc
    obtain ⟨p, hp, hsp⟩ := above_iff.1 hsc
    obtain rfl : p = i := Option.some.inj (hp.symm.trans ((h.linked i c).1 hc))
    rcases hsp with rfl | hsp
    · exact hi hs
    · exact hapart s (by simp [hs]) p (by simp) hsp
  refine ⟨⟨hcs.append hstack fun c hc hs => hdown c hs (hbelow c hc), ?_⟩, ?_⟩
  · intro a ha b hb hab
    rcases List.mem_append.1 ha with ha | ha <;> rcases List.mem_append.1 hb with hb | hb
    · exact hchildren a ha b hb hab
    · exact hdown b hb ((hbelow a ha).trans hab)
    · exact hup b hb a ha hab
    · exact hapart a (by simp [ha]) b (by simp [hb]) hab
  · rintro ⟨a, ha, hai⟩
    rcases List.mem_append.1 ha with hc | hs
    · exact h.not_above_self i (h.above_of_atOrBelow_children ⟨a, hc, hai⟩)
    · rcases hai with rfl | hai
      · exact hi hs
      · exact hapart a (by simp [hs]) i (by simp) hai

/-- A walk downwards comes to nodes at or below those of its stack only, and to none twice. -/
theorem nodup_walk (h : f.IsForest) (n : Nat) {stack : List NodeId} (hs : f.Apart stack) :
    (f.walk n stack).Nodup ∧ ∀ j ∈ f.walk n stack, f.AtOrBelow stack j := by
  induction n generalizing stack with
  | zero => simp [walk]
  | succ n ih =>
    cases stack with
    | nil => simp [walk]
    | cons i stack =>
      obtain ⟨happart, hback⟩ := h.apart_step hs
      obtain ⟨hnodup, hbelow⟩ := ih happart
      rw [walk]
      refine ⟨List.nodup_cons.2 ⟨fun hi => hback (hbelow i hi), hnodup⟩, fun j hj => ?_⟩
      rcases List.mem_cons.1 hj with rfl | hj
      · exact ⟨j, by simp, .inl rfl⟩
      · obtain ⟨a, ha, haj⟩ := hbelow j hj
        rcases List.mem_append.1 ha with ha | ha
        · exact ⟨i, by simp, .inr (h.above_of_atOrBelow_children ⟨a, ha, haj⟩)⟩
        · exact ⟨a, by simp [ha], haj⟩

/-- The walk upwards is not cut short. -/
theorem upwards_eq_ancestors (h : f.IsForest) {n : Nat} (hn : f.size ≤ n) (i : NodeId) :
    f.upwards n (f.parent i) = f.ancestors i := by
  rw [ancestors, upwards_eq_take hn]
  exact (List.take_of_length_le (h.length_upwards_le n i)).symm

/-- The walk downwards is not cut short. -/
theorem walk_eq_descendants (h : f.IsForest) {n : Nat} (hn : f.size ≤ n) (i : NodeId) :
    f.walk n (f.children i) = f.descendants i := by
  have hlength : (f.walk n (f.children i)).length ≤ f.size := by
    obtain ⟨hnodup, -⟩ := h.nodup_walk n (h.apart_children i)
    have hsub : f.walk n (f.children i) ⊆ List.range f.size := fun j hj =>
      List.mem_range.2 (h.lt_of_mem_walk (fun _ hc => h.mem_lt_size hc) hj)
    simpa using (hnodup.subperm hsub).length_le
  rw [descendants, walk_eq_take hn]
  exact (List.take_of_length_le hlength).symm

theorem ancestors_of_parent (h : f.IsForest) (hp : f.parent c = some p) :
    f.ancestors c = p :: f.ancestors p := by
  rw [← h.upwards_eq_ancestors (Nat.le_succ _) c, hp, upwards, ancestors]

/-- A node that has children is not so deep as there are nodes. -/
theorem length_ancestors_lt (h : f.IsForest) (hc : c ∈ f.children i) :
    (f.ancestors i).length < f.size ∧ (f.ancestors c).length = (f.ancestors i).length + 1 := by
  have hcons := h.ancestors_of_parent ((h.linked i c).1 hc)
  have hle : (f.ancestors c).length ≤ f.size := h.length_upwards_le _ c
  rw [hcons, List.length_cons] at hle
  exact ⟨hle, by rw [hcons, List.length_cons]⟩

/-- A node with as many nodes above it as there are nodes has no children. -/
theorem children_eq_nil (h : f.IsForest) (hi : f.size ≤ (f.ancestors i).length) :
    f.children i = [] := by
  apply List.eq_nil_iff_forall_not_mem.2
  intro c hc
  exact absurd (h.length_ancestors_lt hc).1 (by omega)

/-- An outline does not get longer when it goes deeper than there are nodes. Every node above the
top is one level that need not be gone down. -/
theorem outlineTo_eq_of_le (h : f.IsForest) {n m : Nat} {i : NodeId}
    (hn : f.size ≤ n + (f.ancestors i).length) (hm : f.size ≤ m + (f.ancestors i).length) :
    f.outlineTo n i = f.outlineTo m i := by
  induction n generalizing m i with
  | zero =>
    cases m with
    | zero => rfl
    | succ m => rw [outlineTo, outlineTo, h.children_eq_nil (by omega), List.map_nil]
  | succ n ih =>
    cases m with
    | zero => rw [outlineTo, outlineTo, h.children_eq_nil (by omega), List.map_nil]
    | succ m =>
      rw [outlineTo, outlineTo]
      congr 1
      apply List.map_congr_left
      intro c hc
      have hlevel := (h.length_ancestors_lt hc).2
      exact ih (by omega) (by omega)

/-- A node is found among the children of its parent. -/
theorem exists_position (h : f.IsForest) (hp : f.parent i = some p) :
    ∃ n, f.position? i = some n := by
  have hmem : i ∈ f.children p := (h.linked p i).2 hp
  rw [position?, hp, Option.bind_some]
  exact Option.isSome_iff_exists.1 (List.isSome_idxOf?.2 hmem)

theorem replace_ne_corrupted (h : f.IsForest) (old new a b : NodeId) :
    f.replace old new ≠ .error (.corrupted a b) := by
  intro herror
  unfold Forest.replace at herror
  split at herror
  · cases herror
  · next p hp =>
    obtain ⟨n, hn⟩ := h.exists_position hp
    split at herror
    · cases herror
    · split at herror
      · cases herror
      · simp only [hn] at herror
        cases herror

end IsForest

/-! ## Calls -/

/-- A call that may change a forest. -/
inductive Call where
  | alloc (entry : Entry)
  | push (parent : NodeId) (entry : Entry)
  | attach (parent child : NodeId)
  | insert (parent : NodeId) (position : Nat) (child : NodeId)
  | detach (node : NodeId)
  | replace (old new : NodeId)
  | moveChildren (source target : NodeId)
  | copyHeader (source : Forest) (node : NodeId)
  | copySubtree (source : Forest) (node : NodeId)
  | setKind (node : NodeId) (kind : Kind)
  | setComments (node : NodeId) (comments : List String)
  | setLocation (node : NodeId) (location : Option Location)

namespace Call

/-- The nodes of the forest itself that a call names. -/
def nodes : Call → List NodeId
  | alloc _ | copyHeader _ _ | copySubtree _ _ => []
  | push i _ | detach i | setKind i _ | setComments i _ | setLocation i _ => [i]
  | attach i j | insert i _ j | replace i j | moveChildren i j => [i, j]

/-- The node of another forest that a call copies. -/
def copied? : Call → Option (Forest × NodeId)
  | copyHeader g i | copySubtree g i => some (g, i)
  | _ => none

/-- The forest after an edit: an edit that fails leaves it as it was. -/
def settled (f : Forest) : Except EditError Forest → Forest
  | .ok g => g
  | .error _ => f

/-- The forest after a call, whether it succeeds or fails. -/
def after (f : Forest) : Call → Forest
  | alloc e => (f.alloc e).1
  | push p e => (f.push p e).1
  | attach p c => settled f (f.attach p c)
  | insert p n c => settled f (f.insert p n c)
  | detach i => f.detach i
  | replace old new => settled f (f.replace old new)
  | moveChildren source target => settled f (f.moveChildren source target)
  | copyHeader g i => (f.copyHeader g i).1
  | copySubtree g i => (f.copySubtree g i).1
  | setKind i kind => f.setKind i kind
  | setComments i comments => f.setComments i comments
  | setLocation i location => f.setLocation i location

end Call

/-- A forest that calls make of the empty one. Each names nodes that exist, and copies come from a
forest that was made like this too. -/
inductive Made : Forest → Prop
  | empty : Made .empty
  | call {f : Forest} (c : Call) : Made f → (∀ i ∈ c.nodes, i < f.size) →
      (∀ g i, c.copied? = some (g, i) → Made g) →
      (∀ g i, c.copied? = some (g, i) → i < g.size) → Made (c.after f)

theorem IsForest.settled (h : f.IsForest) {e : Except EditError Forest}
    (he : ∀ g, e = .ok g → g.IsForest ∧ g.size = f.size) : (Call.settled f e).IsForest := by
  cases e with
  | error e => exact h
  | ok g => exact (he g rfl).1

/-- A call that names nodes of a forest leaves a forest. -/
theorem IsForest.after (h : f.IsForest) (call : Call) (hnodes : ∀ i ∈ call.nodes, i < f.size) :
    (call.after f).IsForest := by
  cases call with
  | alloc e => exact h.alloc e
  | push p e =>
    have hp : p < (f.alloc e).1.size := by
      rw [size_alloc]
      exact (hnodes p (by simp [Call.nodes])).trans (Nat.lt_succ_self _)
    have hnew : (f.alloc e).2 < (f.alloc e).1.size := by simp
    rw [Call.after, Forest.push]
    split
    · next g hg => exact ((h.alloc e).attach hp hnew hg).1
    · exact h.alloc e
  | attach p c =>
    exact h.settled fun g hg =>
      h.attach (hnodes p (by simp [Call.nodes])) (hnodes c (by simp [Call.nodes])) hg
  | insert p n c =>
    exact h.settled fun g hg =>
      h.insert (hnodes p (by simp [Call.nodes])) (hnodes c (by simp [Call.nodes])) hg
  | detach i => exact h.detach (hnodes i (by simp [Call.nodes]))
  | replace old new =>
    exact h.settled fun g hg => h.replace (hnodes new (by simp [Call.nodes])) hg
  | moveChildren source target =>
    have hs := hnodes source (by simp [Call.nodes])
    have ht := hnodes target (by simp [Call.nodes])
    exact h.settled fun g hg => h.moveChildren hs ht hg
  | copyHeader g i => exact h.alloc _
  | copySubtree g i => exact (h.graft (g.outline i)).1
  | setKind i _ | setComments i _ | setLocation i _ => exact h.setEntry i _

theorem Made.isForest (h : f.Made) : f.IsForest := by
  induction h with
  | empty => exact .empty
  | call c _ hnodes _ _ ih _ => exact ih.after c hnodes

/-- In every forest that was made by calls a child is listed by its parent and nowhere else, just
once; nothing stands above itself, so that all walks end by themselves; and no replacement finds a
node missing among the children of its parent. -/
theorem made_links_agree (h : f.Made) :
    (∀ p c, c ∈ f.children p ↔ f.parent c = some p) ∧
      (∀ p c, c ∈ f.children p → (f.children p).count c = 1) ∧
      (∀ i, ¬ f.Above i i ∧ i ∉ f.ancestors i) ∧
      (∀ n i, f.size ≤ n → f.upwards n (f.parent i) = f.ancestors i ∧
        f.walk n (f.children i) = f.descendants i ∧ f.outlineTo n i = f.outline i) ∧
      ∀ old new a b, f.replace old new ≠ .error (.corrupted a b) := by
  have hf := h.isForest
  refine ⟨hf.linked, ?_, fun i => ⟨hf.not_above_self i, hf.not_mem_ancestors i⟩, ?_,
    hf.replace_ne_corrupted⟩
  · intro p c hc
    exact List.count_eq_one_of_mem (hf.once p) hc
  · intro n i hn
    refine ⟨hf.upwards_eq_ancestors hn i, hf.walk_eq_descendants hn i, ?_⟩
    exact hf.outlineTo_eq_of_le (by omega) (by omega)

/-- A module with a class in it. -/
def street : Forest :=
  [.push root { kind := .scope (.moduleOf "Street") },
    .push 1 { kind := .scope (.classOf "Car" none) }].foldl Call.after empty

/-- The class is exchanged for a copy of the module, which is then to be put below itself. -/
def rebuiltStreet : Forest :=
  [.copySubtree street 1, .replace 2 3, .attach 4 3, .attach 3 2, .moveChildren 3 1].foldl
    Call.after street

theorem street_made : street.Made := by
  simp only [street, List.foldl]
  refine .call _ (.call _ .empty ?_ ?_ ?_) ?_ ?_ ?_ <;>
    first | decide | (intro g i h; cases h)

theorem rebuiltStreet_made : rebuiltStreet.Made := by
  simp only [rebuiltStreet, List.foldl]
  have hcopy : (Call.after street (.copySubtree street 1)).Made := by
    refine .call _ street_made (by decide) ?_ ?_
    · rintro g i ⟨⟩
      exact street_made
    · rintro g i ⟨⟩
      decide
  refine .call _ (.call _ (.call _ (.call _ hcopy ?_ ?_ ?_) ?_ ?_ ?_) ?_ ?_ ?_) ?_ ?_ ?_ <;>
    first | decide | (intro g i h; cases h)

theorem rebuiltStreet_links_agree :
    rebuiltStreet.Made ∧ rebuiltStreet.children 1 = [3, 4, 2] ∧
      rebuiltStreet.parent 2 = some 1 ∧ (rebuiltStreet.children 1).count 2 = 1 ∧
      rebuiltStreet.walk 100 (rebuiltStreet.children root) = rebuiltStreet.descendants root ∧
      rebuiltStreet.replace 4 2 ≠ .error (.corrupted 4 1) := by
  have hlinks := made_links_agree rebuiltStreet_made
  have hchildren : rebuiltStreet.children 1 = [3, 4, 2] := by decide
  have hmem : 2 ∈ rebuiltStreet.children 1 := by rw [hchildren]; simp
  exact ⟨rebuiltStreet_made, hchildren, (hlinks.1 1 2).1 hmem, hlinks.2.1 1 2 hmem,
    (hlinks.2.2.2.1 100 root (by decide)).2.1, hlinks.2.2.2.2 4 2 4 1⟩

end Forest

end StubMerge
