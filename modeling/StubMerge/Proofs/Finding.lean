import StubMerge.Merge.Merger
import StubMerge.Proofs.Edits
import StubMerge.Proofs.Shape

/-!
# What a merge finds

Before a merge changes anything it looks around: it asks the index for a node to match a
declaration with, and the forest for the conflict that this node is already part of. In a tree
whose conflicts have two sides the answers can be read off the frames of the node. A left header finds the other
header (`otherHeader?_left`), nothing else does, and a node that finds a right side stands, below
groups only, on the left of the conflict which that side belongs to (`rightSide?_cases`).
-/

namespace StubMerge

/-! ## The index -/

theorem Index.mem_register {index : Index} {keys : List String} {id i : NodeId} {key : String} :
    (key, i) ∈ (index.register keys id).entries ↔
      key ∈ keys ∧ i = id ∨ (key, i) ∈ index.entries := by
  simp only [Index.register, List.mem_append, List.mem_reverse, List.mem_map, Prod.mk.injEq]
  constructor
  · rintro (⟨k, hk, rfl, rfl⟩ | h)
    · exact .inl ⟨hk, rfl⟩
    · exact .inr h
  · rintro (⟨hk, rfl⟩ | h)
    · exact .inl ⟨key, hk, rfl, rfl⟩
    · exact .inr h

theorem Index.mem_candidates {index : Index} {keys : List String} {i : NodeId} :
    i ∈ index.candidates keys ↔ ∃ key ∈ keys, (key, i) ∈ index.entries := by
  simp [Index.candidates, List.mem_appendNew, Index.latest]

/-- Registering nodes one after the other puts each under the names it goes by. -/
theorem mem_foldl_register {f : Forest} {ids : List NodeId} {index : Index} {key : String}
    {i : NodeId} : (key, i) ∈ (ids.foldl f.register index).entries ↔
      i ∈ ids ∧ key ∈ f.indexKeys i ∨ (key, i) ∈ index.entries := by
  induction ids generalizing index with
  | nil => simp
  | cons j ids ih =>
    rw [List.foldl_cons, ih, Forest.register, Index.mem_register, List.mem_cons]
    constructor
    · rintro (⟨hi, hk⟩ | ⟨hk, rfl⟩ | h)
      · exact .inl ⟨.inr hi, hk⟩
      · exact .inl ⟨.inl rfl, hk⟩
      · exact .inr h
    · rintro (⟨rfl | hi, hk⟩ | h)
      · exact .inr (.inl ⟨hk, rfl⟩)
      · exact .inl ⟨hi, hk⟩
      · exact .inr (.inr h)

namespace Merger

/-- If nothing is found, everything under these names is open. -/
theorem previous?_eq_none {m : Merger} {scopes : List NodeId} {keys : List String} {kind : Kind}
    (h : m.previous? scopes keys kind = none) {i : NodeId} (hi : i ∈ m.index.candidates keys) :
    i ∈ scopes := by
  rw [previous?, Option.or_eq_none_iff, List.head?_eq_none_iff, List.filter_eq_nil_iff] at h
  simpa using h.2 i hi

/-- What is found goes by one of the names and is not open. If it does not agree, nothing else
under these names does. -/
theorem previous?_eq_some {m : Merger} {scopes : List NodeId} {keys : List String} {kind : Kind}
    {i : NodeId} (h : m.previous? scopes keys kind = some i) :
    i ∈ m.index.candidates keys ∧ i ∉ scopes ∧
      ((m.output.kind i).agrees kind = false → ∀ j ∈ m.index.candidates keys, j ∉ scopes →
        (m.output.kind j).agrees kind = false) := by
  have hmem : ∀ j, j ∈ (m.index.candidates keys).filter (fun id => !scopes.contains id) ↔
      j ∈ m.index.candidates keys ∧ j ∉ scopes := by simp
  rw [previous?, Option.or_eq_some_iff] at h
  rcases h with h | ⟨hnone, h⟩
  · have hi := (hmem i).1 (List.mem_of_find?_eq_some h)
    exact ⟨hi.1, hi.2, fun hf => by simp [List.find?_some h] at hf⟩
  · have hi := (hmem i).1 (List.mem_of_head? h)
    refine ⟨hi.1, hi.2, fun _ j hj hs => ?_⟩
    simpa using List.find?_eq_none.1 hnone j ((hmem j).2 ⟨hj, hs⟩)

/-! ## Conflicts that are there -/

variable {f : Forest} {s : Tree} {K : Frames} {ts : List Tree}

theorem children_frame {k : Frame} (h : f.Shows (s.under (k :: K) :: ts)) :
    f.children k.id = k.before.map Tree.id ++ s.id :: k.after.map Tree.id := by
  have h' : f.children (k.fill s).id = (k.fill s).children.map Tree.id :=
    Forest.Shows.children_eq (K := K) h
  simpa [Frame.fill] using h'

theorem kind_frame {k : Frame} (h : f.Shows (s.under (k :: K) :: ts)) :
    f.kind k.id = k.entry.kind :=
  Forest.Shows.kind_eq (s := k.fill s) (K := K) h

/-- A left header finds the other one. -/
theorem otherHeader?_left {k : Frame} {b : Tree} {l : Labels}
    (h : f.Shows (s.under (k :: K) :: ts)) (hk : k.entry.kind = .scopeConflict l)
    (hbefore : k.before = []) (hafter : k.after = [b]) : otherHeader? f s.id = some b.id := by
  rw [otherHeader?, h.parent_eq, Frames.parent_cons, Option.bind_some, kind_frame h,
    children_frame h, hk, hbefore, hafter]
  simp

/-- Only a left header finds another header. -/
theorem otherHeader?_eq_none (h : f.Shows (s.under K :: ts)) (hs : (s.under K).Sided false)
    (hK : Frames.slot K ≠ .header .left) : otherHeader? f s.id = none := by
  cases K with
  | nil => rw [otherHeader?, h.parent_eq]; rfl
  | cons k K =>
    rw [otherHeader?, h.parent_eq, Frames.parent_cons, Option.bind_some, kind_frame h,
      children_frame h]
    cases hk : k.entry.kind with
    | scopeConflict l =>
      have hframe := hs.at_frame
      rw [hk] at hframe
      obtain ⟨a, b, heq, -⟩ := hframe
      rcases Tree.Shaped.eq_pair_cases heq with ⟨hbe, rfl, haf⟩ | ⟨hbe, rfl, haf⟩
      · exact absurd (by simp [Frames.slot, hk, hbe, Kind.slot]) hK
      · have hne := h.not_mem_siblings.1
        simp only [hbe, List.map_cons, List.map_nil, List.mem_singleton] at hne
        simp [hbe, haf, Ne.symm hne]
    | _ => rfl

/-- Who finds a right side stands on the left of its conflict, below groups only. -/
theorem rightAbove?_cases (h : f.Shows (s.under K :: ts)) (hs : (s.under K).Sided false) :
    rightAbove? f s.id (K.map Frame.id) = none ∨
      ∃ (G : Frames) (k : Frame) (K' : Frames) (r : Tree) (l : Labels), K = G ++ k :: K' ∧
        (∀ g ∈ G, g.entry.kind = .group) ∧ k.entry.kind = .conflict l ∧ k.before = [] ∧
        k.after = [r] ∧
        rightAbove? f s.id (K.map Frame.id) = some r.id := by
  induction K generalizing s with
  | nil => exact .inl rfl
  | cons k K ih =>
    rw [List.map_cons, rightAbove?, kind_frame h, children_frame h]
    cases hk : k.entry.kind with
    | group =>
      rcases ih (s := k.fill s) h hs with h' | ⟨G, k', K', r, l, rfl, hG, hk', hb, ha, h'⟩
      · exact .inl h'
      · exact .inr ⟨k :: G, k', K', r, l, rfl, List.forall_mem_cons.2 ⟨hk, hG⟩, hk', hb, ha, h'⟩
    | conflict l =>
      have hframe := hs.at_frame
      rw [hk] at hframe
      obtain ⟨a, b, heq, -⟩ := hframe
      rcases Tree.Shaped.eq_pair_cases heq with ⟨hbe, rfl, haf⟩ | ⟨hbe, rfl, haf⟩
      · exact .inr ⟨[], k, K, b, l, rfl, by simp, hk, hbe, haf, by simp [hbe, haf]⟩
      · have hne := h.not_mem_siblings.1
        simp only [hbe, List.map_cons, List.map_nil, List.mem_singleton] at hne
        simp [hbe, haf, Ne.symm hne]
    | _ => exact .inl rfl

theorem rightSide?_cases (h : f.Shows (s.under K :: ts)) (hs : (s.under K).Sided false) :
    rightSide? f s.id = none ∨
      ∃ (G : Frames) (k : Frame) (K' : Frames) (r : Tree) (l : Labels), K = G ++ k :: K' ∧
        (∀ g ∈ G, g.entry.kind = .group) ∧ k.entry.kind = .conflict l ∧ k.before = [] ∧
        k.after = [r] ∧
        rightSide? f s.id = some r.id := by
  rw [rightSide?, h.ancestors_eq]
  exact rightAbove?_cases h hs

end Merger

end StubMerge
