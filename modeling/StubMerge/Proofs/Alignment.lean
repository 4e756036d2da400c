import StubMerge.Proofs.Visiting

/-!
# Headers of one name

Resolving to the right puts the body of a scope below its second header. What is in it goes by the
same names as before only if both headers have one name. `Tree.Aligned` says that of every conflict
between headers, and a merge keeps it as long as it matches scopes of one name only.
-/

namespace StubMerge

namespace Tree

/-- The headers of a conflict have one name. -/
def AlignedAt : Kind → List Tree → Prop
  | .scopeConflict _, cs => ∃ name, ∀ c ∈ cs, c.kind.scopeName? = some name
  | _, _ => True

/-- All headers that are in conflict have one name. -/
abbrev Aligned : Tree → Prop := Everywhere AlignedAt

theorem alignedAt_of_not_conflict {kind : Kind} (h : kind.isConflict = false) (cs : List Tree) :
    AlignedAt kind cs := by
  cases kind with
  | scopeConflict _ => cases h
  | _ => trivial

theorem aligned_bare (i : NodeId) (e : Entry) : (node i e []).Aligned := by
  refine .node ?_ (by simp)
  cases e.kind with
  | scopeConflict _ => exact ⟨"", by simp⟩
  | _ => trivial

namespace Aligned

variable {s s' : Tree} {K : Frames}

/-- A node that is no header may be changed, and a header if it keeps its name. -/
theorem replace (h : (s.under K).Aligned) (hs' : s'.Aligned)
    (hK : Frames.slot K = .member ∨ s'.kind.scopeName? = s.kind.scopeName?) :
    (s'.under K).Aligned := by
  induction K generalizing s s' with
  | nil => exact hs'
  | cons k K ih =>
    refine ih (s := k.fill s) h (h.refill hs' ?_) (.inr rfl)
    have hat : AlignedAt k.entry.kind (k.before ++ s :: k.after) := h.at_frame
    rw [Frames.slot] at hK
    cases hk : k.entry.kind with
    | scopeConflict l =>
      rw [hk] at hat hK
      obtain ⟨name, hname⟩ := hat
      have hs : s'.kind.scopeName? = s.kind.scopeName? := by
        rcases hK with hK | hK
        · cases hK
        · exact hK
      refine ⟨name, fun c hc => ?_⟩
      rcases List.mem_append.1 hc with hc | hc
      · exact hname c (by simp [hc])
      · rcases List.mem_cons.1 hc with rfl | hc
        · exact hs.trans (hname s (by simp))
        · exact hname c (by simp [hc])
    | _ => trivial

/-- The entry of a node may grow. -/
theorem setEntry {i : NodeId} {e e' : Entry} {cs : List Tree} (h : ((node i e cs).under K).Aligned)
    (he : e.GrowsTo e') (hcs : e'.kind = e.kind ∨ cs = []) : ((node i e' cs).under K).Aligned := by
  have hs := h.of_under
  refine h.replace ?_ (.inr he.kind.scopeName?_eq)
  rcases hcs with hk | rfl
  · refine .node ?_ fun c hc => hs.of_mem hc
    rw [hk]
    exact hs.at_top
  · exact aligned_bare i e'

/-- A tree may be put behind the members of a node. -/
theorem append {i : NodeId} {e : Entry} {cs : List Tree} (h : ((node i e cs).under K).Aligned)
    {c : Tree} (hc : c.Aligned) (he : e.kind.isConflict = false) :
    ((node i e (cs ++ [c])).under K).Aligned := by
  refine h.replace (.node (alignedAt_of_not_conflict he _) fun d hd => ?_) (.inr rfl)
  rcases List.mem_append.1 hd with hd | hd
  · exact h.of_under.of_mem hd
  · exact List.mem_singleton.1 hd ▸ hc

end Aligned

end Tree

namespace Outline

mutual
theorem aligned_number : ∀ (o : Outline) (n : NodeId), o.isConflictFree = true →
    (o.number n).Aligned
  | node e cs, n, h => by
    obtain ⟨hk, -, hcs⟩ := isConflictFree_node.1 h
    rw [number]
    exact .node (Tree.alignedAt_of_not_conflict hk _) (aligned_numberAll cs (n + 1) hcs)
/-- Outlines without conflicts have no headers that are in conflict. -/
theorem aligned_numberAll : ∀ (os : List Outline) (n : NodeId), areConflictFree os = true →
    ∀ c ∈ numberAll n os, c.Aligned
  | [], _, _ => by simp [numberAll]
  | o :: os, n, h => by
    obtain ⟨ho, hos⟩ := areConflictFree_cons.1 h
    rw [numberAll]
    intro c hc
    rcases List.mem_cons.1 hc with rfl | hc
    · exact aligned_number o n ho
    · exact aligned_numberAll os _ hos c hc
end

end Outline

namespace Merger

variable {m m' : Merger} {t t' c : Tree} {scopes : List NodeId} {keys : List String} {d : Entry}

theorem Sets.aligned {l : Labels} {n : NodeId} {p : Place} (h : Sets l n p c t t')
    (ht : t.Aligned) (hc : c.Aligned) : t'.Aligned := by
  cases h with
  | join _ he _ _ => exact ht.append hc (by rw [he]; rfl)
  | wrap hK _ _ _ _ =>
    refine ht.replace (.node trivial fun x hx => ?_) (.inl hK)
    rcases List.mem_pair.1 hx with rfl | rfl
    · exact .node trivial fun y hy => List.mem_singleton.1 hy ▸ ht.of_under
    · exact .node trivial fun y hy => List.mem_singleton.1 hy ▸ hc

theorem AddsLeaf.aligned (h : AddsLeaf m scopes keys d t m' t') (ht : t.Aligned) : t'.Aligned := by
  cases h with
  | new _ he _ _ => exact ht.append (Tree.aligned_bare _ _) he
  | fold _ _ hagree _ => exact ht.setEntry (Entry.growsTo_fold hagree) (.inr rfl)
  | oppose _ _ _ _ _ hsets => exact hsets.aligned ht (Tree.aligned_bare _ _)

/-- Opening a scope keeps headers of one name together if what is found has that name. -/
theorem OpensScope.aligned {i : NodeId} (h : OpensScope m scopes keys d t m' t' i)
    (ht : t.Aligned) (hd : d.kind.isScope = true)
    (hname : ∀ p ∈ t.places, m.previous? scopes keys d.kind = some p.id → p.kind.isScope = true →
      p.kind.scopeName? = d.kind.scopeName?) : t'.Aligned := by
  cases h with
  | new _ he _ _ => exact ht.append (Tree.aligned_bare _ _) he
  | oppose _ _ _ _ _ hsets => exact hsets.aligned ht (Tree.aligned_bare _ _)
  | fold | foldOther => exact ht.setEntry (Entry.growsTo_addComments _ _) (.inl rfl)
  | third => exact ht
  | @second K i e cs m' hprev hK he _ _ =>
    have heq := hname _ (Tree.placeIn_mem_places (.node i e cs) K) hprev he
    obtain ⟨sc, hsc⟩ := Kind.exists_scope hd
    refine ht.replace (.node ⟨sc.name, fun x hx => ?_⟩ fun x hx => ?_) (.inl hK)
    · rcases List.mem_pair.1 hx with rfl | rfl
      · exact heq.trans (by rw [hsc]; rfl)
      · exact congrArg Kind.scopeName? hsc
    · rcases List.mem_pair.1 hx with rfl | rfl
      · exact ht.of_under
      · exact Tree.aligned_bare _ _

end Merger

end StubMerge
