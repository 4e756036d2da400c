import StubMerge.Merge.Agreement
import StubMerge.Proofs.Places

/-!
# The shape of conflicts

A merge leaves behind conflicts of two kinds, and each has a fixed shape: a conflict has two
groups, neither of them empty; a conflict between headers has two scopes whose headers do not
agree, and the second is a bare header. Leaves have nothing below them. `Tree.Shaped` says that
of every node of a tree.

A change at one node keeps the shape of the whole if it keeps what the node right above looks
at. For a member that is nothing at all.

`Tree.Paired` asks for less: every conflict has two sides of the right kind, whatever is in them.
That is all that coalescing and resolving need.
-/

namespace StubMerge

theorem Kind.exists_leaf {k : Kind} (h : k.isContainer = false) : ∃ l, k = .leaf l := by
  cases k with
  | leaf l => exact ⟨l, rfl⟩
  | _ => cases h

theorem Kind.exists_scope {k : Kind} (h : k.isScope = true) : ∃ s, k = .scope s := by
  cases k with
  | scope s => exact ⟨s, rfl⟩
  | _ => cases h

theorem Kind.isContainer_of_scope {k : Kind} (h : k.isScope = true) : k.isContainer = true := by
  obtain ⟨s, rfl⟩ := exists_scope h
  rfl

theorem Kind.isConflict_of_scope {k : Kind} (h : k.isScope = true) : k.isConflict = false := by
  obtain ⟨s, rfl⟩ := exists_scope h
  rfl

/-- A scope is found under the path that it gives. -/
theorem Kind.keys_of_scope {k : Kind} (h : k.isScope = true) (path : String) :
    k.keys path = [k.within path] := by
  obtain ⟨s, rfl⟩ := exists_scope h
  rfl

namespace Tree

/-- What a node of some kind has below it. -/
def ShapeAt : Kind → List Tree → Prop
  | .leaf _, cs => cs = []
  | .conflict _, cs => ∃ a b, cs = [a, b] ∧ a.kind = .group ∧ b.kind = .group ∧
      a.children ≠ [] ∧ b.children ≠ []
  | .scopeConflict _, cs => ∃ a b sa sb, cs = [a, b] ∧ a.kind = .scope sa ∧ b.kind = .scope sb ∧
      sa.agrees sb = false ∧ b.children = []
  | _, _ => True

/-- Something holds of the kind and the children of every node of a tree. -/
inductive Everywhere (P : Kind → List Tree → Prop) : Tree → Prop
  | node {i : NodeId} {e : Entry} {cs : List Tree} :
      P e.kind cs → (∀ c ∈ cs, Everywhere P c) → Everywhere P (node i e cs)

namespace Everywhere

variable {P : Kind → List Tree → Prop} {s t : Tree} {K : Frames}

theorem at_top (h : t.Everywhere P) : P t.kind t.children := by
  cases h; assumption

theorem of_mem (h : t.Everywhere P) {c : Tree} (hc : c ∈ t.children) : c.Everywhere P := by
  cases h with
  | node _ hcs => exact hcs c hc

theorem of_under (h : (s.under K).Everywhere P) : s.Everywhere P := by
  induction K generalizing s with
  | nil => exact h
  | cons k K ih => exact (ih h).of_mem (by simp [Frame.fill])

/-- What holds of the node right above. -/
theorem at_frame {k : Frame} (h : (s.under (k :: K)).Everywhere P) :
    P k.entry.kind (k.before ++ s :: k.after) :=
  (of_under (s := k.fill s) h).at_top

/-- Another tree may be put below the nearest frame, if the node of that frame allows it. -/
theorem refill {k : Frame} {s' : Tree} (h : (s.under (k :: K)).Everywhere P)
    (hs' : s'.Everywhere P) (hat : P k.entry.kind (k.before ++ s' :: k.after)) :
    (k.fill s').Everywhere P := by
  have hfill : (k.fill s).Everywhere P := of_under (s := k.fill s) h
  refine .node hat fun c hc => ?_
  rcases List.mem_append.1 hc with hc | hc
  · exact hfill.of_mem (by simp [Frame.fill, hc])
  · rcases List.mem_cons.1 hc with rfl | hc
    · exact hs'
    · exact hfill.of_mem (by simp [Frame.fill, hc])

theorem mono {Q : Kind → List Tree → Prop} (h : t.Everywhere P)
    (hPQ : ∀ kind cs, P kind cs → Q kind cs) : t.Everywhere Q := by
  induction h with
  | node hat _ ih => exact .node (hPQ _ _ hat) ih

end Everywhere

/-- Every node of a tree has the shape of its kind. -/
abbrev Shaped : Tree → Prop := Everywhere ShapeAt

namespace Shaped

variable {s s' t : Tree} {k : Frame} {K : Frames}

theorem eq_pair_cases {before after : List Tree} {a b : Tree}
    (h : before ++ s :: after = [a, b]) :
    before = [] ∧ s = a ∧ after = [b] ∨ before = [a] ∧ s = b ∧ after = [] := by
  cases before with
  | nil => simp_all
  | cons x before =>
    cases before with
    | nil => simp_all
    | cons y before => simp at h

/-- A side of a conflict is a group with something in it. -/
theorem of_side {x : Side} (h : (s.under K).Shaped) (hK : Frames.slot K = .side x) :
    s.kind = .group ∧ s.children ≠ [] := by
  obtain ⟨k, K, l, rfl, hk⟩ := Frames.exists_of_slot_side hK
  have hs := h.at_frame
  rw [hk] at hs
  obtain ⟨a, b, heq, ha, hb, hna, hnb⟩ := hs
  rcases eq_pair_cases heq with ⟨-, rfl, -⟩ | ⟨-, rfl, -⟩
  · exact ⟨ha, hna⟩
  · exact ⟨hb, hnb⟩

/-- The two headers of a conflict between headers, seen from the left one. -/
theorem of_left_header (h : (s.under K).Shaped) (hK : Frames.slot K = .header .left) :
    ∃ k K' b sa sb, K = k :: K' ∧ (∃ l, k.entry.kind = .scopeConflict l) ∧ k.before = [] ∧
      k.after = [b] ∧ s.kind = .scope sa ∧ b.kind = .scope sb ∧ sa.agrees sb = false ∧
      b.children = [] := by
  obtain ⟨k, K, l, rfl, hk, hfirst⟩ := Frames.exists_of_slot_header hK
  have hs := h.at_frame
  rw [hk] at hs
  obtain ⟨a, b, sa, sb, heq, ha, hb, hag, hnb⟩ := hs
  rcases eq_pair_cases heq with ⟨hbe, rfl, haf⟩ | ⟨hbe, -, -⟩
  · exact ⟨k, K, b, sa, sb, rfl, ⟨l, hk⟩, hbe, haf, ha, hb, hag, hnb⟩
  · simp [hbe] at hfirst

/-- The right one of two headers is bare. -/
theorem of_right_header (h : (s.under K).Shaped) (hK : Frames.slot K = .header .right) :
    s.children = [] := by
  obtain ⟨k, K, l, rfl, hk, hfirst⟩ := Frames.exists_of_slot_header hK
  have hs := h.at_frame
  rw [hk] at hs
  obtain ⟨a, b, sa, sb, heq, -, -, -, hnb⟩ := hs
  rcases eq_pair_cases heq with ⟨hbe, -, -⟩ | ⟨-, rfl, -⟩
  · simp [hbe] at hfirst
  · exact hnb

/-- A header is a scope. -/
theorem of_header {x : Side} (h : (s.under K).Shaped) (hK : Frames.slot K = .header x) :
    s.kind.isScope = true := by
  obtain ⟨k, K, l, rfl, hk, -⟩ := Frames.exists_of_slot_header hK
  have hs := h.at_frame
  rw [hk] at hs
  obtain ⟨a, b, sa, sb, heq, ha, hb, -, -⟩ := hs
  rcases eq_pair_cases heq with ⟨-, rfl, -⟩ | ⟨-, rfl, -⟩
  · rw [ha]; rfl
  · rw [hb]; rfl

/-! ## Changing one node -/

/-- A child may be changed if it keeps its kind, does not become empty, and gets nothing if it is
a right header. -/
theorem shapeAt_replace {kind : Kind} {before after : List Tree}
    (h : ShapeAt kind (before ++ s :: after)) (hk : s'.kind = s.kind)
    (hne : s.children ≠ [] → s'.children ≠ [])
    (hr : kind.slot before.isEmpty = .header .right → s'.children = []) :
    ShapeAt kind (before ++ s' :: after) := by
  cases kind with
  | leaf l => simp [ShapeAt] at h
  | conflict l =>
    obtain ⟨a, b, heq, ha, hb, hna, hnb⟩ := h
    rcases eq_pair_cases heq with ⟨rfl, rfl, rfl⟩ | ⟨rfl, rfl, rfl⟩
    · exact ⟨s', b, rfl, hk.trans ha, hb, hne hna, hnb⟩
    · exact ⟨a, s', rfl, ha, hk.trans hb, hna, hne hnb⟩
  | scopeConflict l =>
    obtain ⟨a, b, sa, sb, heq, ha, hb, hag, hnb⟩ := h
    rcases eq_pair_cases heq with ⟨rfl, rfl, rfl⟩ | ⟨rfl, rfl, rfl⟩
    · exact ⟨s', b, sa, sb, rfl, hk.trans ha, hb, hag, hnb⟩
    · exact ⟨a, s', sa, sb, rfl, ha, hk.trans hb, hag, hr rfl⟩
  | group => trivial
  | scope _ => trivial

/-- Below a frame that keeps its shape, a tree of the right shape may be put. -/
theorem under_of_frame (h : (s.under K).Shaped) (hs' : s'.Shaped)
    (hframe : ∀ k K', K = k :: K' → ShapeAt k.entry.kind (k.before ++ s' :: k.after)) :
    (s'.under K).Shaped := by
  induction K generalizing s s' with
  | nil => exact hs'
  | cons k K ih =>
    refine ih (s := k.fill s) h (h.refill hs' (hframe k K rfl)) ?_
    rintro k' K' rfl
    have hup : ((k.fill s).under (k' :: K')).Shaped := h
    refine shapeAt_replace hup.at_frame rfl (fun _ => ?_) fun hr => ?_
    · simp [Frame.fill]
    · -- A right header has nothing below it, so the frame `k` is none.
      have hbare := of_right_header hup hr
      simp [Frame.fill] at hbare

/-- In the place of a member any tree of the right shape may be put. -/
theorem replace_member (h : (s.under K).Shaped) (hK : Frames.slot K = .member)
    (hs' : s'.Shaped) : (s'.under K).Shaped := by
  refine h.under_of_frame hs' ?_
  rintro k K rfl
  have hs := h.at_frame
  rw [Frames.slot] at hK
  cases hk : k.entry.kind with
  | leaf l => simp [hk, ShapeAt] at hs
  | conflict l => simp [hk, Kind.slot] at hK
  | scopeConflict l => simp [hk, Kind.slot] at hK
  | _ => trivial

/-- In the place of any node a tree may be put that looks the same from above. -/
theorem replace_same (h : (s.under K).Shaped) (hs' : s'.Shaped) (hk : s'.kind = s.kind)
    (hne : s.children ≠ [] → s'.children ≠ [])
    (hr : Frames.slot K = .header .right → s'.children = []) : (s'.under K).Shaped := by
  refine h.under_of_frame hs' ?_
  rintro k K rfl
  exact shapeAt_replace h.at_frame hk hne hr

end Shaped

/-! ## Conflicts with two sides -/

/-- The sides of a conflict are two groups or two scopes; a leaf has nothing below it. -/
def PairedAt : Kind → List Tree → Prop
  | .leaf _, cs => cs = []
  | .conflict _, cs => ∃ a b, cs = [a, b] ∧ a.kind = .group ∧ b.kind = .group
  | .scopeConflict _, cs => ∃ a b, cs = [a, b] ∧ a.kind.isScope = true ∧ b.kind.isScope = true
  | _, _ => True

/-- Every conflict of a tree has two sides. -/
abbrev Paired : Tree → Prop := Everywhere PairedAt

theorem PairedAt.of_shapeAt {kind : Kind} {cs : List Tree} (h : ShapeAt kind cs) :
    PairedAt kind cs := by
  cases kind with
  | leaf l => exact h
  | conflict l =>
    obtain ⟨a, b, hcs, ha, hb, -, -⟩ := h
    exact ⟨a, b, hcs, ha, hb⟩
  | scopeConflict l =>
    obtain ⟨a, b, sa, sb, hcs, ha, hb, -, -⟩ := h
    exact ⟨a, b, hcs, by rw [ha]; rfl, by rw [hb]; rfl⟩
  | group | scope _ => trivial

theorem Shaped.paired {t : Tree} (h : t.Shaped) : t.Paired :=
  h.mono fun _ _ => .of_shapeAt

/-! ## Conflicts within headers -/

/-- As `PairedAt`, but the second of two headers may be in conflict itself. If headers are to be
`bare` it may not, and nothing is below it. -/
def SidedAt (bare : Bool) : Kind → List Tree → Prop
  | .leaf _, cs => cs = []
  | .conflict _, cs => ∃ a b, cs = [a, b] ∧ a.kind = .group ∧ b.kind = .group
  | .scopeConflict _, cs => ∃ a b, cs = [a, b] ∧ a.kind.isScope = true ∧
      (b.kind.isScope = true ∧ b.children = [] ∨
        bare = false ∧ (b.kind.isScope = true ∨ b.kind.isConflict = true))
  | _, _ => True

/-- Every conflict of a tree has two sides, of which a second header may be in conflict. -/
abbrev Sided (bare : Bool) : Tree → Prop := Everywhere (SidedAt bare)

theorem Shaped.sided {t : Tree} (h : t.Shaped) (bare : Bool) : t.Sided bare := by
  refine h.mono ?_
  intro kind cs hat
  cases kind with
  | leaf l => exact hat
  | conflict l =>
    obtain ⟨a, b, hcs, ha, hb, -, -⟩ := hat
    exact ⟨a, b, hcs, ha, hb⟩
  | scopeConflict l =>
    obtain ⟨a, b, sa, sb, hcs, ha, hb, -, hbare⟩ := hat
    exact ⟨a, b, hcs, by rw [ha]; rfl, .inl ⟨by rw [hb]; rfl, hbare⟩⟩
  | group | scope _ => trivial

theorem Sided.loosen {bare : Bool} {t : Tree} (h : t.Sided bare) : t.Sided false := by
  refine h.mono ?_
  intro kind cs hat
  cases kind with
  | leaf l => exact hat
  | conflict l => exact hat
  | scopeConflict l =>
    obtain ⟨a, b, hcs, ha, ⟨hb, -⟩ | ⟨-, hb⟩⟩ := hat
    · exact ⟨a, b, hcs, ha, .inr ⟨rfl, .inl hb⟩⟩
    · exact ⟨a, b, hcs, ha, .inr ⟨rfl, hb⟩⟩
  | group | scope _ => trivial

end Tree

end StubMerge
