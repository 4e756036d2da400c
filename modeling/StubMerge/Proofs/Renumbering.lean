import StubMerge.Merge.Merger
import StubMerge.Proofs.Renaming
import StubMerge.Proofs.SelfMerge

/-!
# Renaming the nodes of a merge

A pass does not depend on the names of nodes either: two merges whose outputs are the same up to
names, whose indices find the same nodes, and which have the same records, stay so while an outline
is taken in (`Merger.Renames.add`), and come to the same in the end (`Merger.Renames.finish`).

What an index finds is a matter of names and of the order in which nodes were registered, but not of
how often each was registered. So two indices are compared by what they find
(`Index.Renames`).
-/

namespace List

variable {α β : Type} [BEq α] [LawfulBEq α] [BEq β] [LawfulBEq β]

theorem map_appendNew {σ : α → β} (hσ : Function.Injective σ) (xs ys : List α) :
    (xs.map σ).appendNew (ys.map σ) = (xs.appendNew ys).map σ := by
  induction ys generalizing xs with
  | nil => rfl
  | cons y ys ih =>
    have hmem : (xs.map σ).contains (σ y) = xs.contains y := by
      rw [Bool.eq_iff_iff, contains_iff_mem, contains_iff_mem, mem_map_of_injective hσ]
    rw [map_cons, appendNew_cons, appendNew_cons, hmem]
    split
    · exact ih xs
    · rw [← ih, map_append, map_singleton]

/-- What is new among items put together is new among all of them. -/
theorem appendNew_appendNew_right (xs zs ys : List α) :
    xs.appendNew (zs.appendNew ys) = xs.appendNew (zs ++ ys) := by
  induction ys generalizing zs with
  | nil => simp
  | cons y ys ih =>
    rw [appendNew_cons, ih]
    split
    · rename_i hy
      have hmem : (xs.appendNew zs).contains y = true := by
        rw [contains_iff_mem]
        exact mem_appendNew.2 (.inr (by simpa using hy))
      rw [← StubMerge.appendNew_appendNew, ← StubMerge.appendNew_appendNew, appendNew_cons,
        if_pos hmem]
    · rw [append_assoc]
      rfl

end List

namespace StubMerge

variable {σ : NodeId → NodeId}

/-! ## Indices -/

/-- Two indices find the same nodes, up to names. -/
def Index.Renames (σ : NodeId → NodeId) (I J : Index) : Prop :=
  ∀ key, [].appendNew (J.latest key) = ([].appendNew (I.latest key)).map σ

namespace Index

theorem latest_register (I : Index) (keys : List String) (id : NodeId) (key : String) :
    (I.register keys id).latest key =
      ((keys.reverse.filter (· == key)).map fun _ => id) ++ I.latest key := by
  simp [latest, register, List.filter_map, ← List.map_reverse, Function.comp_def]

namespace Renames

variable {I J : Index}

theorem candidates (hσ : Function.Injective σ) (h : I.Renames σ J) (keys : List String) :
    J.candidates keys = (I.candidates keys).map σ := by
  have hall : ∀ (xs : List NodeId), (xs.map σ).appendNew (keys.flatMap J.latest) =
      (xs.appendNew (keys.flatMap I.latest)).map σ := by
    induction keys with
    | nil => intro xs; rfl
    | cons key keys ih =>
      intro xs
      have hkey : (xs.map σ).appendNew (J.latest key) = (xs.appendNew (I.latest key)).map σ := by
        have hJ := List.appendNew_appendNew_right (xs.map σ) [] (J.latest key)
        have hI := List.appendNew_appendNew_right xs [] (I.latest key)
        rw [h key, List.map_appendNew hσ, hI] at hJ
        exact hJ.symm
      rw [List.flatMap_cons, List.flatMap_cons, ← appendNew_appendNew, ← appendNew_appendNew, hkey,
        ih]
  exact hall []

theorem register (hσ : Function.Injective σ) (h : I.Renames σ J) (keys : List String) (i : NodeId) :
    (I.register keys i).Renames σ (J.register keys (σ i)) := by
  intro key
  have hnew : (keys.reverse.filter (· == key)).map (fun _ => σ i) =
      ((keys.reverse.filter (· == key)).map fun _ => i).map σ := by
    rw [List.map_map]
    rfl
  rw [latest_register, latest_register, hnew, ← appendNew_appendNew, ← appendNew_appendNew]
  generalize (keys.reverse.filter (· == key)).map (fun _ => i) = new
  have hnew' := List.map_appendNew hσ [] new
  have hJ := List.appendNew_appendNew_right (([].appendNew new).map σ) [] (J.latest key)
  have hI := List.appendNew_appendNew_right ([].appendNew new) [] (I.latest key)
  rw [List.map_nil] at hnew'
  rw [h key, List.map_appendNew hσ, hI] at hJ
  rw [hnew', ← List.nil_append (J.latest key), ← hJ, List.nil_append]

end Renames

end Index

namespace Merger

/-- `m'` is `m` with each node `i` called `σ i`. -/
structure Renames (σ : NodeId → NodeId) (m m' : Merger) : Prop where
  labels : m'.labels = m.labels
  output : m.output.Renames σ m'.output
  index : m.index.Renames σ m'.index
  conflicts : m'.conflicts = m.conflicts
  started : m'.started = m.started

namespace Renames

variable {m m' : Merger}

/-! ## Finding -/

theorem currentScope (h : m.Renames σ m') (scopes : List NodeId) :
    Merger.currentScope (scopes.map σ) = σ (Merger.currentScope scopes) := by
  cases scopes with
  | nil => exact h.output.root.symm
  | cons i scopes => rfl

theorem previous? (h : m.Renames σ m') (scopes : List NodeId) (keys : List String) (kind : Kind) :
    m'.previous? (scopes.map σ) keys kind = (m.previous? scopes keys kind).map σ := by
  have hfound : (m'.index.candidates keys).filter (fun i => !(scopes.map σ).contains i) =
      ((m.index.candidates keys).filter fun i => !scopes.contains i).map σ := by
    rw [h.index.candidates h.output.injective, List.filter_map]
    refine congrArg _ (List.filter_congr fun i _ => ?_)
    rw [Function.comp_apply, h.output.mem_map]
  rw [Merger.previous?, Merger.previous?, hfound]
  generalize (m.index.candidates keys).filter (fun i => !scopes.contains i) = found
  have hfind : (found.map σ).find? (fun i => (m'.output.kind i).agrees kind) =
      (found.find? fun i => (m.output.kind i).agrees kind).map σ := by
    rw [List.find?_map]
    refine congrArg _ ?_
    refine congrArg (fun P => found.find? P) ?_
    funext i
    rw [Function.comp_apply, h.output.kind]
  simp only [hfind, List.head?_map]
  cases found.find? fun i => (m.output.kind i).agrees kind <;> rfl

end Renames

variable {f g : Forest}

theorem otherHeader?_renames (h : f.Renames σ g) (i : NodeId) :
    otherHeader? g (σ i) = (otherHeader? f i).map σ := by
  rw [otherHeader?, otherHeader?, h.parent]
  cases f.parent i with
  | none => rfl
  | some c =>
    rw [Option.map_some, Option.bind_some, Option.bind_some, h.kind, h.children]
    cases f.kind c with
    | scopeConflict l =>
      rcases f.children c with _ | ⟨a, _ | ⟨b, _ | ⟨x, xs⟩⟩⟩
      · rfl
      · rfl
      · simp only [List.map_cons, List.map_nil, h.beq]
        split <;> rfl
      · rfl
    | _ => rfl

theorem rightAbove?_renames (h : f.Renames σ g) (i : NodeId) (above : List NodeId) :
    rightAbove? g (σ i) (above.map σ) = (rightAbove? f i above).map σ := by
  induction above generalizing i with
  | nil => rfl
  | cons a above ih =>
    rw [List.map_cons, rightAbove?, rightAbove?, h.kind, h.children]
    cases f.kind a with
    | group => exact ih a
    | conflict l =>
      rcases f.children a with _ | ⟨x, _ | ⟨y, _ | ⟨z, zs⟩⟩⟩
      · rfl
      · rfl
      · simp only [List.map_cons, List.map_nil, h.beq]
        split <;> rfl
      · rfl
    | _ => rfl

theorem rightSide?_renames (h : f.Renames σ g) (i : NodeId) :
    rightSide? g (σ i) = (rightSide? f i).map σ := by
  rw [rightSide?, rightSide?, h.ancestors, rightAbove?_renames h]

namespace Renames

variable {m m' : Merger}

/-! ## Writing -/

theorem setOutput (h : m.Renames σ m') (hfg : f.Renames σ g) :
    ({ m with output := f } : Merger).Renames σ { m' with output := g } :=
  ⟨h.labels, hfg, h.index, h.conflicts, h.started⟩

theorem record (h : m.Renames σ m') (keys : List String) (d : Entry) (i : NodeId) :
    (m.record keys d i).Renames σ (m'.record keys d (σ i)) := by
  refine ⟨h.labels, h.output, h.index, ?_, h.started⟩
  rw [Merger.record, Merger.record, h.conflicts, h.labels, h.output.entry]

theorem register (h : m.Renames σ m') (i : NodeId) :
    ({ m with index := m.output.register m.index i } : Merger).Renames σ
      { m' with index := m'.output.register m'.index (σ i) } := by
  refine ⟨h.labels, h.output, ?_, h.conflicts, h.started⟩
  rw [Forest.register, Forest.register, h.output.indexKeys]
  exact h.index.register h.output.injective _ i

theorem registerTree (h : m.Renames σ m') (i : NodeId) :
    (m.registerTree i).Renames σ (m'.registerTree (σ i)) := by
  refine ⟨h.labels, h.output, ?_, h.conflicts, h.started⟩
  rw [Merger.registerTree, Merger.registerTree, h.output.descendants]
  have hfold : ∀ (ids : List NodeId) {I J : Index}, I.Renames σ J →
      (ids.foldl m.output.register I).Renames σ ((ids.map σ).foldl m'.output.register J) := by
    intro ids
    induction ids with
    | nil => exact fun hIJ => hIJ
    | cons j ids ih =>
      intro I J hIJ
      refine ih ?_
      rw [Forest.register, Forest.register, h.output.indexKeys]
      exact hIJ.register h.output.injective _ j
  exact hfold (i :: m.output.descendants i) h.index

/-- Two merges with a node in each: the one that was made or found. -/
def WithNode (σ : NodeId → NodeId) (x y : Merger × NodeId) : Prop :=
  x.1.Renames σ y.1 ∧ y.2 = σ x.2

theorem copyInto (h : m.Renames σ m') (scope : NodeId) (o : Outline) :
    Agree (WithNode σ) (m.copyInto scope o) (m'.copyInto (σ scope) o) := by
  obtain ⟨hmade, hid⟩ := Forest.Renames.graft o h.output
  rw [Merger.copyInto, Merger.copyInto]
  simp only [hid]
  refine (hmade.attach scope _).bind ?_
  intro f g hfg
  exact .ok ⟨h.setOutput hfg, rfl⟩

theorem oppose (h : m.Renames σ m') (previous copy : NodeId) :
    Agree (Renames σ) (m.oppose previous copy) (m'.oppose (σ previous) (σ copy)) := by
  have htarget : (if (otherHeader? m'.output (σ previous)).isSome then
      (m'.output.parent (σ previous)).getD (σ previous) else σ previous) =
      σ (if (otherHeader? m.output previous).isSome then
        (m.output.parent previous).getD previous else previous) := by
    rw [otherHeader?_renames h.output, Option.isSome_map, h.output.parent]
    split
    · cases m.output.parent previous <;> rfl
    · rfl
  rw [Merger.oppose, Merger.oppose]
  simp only [htarget]
  generalize (if (otherHeader? m.output previous).isSome then
    (m.output.parent previous).getD previous else previous) = target
  rw [rightSide?_renames h.output]
  cases rightSide? m.output target with
  | some right =>
    refine (h.output.attach right copy).bind ?_
    intro f g hfg
    exact .ok (h.setOutput hfg)
  | none =>
    -- Three nodes are made, with the same numbers in both.
    have h₁ := h.output.alloc { kind := .conflict m.labels }
    have h₂ := h₁.alloc {}
    have h₃ := h₂.alloc {}
    simp only [h.labels, h.output.snd_alloc, h₁.snd_alloc, h₂.snd_alloc, Option.map_none]
    refine (h₃.replace target _).bind ?_
    intro f₁ g₁ hf₁
    refine (hf₁.attach _ _).bind ?_
    intro f₂ g₂ hf₂
    refine (hf₂.attach _ _).bind ?_
    intro f₃ g₃ hf₃
    refine (hf₃.attach _ target).bind ?_
    intro f₄ g₄ hf₄
    refine (hf₄.attach _ copy).bind ?_
    intro f₅ g₅ hf₅
    exact .ok ⟨rfl, hf₅, h.index, h.conflicts, h.started⟩

theorem opposeHeader (h : m.Renames σ m') (previous : NodeId) (d : Entry) :
    Agree (Renames σ) (m.opposeHeader previous d) (m'.opposeHeader (σ previous) d) := by
  rw [Merger.opposeHeader, Merger.opposeHeader]
  have h₁ := h.output.alloc { kind := .scopeConflict m.labels }
  simp only [h.labels, h.output.snd_alloc]
  refine (h₁.replace previous _).bind ?_
  intro f₁ g₁ hf₁
  refine (hf₁.attach _ previous).bind ?_
  intro f₂ g₂ hf₂
  simp only [hf₂.snd_alloc]
  refine ((hf₂.alloc d).attach _ _).bind ?_
  intro f₃ g₃ hf₃
  exact .ok ⟨rfl, hf₃, h.index, h.conflicts, h.started⟩

/-! ## Declarations -/

theorem newScope (h : m.Renames σ m') (scopes : List NodeId) (d : Entry) :
    Agree (WithNode σ) (m.newScope scopes d) (m'.newScope (scopes.map σ) d) := by
  rw [Merger.newScope, Merger.newScope]
  simp only [h.output.snd_alloc, h.currentScope]
  refine ((h.output.alloc d).attach _ _).bind ?_
  intro f g hfg
  exact .ok ⟨(h.setOutput hfg).register _, rfl⟩

theorem scopeAgainstLeaf (h : m.Renames σ m') (keys : List String) (d : Entry)
    (previous : NodeId) :
    Agree (WithNode σ) (m.scopeAgainstLeaf keys d previous)
      (m'.scopeAgainstLeaf keys d (σ previous)) := by
  rw [Merger.scopeAgainstLeaf, Merger.scopeAgainstLeaf]
  have hr := h.record keys d previous
  simp only [hr.output.snd_alloc]
  refine ((hr.setOutput (hr.output.alloc d)).oppose previous _).bind ?_
  intro m₁ m₁' h₁
  exact .ok ⟨h₁.register _, rfl⟩

theorem scopeIntoScope (h : m.Renames σ m') (keys : List String) (d : Entry)
    (previous : NodeId) :
    Agree (Renames σ) (m.scopeIntoScope keys d previous)
      (m'.scopeIntoScope keys d (σ previous)) := by
  have hfolded := h.setOutput (h.output.unionComments previous d.comments)
  rw [Merger.scopeIntoScope, Merger.scopeIntoScope]
  simp only [otherHeader?_renames h.output, h.output.kind]
  cases otherHeader? m.output previous with
  | some right =>
    simp only [Option.map_some, h.output.kind]
    split
    · exact .ok hfolded
    · exact .ok (h.record keys d previous)
  | none =>
    simp only [Option.map_none]
    split
    · exact .ok hfolded
    · exact (h.record keys d previous).opposeHeader previous d

theorem openScope (h : m.Renames σ m') (scopes : List NodeId) (path : String) (d : Entry) :
    Agree (WithNode σ) (m.openScope scopes path d) (m'.openScope (scopes.map σ) path d) := by
  rw [Merger.openScope, Merger.openScope, h.previous?]
  cases m.previous? scopes (d.kind.keys path) d.kind with
  | none => exact h.newScope scopes d
  | some previous =>
    simp only [Option.map_some, h.output.kind]
    split
    · refine (h.scopeIntoScope _ d previous).bind ?_
      intro m₁ m₁' h₁
      exact .ok ⟨h₁, rfl⟩
    · exact h.scopeAgainstLeaf _ d previous

theorem addLeaf (h : m.Renames σ m') (scopes : List NodeId) (path : String) (o : Outline) :
    Agree (Renames σ) (m.addLeaf scopes path o) (m'.addLeaf (scopes.map σ) path o) := by
  rw [Merger.addLeaf, Merger.addLeaf]
  simp only [h.previous?]
  cases m.previous? scopes (o.entry.kind.keys path) o.entry.kind with
  | none =>
    simp only [Option.map_none, h.currentScope]
    refine (h.copyInto _ o).bind ?_
    rintro ⟨m₁, i⟩ ⟨m₁', i'⟩ ⟨h₁, hi⟩
    obtain rfl : i' = σ i := hi
    exact .ok (h₁.registerTree i)
  | some previous =>
    simp only [Option.map_some, h.output.kind]
    split
    · have hkind := h.output.setKind previous ((m.output.kind previous).fold o.entry.kind)
      exact .ok (h.setOutput (hkind.unionComments previous _))
    · have hr := h.record (o.entry.kind.keys path) o.entry previous
      obtain ⟨hmade, hid⟩ := Forest.Renames.graft o hr.output
      rw [hid]
      exact (hr.setOutput hmade).oppose previous _

end Renames

/-! ## Whole outlines -/

mutual
theorem Renames.visit : ∀ (o : Outline) {m m' : Merger}, m.Renames σ m' →
    ∀ (scopes : List NodeId) (path : String),
    Agree (Renames σ) (m.visit scopes path o) (m'.visit (scopes.map σ) path o)
  | .node e cs, m, m', h, scopes, path => by
    rw [Merger.visit, Merger.visit]
    cases e.kind with
    | group =>
      simp only [h.currentScope]
      exact Renames.visitAll cs (h.setOutput (h.output.unionComments _ _)) scopes path
    | conflict l | scopeConflict l =>
      simp only [h.currentScope]
      refine (h.copyInto _ _).bind ?_
      rintro ⟨m₁, i⟩ ⟨m₁', i'⟩ ⟨h₁, -⟩
      exact .ok h₁
    | scope s =>
      refine (h.openScope scopes path e).bind ?_
      rintro ⟨m₁, i⟩ ⟨m₁', i'⟩ ⟨h₁, hi⟩
      obtain rfl : i' = σ i := hi
      exact Renames.visitAll cs h₁ (i :: scopes) _
    | leaf l => exact h.addLeaf scopes path _
theorem Renames.visitAll : ∀ (os : List Outline) {m m' : Merger}, m.Renames σ m' →
    ∀ (scopes : List NodeId) (path : String),
    Agree (Renames σ) (m.visitAll scopes path os) (m'.visitAll (scopes.map σ) path os)
  | [], m, m', h, scopes, path => .ok h
  | o :: os, m, m', h, scopes, path => by
    rw [Merger.visitAll, Merger.visitAll]
    refine (Renames.visit o h scopes path).bind ?_
    intro m₁ m₁' h₁
    exact Renames.visitAll os h₁ scopes path
end

variable {m m' : Merger}

/-- A pass after the first one does not depend on the names of nodes. -/
theorem Renames.add (h : m.Renames σ m') (hstarted : m.started = true) (s : Source) :
    Agree (Renames σ) (m.add s) (m'.add s) := by
  have hcomments := h.output.unionComments Forest.root s.root.entry.comments
  rw [h.output.root] at hcomments
  rw [Merger.add, Merger.add, hstarted, h.started.trans hstarted, if_pos rfl, if_pos rfl]
  generalize m.output.unionComments Forest.root s.root.entry.comments = f,
    m'.output.unionComments Forest.root s.root.entry.comments = g at hcomments
  have hready : ({ m with output := f, started := true } : Merger).Renames σ
      { m' with output := g, started := true } :=
    ⟨h.labels, hcomments, h.index, h.conflicts, rfl⟩
  exact Renames.visitAll s.root.children hready [] s.path

/-- What a merge comes to does not depend on the names of nodes. -/
theorem Renames.finish (h : m.Renames σ m') :
    Agree (fun res res' : Result => res.forest.Renames σ res'.forest ∧
      res'.conflicts = res.conflicts) m.finish m'.finish := by
  rw [Merger.finish, Merger.finish, h.conflicts]
  have hall := h.output.coalesce
  generalize m.output.coalesce = x, m'.output.coalesce = y at hall
  cases hall with
  | ok hfg => exact .ok ⟨hfg, rfl⟩
  | error => exact .error

end Merger

end StubMerge
