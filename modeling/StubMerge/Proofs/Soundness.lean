import StubMerge.Merge.Merger
import StubMerge.Proofs.Finding
import StubMerge.Proofs.Links

/-!
# Merging keeps forests

Whatever a merge is given, conflicts in its input included, its output is a forest as long as no
edit fails. An edit keeps forests if the nodes it is made at are in the table, so what has to be
carried along is where the numbers come from: the index, the scopes that are open, and the links of
the forest itself. `Merger.Sound` says that of a merge, and `Sound.add` that every pass keeps it.

Coalescing takes its numbers from links alone, so it keeps all forests (`coalesce_isForest`).
-/

namespace StubMerge

namespace Forest

variable {f g : Forest}

theorem IsForest.lt_of_mem_walk (h : f.IsForest) {n : Nat} {stack : List NodeId}
    (hstack : ∀ i ∈ stack, i < f.size) {j : NodeId} (hj : j ∈ f.walk n stack) : j < f.size := by
  induction n generalizing stack with
  | zero => simp [walk] at hj
  | succ n ih =>
    cases stack with
    | nil => simp [walk] at hj
    | cons i stack =>
      rw [walk] at hj
      rcases List.mem_cons.1 hj with rfl | hj
      · exact hstack j (by simp)
      · refine ih (fun k hk => ?_) hj
        rcases List.mem_append.1 hk with hk | hk
        · exact h.mem_lt_size hk
        · exact hstack k (by simp [hk])

theorem IsForest.lt_of_mem_descendants (h : f.IsForest) {i j : NodeId}
    (hj : j ∈ f.descendants i) : j < f.size :=
  h.lt_of_mem_walk (fun _ hk => h.mem_lt_size hk) hj

/-! ## Coalescing -/

theorem attempt_eq_ok {e : Except EditError Forest} (h : f.attempt e = .ok g) : e = .ok g := by
  cases e with
  | error e => cases h
  | ok a => exact congrArg _ (Except.ok.inj h)

theorem children_of_sidesOrStop {c l r : NodeId} (h : f.sidesOrStop c = .ok (l, r)) :
    f.children c = [l, r] := by
  rw [sidesOrStop, sides] at h
  split at h
  · next a b hc =>
    obtain ⟨rfl, rfl⟩ := Prod.mk.inj (Except.ok.inj h)
    exact hc
  · cases h

theorem IsForest.absorb (h : f.IsForest) {head other : NodeId} (ho : other < f.size)
    (hg : f.absorb head other = .ok g) : g.IsForest ∧ g.size = f.size := by
  obtain ⟨⟨hl, hr⟩, hhead, hg⟩ := exists_of_bind_eq_ok hg
  obtain ⟨⟨l, r⟩, hother, hg⟩ := exists_of_bind_eq_ok hg
  obtain ⟨f₁, h₁, hg⟩ := exists_of_bind_eq_ok hg
  obtain ⟨f₂, h₂, hg⟩ := exists_of_bind_eq_ok hg
  obtain rfl := Except.ok.inj hg
  have hsides : ∀ {c a b : NodeId}, f.children c = [a, b] → a < f.size ∧ b < f.size := fun hc =>
    ⟨h.mem_lt_size (by rw [hc]; simp), h.mem_lt_size (by rw [hc]; simp)⟩
  obtain ⟨hhl, hhr⟩ := hsides (children_of_sidesOrStop hhead)
  obtain ⟨hol, hor⟩ := hsides (children_of_sidesOrStop hother)
  obtain ⟨hf₁, hsize₁⟩ := h.moveChildren hol hhl (attempt_eq_ok h₁)
  obtain ⟨hf₂, hsize₂⟩ := hf₁.moveChildren (by rwa [hsize₁]) (by rwa [hsize₁]) (attempt_eq_ok h₂)
  exact ⟨hf₂.detach (by rwa [hsize₂, hsize₁]), by rw [size_detach, hsize₂, hsize₁]⟩

theorem IsForest.coalesceRun (h : f.IsForest) {head : Option NodeId} {ids : List NodeId}
    (hids : ∀ i ∈ ids, i < f.size) (hg : f.coalesceRun head ids = .ok g) :
    g.IsForest ∧ g.size = f.size := by
  induction ids generalizing f head with
  | nil =>
    obtain rfl := Except.ok.inj hg
    exact ⟨h, rfl⟩
  | cons i ids ih =>
    have hrest : ∀ j ∈ ids, j < f.size := fun j hj => hids j (by simp [hj])
    rw [Forest.coalesceRun] at hg
    split at hg
    · split at hg
      · obtain ⟨f₁, h₁, hg⟩ := exists_of_bind_eq_ok hg
        obtain ⟨hf₁, hsize₁⟩ := h.absorb (hids i (by simp)) h₁
        obtain ⟨hf₂, hsize₂⟩ := ih hf₁ (by rwa [hsize₁]) hg
        exact ⟨hf₂, hsize₂.trans hsize₁⟩
      · exact ih h hrest hg
    · exact ih h hrest hg

theorem IsForest.coalesceTo {depth : Nat} (h : f.IsForest) {i : NodeId}
    (hg : f.coalesceTo depth i = .ok g) : g.IsForest ∧ g.size = f.size := by
  induction depth generalizing f i g with
  | zero =>
    obtain rfl := Except.ok.inj hg
    exact ⟨h, rfl⟩
  | succ depth ih =>
    obtain ⟨f₁, h₁, hg⟩ := exists_of_bind_eq_ok hg
    obtain ⟨hf₁, hsize₁⟩ := h.coalesceRun (fun _ hc => h.mem_lt_size hc) h₁
    rw [← hsize₁]
    clear h₁ hsize₁ h
    generalize f₁.children i = ids at hg
    induction ids generalizing f₁ with
    | nil =>
      obtain rfl := Except.ok.inj hg
      exact ⟨hf₁, rfl⟩
    | cons j ids ihids =>
      rw [List.foldlM_cons] at hg
      obtain ⟨f₂, h₂, hg⟩ := exists_of_bind_eq_ok hg
      have hf₂ : f₂.IsForest ∧ f₂.size = f₁.size := by
        split at h₂
        · exact ih hf₁ h₂
        · obtain rfl := Except.ok.inj h₂
          exact ⟨hf₁, rfl⟩
      obtain ⟨hg', hsize⟩ := ihids f₂ hf₂.1 hg
      exact ⟨hg', hsize.trans hf₂.2⟩

theorem coalesce_isForest (h : f.IsForest) (hg : f.coalesce = .ok g) : g.IsForest :=
  (h.coalesceTo hg).1

end Forest

namespace Merger

/-- The output of a merge is a forest, and the index and the open scopes speak of its nodes. -/
structure Sound (m : Merger) (scopes : List NodeId) : Prop where
  forest : m.output.IsForest
  root : Forest.root < m.output.size
  index : ∀ key i, (key, i) ∈ m.index.entries → i < m.output.size
  scopes : ∀ i ∈ scopes, i < m.output.size

namespace Sound

variable {m m' : Merger} {scopes : List NodeId} {f : Forest}

/-- Another forest with no fewer nodes may take the place of the output. -/
theorem setOutput (h : m.Sound scopes) (hf : f.IsForest) (hsize : m.output.size ≤ f.size) :
    ({ m with output := f } : Merger).Sound scopes :=
  ⟨hf, h.root.trans_le hsize, fun key i hi => (h.index key i hi).trans_le hsize,
    fun i hi => (h.scopes i hi).trans_le hsize⟩

theorem unionComments (h : m.Sound scopes) (i : NodeId) (xs : List String) :
    ({ m with output := m.output.unionComments i xs } : Merger).Sound scopes :=
  h.setOutput (h.forest.unionComments i xs) (by simp [Forest.unionComments, Forest.setComments])

theorem currentScope_lt (h : m.Sound scopes) : currentScope scopes < m.output.size := by
  cases scopes with
  | nil => exact h.root
  | cons i scopes => exact h.scopes i (by simp)

theorem previous?_lt (h : m.Sound scopes) {keys : List String} {kind : Kind} {i : NodeId}
    (hi : m.previous? scopes keys kind = some i) : i < m.output.size := by
  obtain ⟨hcand, -, -⟩ := previous?_eq_some hi
  obtain ⟨key, -, hmem⟩ := Index.mem_candidates.1 hcand
  exact h.index key i hmem

theorem register (h : m.Sound scopes) {ids : List NodeId} (hids : ∀ i ∈ ids, i < m.output.size) :
    ({ m with index := ids.foldl m.output.register m.index } : Merger).Sound scopes := by
  refine ⟨h.forest, h.root, fun key i hi => ?_, h.scopes⟩
  rcases mem_foldl_register.1 hi with ⟨hi, -⟩ | hi
  · exact hids i hi
  · exact h.index key i hi

/-- A node of the table can be registered and opened. -/
theorem openNode (h : m.Sound scopes) {i : NodeId} (hi : i < m.output.size) :
    ({ m with index := m.output.register m.index i } : Merger).Sound (i :: scopes) := by
  have hids : ∀ j ∈ [i], j < m.output.size := fun j hj => List.mem_singleton.1 hj ▸ hi
  have hreg := h.register hids
  exact ⟨hreg.forest, hreg.root, hreg.index, List.forall_mem_cons.2 ⟨hi, hreg.scopes⟩⟩

theorem registerTree (h : m.Sound scopes) {i : NodeId} (hi : i < m.output.size) :
    (m.registerTree i).Sound scopes := by
  refine h.register fun j hj => ?_
  rcases List.mem_cons.1 hj with rfl | hj
  · exact hi
  · exact h.forest.lt_of_mem_descendants hj

theorem copyInto (h : m.Sound scopes) {scope copy : NodeId} {o : Outline}
    (hs : scope < m.output.size) (hm : m.copyInto scope o = .ok (m', copy)) :
    m'.Sound scopes ∧ m.output.size ≤ m'.output.size ∧ copy < m'.output.size := by
  obtain ⟨hg, hsize, hid, -⟩ := h.forest.graft o
  obtain ⟨f, hf, hm⟩ := exists_of_bind_eq_ok hm
  obtain ⟨rfl, rfl⟩ := Prod.mk.inj (Except.ok.inj hm)
  rw [hid] at hf ⊢
  obtain ⟨hforest, hfsize⟩ := hg.attach (hs.trans hsize) hsize hf
  have hle : m.output.size < f.size := by rwa [hfsize]
  exact ⟨h.setOutput hforest hle.le, hle.le, hle⟩

/-! ## Conflicts -/

theorem rightAbove?_lt {f : Forest} (h : f.IsForest) {inner r : NodeId} {above : List NodeId}
    (hr : rightAbove? f inner above = some r) : r < f.size := by
  induction above generalizing inner with
  | nil => cases hr
  | cons a above ih =>
    rw [rightAbove?] at hr
    split at hr
    · exact ih hr
    · split at hr
      · next l r' hc =>
        split at hr
        · obtain rfl := Option.some.inj hr
          exact h.mem_lt_size (p := a) (by rw [hc]; simp)
        · cases hr
      · cases hr
    · cases hr

theorem oppose (h : m.Sound scopes) {previous copy : NodeId} (hp : previous < m.output.size)
    (hc : copy < m.output.size) (hm : m.oppose previous copy = .ok m') :
    m'.Sound scopes ∧ m.output.size ≤ m'.output.size ∧ m'.index = m.index := by
  rw [Merger.oppose] at hm
  simp only at hm
  set target := if (otherHeader? m.output previous).isSome
    then (m.output.parent previous).getD previous else previous with htarget
  have ht : target < m.output.size := by
    rw [htarget]
    split
    · cases hparent : m.output.parent previous with
      | none => exact hp
      | some c => exact (h.forest.lt_size hparent).1
    · exact hp
  split at hm
  · next right hright =>
    obtain ⟨f, hf, hm⟩ := exists_of_bind_eq_ok hm
    obtain rfl := Except.ok.inj hm
    obtain ⟨hforest, hsize⟩ := h.forest.attach (rightAbove?_lt h.forest hright) hc hf
    exact ⟨h.setOutput hforest hsize.ge, hsize.ge, rfl⟩
  · -- Three nodes are made and put where the target was, which comes below them.
    have h₀ := ((h.forest.alloc { kind := .conflict m.labels }).alloc {}).alloc {}
    obtain ⟨f₁, e₁, hm⟩ := exists_of_bind_eq_ok hm
    obtain ⟨f₂, e₂, hm⟩ := exists_of_bind_eq_ok hm
    obtain ⟨f₃, e₃, hm⟩ := exists_of_bind_eq_ok hm
    obtain ⟨f₄, e₄, hm⟩ := exists_of_bind_eq_ok hm
    obtain ⟨f₅, e₅, hm⟩ := exists_of_bind_eq_ok hm
    obtain rfl := Except.ok.inj hm
    simp only [Forest.snd_alloc, Forest.size_alloc] at e₁ e₂ e₃ e₄ e₅
    have hsize : ∀ {f : Forest}, f.size = m.output.size + 1 + 1 + 1 → ∀ i : Nat,
        i ≤ m.output.size + 2 → i < f.size := by
      intro f hf i hi
      omega
    obtain ⟨h₁, s₁⟩ := h₀.replace (hsize (by simp) _ (by omega)) e₁
    simp only [Forest.size_alloc] at s₁
    obtain ⟨h₂, s₂⟩ := h₁.attach (hsize s₁ _ (by omega)) (hsize s₁ _ (by omega)) e₂
    rw [s₁] at s₂
    obtain ⟨h₃, s₃⟩ := h₂.attach (hsize s₂ _ (by omega)) (hsize s₂ _ (by omega)) e₃
    rw [s₂] at s₃
    obtain ⟨h₄, s₄⟩ := h₃.attach (hsize s₃ _ (by omega)) (hsize s₃ _ (Nat.le_add_right_of_le ht.le)) e₄
    rw [s₃] at s₄
    obtain ⟨h₅, s₅⟩ := h₄.attach (hsize s₄ _ (by omega)) (hsize s₄ _ (Nat.le_add_right_of_le hc.le)) e₅
    have hle : m.output.size ≤ f₅.size := by omega
    exact ⟨h.setOutput h₅ hle, hle, rfl⟩

theorem opposeHeader (h : m.Sound scopes) {previous : NodeId} {e : Entry}
    (hp : previous < m.output.size) (hm : m.opposeHeader previous e = .ok m') :
    m'.Sound scopes ∧ m.output.size ≤ m'.output.size := by
  rw [Merger.opposeHeader] at hm
  simp only at hm
  obtain ⟨f₁, e₁, hm⟩ := exists_of_bind_eq_ok hm
  obtain ⟨f₂, e₂, hm⟩ := exists_of_bind_eq_ok hm
  obtain ⟨f₃, e₃, hm⟩ := exists_of_bind_eq_ok hm
  obtain rfl := Except.ok.inj hm
  simp only [Forest.snd_alloc] at e₁ e₂ e₃
  have hsize : ∀ {f : Forest} {k : Nat}, f.size = m.output.size + 1 + k → ∀ i : Nat,
      i ≤ m.output.size → i < f.size := by
    intro f k hf i hi
    omega
  obtain ⟨h₁, s₁⟩ := (h.forest.alloc { kind := .scopeConflict m.labels }).replace
    (hsize (k := 0) (by simp) _ le_rfl) e₁
  simp only [Forest.size_alloc] at s₁
  obtain ⟨h₂, s₂⟩ := h₁.attach (hsize (k := 0) s₁ _ le_rfl) (hsize (k := 0) s₁ _ hp.le) e₂
  rw [s₁] at s₂
  obtain ⟨h₃, s₃⟩ := (h₂.alloc e).attach (hsize (k := 1) (by simp [s₂]) _ le_rfl)
    (by rw [Forest.size_alloc]; exact Nat.lt_succ_self _) e₃
  simp only [Forest.size_alloc] at s₃
  have hle : m.output.size ≤ f₃.size := by omega
  exact ⟨h.setOutput h₃ hle, hle⟩

theorem record (h : m.Sound scopes) (keys : List String) (e : Entry) (i : NodeId) :
    (m.record keys e i).Sound scopes :=
  ⟨h.forest, h.root, h.index, h.scopes⟩

/-! ## Scopes and leaves -/

theorem newScope (h : m.Sound scopes) {e : Entry} {i : NodeId}
    (hm : m.newScope scopes e = .ok (m', i)) :
    m'.Sound (i :: scopes) ∧ m.output.size ≤ m'.output.size := by
  rw [Merger.newScope] at hm
  simp only at hm
  obtain ⟨f, hf, hm⟩ := exists_of_bind_eq_ok hm
  obtain ⟨rfl, rfl⟩ := Prod.mk.inj (Except.ok.inj hm)
  have hlt : m.output.size < (m.output.alloc e).1.size := by simp
  obtain ⟨hforest, hsize⟩ :=
    (h.forest.alloc e).attach (h.currentScope_lt.trans hlt) hlt hf
  have hlt' : m.output.size < f.size := by rwa [hsize]
  exact ⟨(h.setOutput hforest hlt'.le).openNode hlt', hlt'.le⟩

theorem scopeAgainstLeaf (h : m.Sound scopes) {keys : List String} {e : Entry}
    {previous i : NodeId} (hp : previous < m.output.size)
    (hm : m.scopeAgainstLeaf keys e previous = .ok (m', i)) :
    m'.Sound (i :: scopes) ∧ m.output.size ≤ m'.output.size := by
  rw [Merger.scopeAgainstLeaf] at hm
  simp only at hm
  obtain ⟨m₁, h₁, hm⟩ := exists_of_bind_eq_ok hm
  obtain ⟨rfl, rfl⟩ := Prod.mk.inj (Except.ok.inj hm)
  have hr := h.record keys e previous
  have hlt : m.output.size < (m.output.alloc e).1.size := by simp
  obtain ⟨hs, hsize, -⟩ := (hr.setOutput (hr.forest.alloc e) hlt.le).oppose (hp.trans hlt) hlt h₁
  have hlt' : m.output.size < m₁.output.size := hlt.trans_le hsize
  exact ⟨hs.openNode hlt', hlt'.le⟩

theorem scopeIntoScope (h : m.Sound scopes) {keys : List String} {e : Entry} {previous : NodeId}
    (hp : previous < m.output.size) (hm : m.scopeIntoScope keys e previous = .ok m') :
    m'.Sound scopes ∧ m.output.size ≤ m'.output.size := by
  have hfold := h.unionComments previous e.comments
  have hr := h.record keys e previous
  have hsize : m.output.size ≤ (m.output.unionComments previous e.comments).size := by
    simp [Forest.unionComments, Forest.setComments]
  rw [Merger.scopeIntoScope] at hm
  split at hm
  · split at hm
    · obtain rfl := Except.ok.inj hm
      exact ⟨hfold, hsize⟩
    · obtain rfl := Except.ok.inj hm
      exact ⟨hr, le_rfl⟩
  · split at hm
    · obtain rfl := Except.ok.inj hm
      exact ⟨hfold, hsize⟩
    · exact hr.opposeHeader hp hm

theorem openScope (h : m.Sound scopes) {path : String} {e : Entry} {i : NodeId}
    (hm : m.openScope scopes path e = .ok (m', i)) :
    m'.Sound (i :: scopes) ∧ m.output.size ≤ m'.output.size := by
  rw [Merger.openScope] at hm
  split at hm
  · exact h.newScope hm
  · next previous hprev =>
    have hp := h.previous?_lt hprev
    split at hm
    · obtain ⟨m₁, h₁, hm⟩ := exists_of_bind_eq_ok hm
      obtain ⟨rfl, rfl⟩ := Prod.mk.inj (Except.ok.inj hm)
      obtain ⟨hs, hsize⟩ := h.scopeIntoScope hp h₁
      exact ⟨⟨hs.forest, hs.root, hs.index,
        List.forall_mem_cons.2 ⟨hp.trans_le hsize, hs.scopes⟩⟩, hsize⟩
    · exact h.scopeAgainstLeaf hp hm

theorem addLeaf (h : m.Sound scopes) {path : String} {o : Outline}
    (hm : m.addLeaf scopes path o = .ok m') :
    m'.Sound scopes ∧ m.output.size ≤ m'.output.size := by
  rw [Merger.addLeaf] at hm
  simp only at hm
  split at hm
  · obtain ⟨⟨m₁, copy⟩, h₁, hm⟩ := exists_of_bind_eq_ok hm
    obtain rfl := Except.ok.inj hm
    obtain ⟨hs, hsize, hcopy⟩ := h.copyInto h.currentScope_lt h₁
    exact ⟨hs.registerTree hcopy, hsize⟩
  · next previous hprev =>
    split at hm
    · obtain rfl := Except.ok.inj hm
      have hforest := (h.forest.setEntry previous
        { m.output.entry previous with
          kind := (m.output.kind previous).fold o.entry.kind }).unionComments previous
        o.entry.comments
      have hsize : m.output.size ≤ ((m.output.setKind previous
          ((m.output.kind previous).fold o.entry.kind)).unionComments previous
          o.entry.comments).size := by
        simp [Forest.unionComments, Forest.setComments, Forest.setKind]
      exact ⟨h.setOutput hforest hsize, hsize⟩
    · have hr := h.record (o.entry.kind.keys path) o.entry previous
      obtain ⟨hg, hsize, hid, -⟩ := hr.forest.graft o
      rw [hid] at hm
      obtain ⟨hs, hsize', -⟩ := (hr.setOutput hg hsize.le).oppose
        ((h.previous?_lt hprev).trans hsize) hsize hm
      exact ⟨hs, hsize.le.trans hsize'⟩

/-! ## Passes -/

/-- What was sound before scopes were closed is sound for those that stay open. -/
theorem close (h : m.Sound scopes) {scopes' : List NodeId} (hsub : scopes' ⊆ scopes) :
    m.Sound scopes' :=
  ⟨h.forest, h.root, h.index, fun i hi => h.scopes i (hsub hi)⟩

mutual
theorem visit {m m' : Merger} {scopes : List NodeId} {path : String} (h : m.Sound scopes) :
    ∀ o : Outline, m.visit scopes path o = .ok m' → m'.Sound scopes
  | .node e cs, hm => by
    rw [Merger.visit] at hm
    split at hm
    · exact visitAll (h.unionComments _ _) cs hm
    · obtain ⟨⟨m₁, copy⟩, h₁, hm⟩ := exists_of_bind_eq_ok hm
      obtain rfl := Except.ok.inj hm
      exact (h.copyInto h.currentScope_lt h₁).1
    · obtain ⟨⟨m₁, copy⟩, h₁, hm⟩ := exists_of_bind_eq_ok hm
      obtain rfl := Except.ok.inj hm
      exact (h.copyInto h.currentScope_lt h₁).1
    · obtain ⟨⟨m₁, i⟩, h₁, hm⟩ := exists_of_bind_eq_ok hm
      exact (visitAll (h.openScope h₁).1 cs hm).close (List.subset_cons_self ..)
    · exact (h.addLeaf hm).1
theorem visitAll {m m' : Merger} {scopes : List NodeId} {path : String} (h : m.Sound scopes) :
    ∀ os : List Outline, m.visitAll scopes path os = .ok m' → m'.Sound scopes
  | [], hm => by
    rw [Merger.visitAll] at hm
    obtain rfl := Except.ok.inj hm
    exact h
  | o :: os, hm => by
    rw [Merger.visitAll] at hm
    obtain ⟨m₁, h₁, hm⟩ := exists_of_bind_eq_ok hm
    exact visitAll (visit h o h₁) os hm
end

theorem copyAll {os : List Outline} (h : m.Sound []) (hm : m.copyAll os = .ok m') :
    m'.Sound [] := by
  induction os generalizing m with
  | nil =>
    obtain rfl := Except.ok.inj hm
    exact h
  | cons o os ih =>
    rw [Merger.copyAll] at hm
    obtain ⟨⟨m₁, copy⟩, h₁, hm⟩ := exists_of_bind_eq_ok hm
    obtain ⟨hs, -, hcopy⟩ := h.copyInto h.root h₁
    exact ih (hs.registerTree hcopy) hm

/-- A merge that has not started is sound. -/
theorem start (labels : Labels) : ({ labels } : Merger).Sound [] :=
  ⟨Forest.IsForest.empty, Nat.zero_lt_one, by simp, by simp⟩

theorem add {s : Source} (h : m.Sound []) (hm : m.add s = .ok m') : m'.Sound [] := by
  have hs := h.unionComments Forest.root s.root.entry.comments
  have hready : Merger.Sound { m with
      output := m.output.unionComments Forest.root s.root.entry.comments
      started := true } [] := ⟨hs.forest, hs.root, hs.index, hs.scopes⟩
  rw [Merger.add] at hm
  split at hm
  · exact hready.visitAll _ hm
  · exact hready.copyAll hm

/-- All passes of a merge leave it sound. -/
theorem foldlM_add {ss : List Source} (h : m.Sound []) (hm : ss.foldlM Merger.add m = .ok m') :
    m'.Sound [] := by
  induction ss generalizing m with
  | nil =>
    obtain rfl := Except.ok.inj hm
    exact h
  | cons s ss ih =>
    rw [List.foldlM_cons] at hm
    obtain ⟨m₁, h₁, hm⟩ := exists_of_bind_eq_ok hm
    exact ih (h.add h₁) hm

end Sound

end Merger

end StubMerge
