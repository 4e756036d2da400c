import StubMerge.Proofs.Links
import StubMerge.Proofs.Soundness
import StubMerge.Proofs.Standing

/-!
# No node is lost

While outlines are taken in, every node that is made is put below another one: nothing is left
lying about. `f.Loose xs` says that all nodes without a parent, the root apart, are among `xs`.
Making a node makes it loose, attaching it ends that, and after each step of a merge nothing is
loose (`Merger.loose_add`). So the table of a merge holds its tree and nothing else, and the nodes
of the tree are as many as were made (`Forest.Shows.ids_perm_range`).
-/

namespace StubMerge

/-- What a result satisfies if it is a value. -/
def Ensures {ε α : Type} (P : α → Prop) (x : Except ε α) : Prop := ∀ a, x = .ok a → P a

namespace Ensures

variable {ε α β : Type} {P : α → Prop} {Q : β → Prop}

theorem ok {a : α} (h : P a) : Ensures P (.ok a : Except ε α) := by
  intro b hb
  obtain rfl := Except.ok.inj hb
  exact h

theorem bind {x : Except ε α} {k : α → Except ε β} (hx : Ensures P x)
    (hk : ∀ a, P a → Ensures Q (k a)) : Ensures Q (x >>= k) := by
  intro b hb
  obtain ⟨a, ha, hb⟩ := exists_of_bind_eq_ok hb
  exact hk a (hx a ha) b hb

end Ensures

namespace Forest

/-- Among the nodes that were made, only the root and `xs` have no parent. -/
def Loose (f : Forest) (xs : List NodeId) : Prop :=
  ∀ i, i < f.size → f.parent i = none → i = root ∨ i ∈ xs

namespace Loose

variable {f : Forest} {xs ys : List NodeId}

theorem empty : Forest.empty.Loose [] := by
  intro i hi _
  exact .inl (Nat.lt_one_iff.1 hi)

theorem mono (h : f.Loose xs) (hsub : ∀ i ∈ xs, i ∈ ys) : f.Loose ys :=
  fun i hi hp => (h i hi hp).imp_right (hsub i)

theorem setEntry (h : f.Loose xs) (i : NodeId) (e : Entry) : (f.setEntry i e).Loose xs := by
  intro j hj hp
  rw [(links_setEntry f i e j).1] at hp
  exact h j (by simpa [Forest.setEntry] using hj) hp

theorem setChildren (h : f.Loose xs) (i : NodeId) (cs : List NodeId) :
    (f.setChildren i cs).Loose xs := by
  intro j hj hp
  rw [parent_setChildren] at hp
  exact h j (by simpa [Forest.setChildren] using hj) hp

/-- A node that gets a parent is not loose any more. -/
theorem setParent {c : NodeId} (h : f.Loose (c :: xs)) (p : NodeId) :
    (f.setParent c (some p)).Loose xs := by
  intro j hj hp
  rw [Forest.setParent, size_modify] at hj
  by_cases hc : j = c
  · subst hc
    rw [parent_setParent f hj, if_pos rfl] at hp
    cases hp
  · have hother : (f.setParent c (some p)).parent j = f.parent j := by
      rw [parent, Forest.setParent, node_modify_other f hc, parent]
    rw [hother] at hp
    exact (h j hj hp).imp_right fun hmem => (List.mem_cons.1 hmem).resolve_left hc

/-- A node that loses its parent is loose. -/
theorem clearParent (h : f.Loose xs) (i : NodeId) : (f.setParent i none).Loose (i :: xs) := by
  intro j hj hp
  rw [Forest.setParent, size_modify] at hj
  by_cases hi : j = i
  · exact .inr (by simp [hi])
  · have hother : (f.setParent i none).parent j = f.parent j := by
      rw [parent, Forest.setParent, node_modify_other f hi, parent]
    rw [hother] at hp
    exact (h j hj hp).imp_right fun hmem => List.mem_cons_of_mem i hmem

theorem alloc (h : f.Loose xs) (e : Entry) : (f.alloc e).1.Loose ((f.alloc e).2 :: xs) := by
  intro j hj hp
  rw [(links_alloc f e j).1] at hp
  rw [size_alloc] at hj
  by_cases hlt : j < f.size
  · exact (h j hlt hp).imp_right fun hmem => List.mem_cons_of_mem _ hmem
  · have heq : j = f.size := Nat.le_antisymm (Nat.lt_succ_iff.1 hj) (Nat.not_lt.1 hlt)
    exact .inr (by simp [heq, snd_alloc])

theorem attach {c : NodeId} (h : f.Loose (c :: xs)) (p : NodeId) :
    Ensures (Loose · xs) (f.attach p c) := by
  intro g hg
  obtain ⟨-, -, -, rfl⟩ := insert_eq_ok hg
  exact (h.setChildren p _).setParent p

theorem replace {new : NodeId} (h : f.Loose (new :: xs)) (old : NodeId) :
    Ensures (Loose · (old :: xs)) (f.replace old new) := by
  intro g hg
  obtain ⟨p, _, _, -, -, -, -, rfl⟩ := replace_eq_ok hg
  exact ((h.setChildren p _).setParent p).clearParent old

theorem link {c : NodeId} (h : f.Loose (c :: xs)) (p : NodeId) : (f.link p c).Loose xs :=
  (h.setChildren p _).setParent p

mutual
theorem graft {xs : List NodeId} : ∀ (o : Outline) {f : Forest}, f.Loose xs →
    (f.graft o).1.Loose ((f.graft o).2 :: xs)
  | .node e cs, f, h => by
    rw [Forest.graft]
    exact graftAll cs (h.alloc e) _
theorem graftAll {xs : List NodeId} : ∀ (os : List Outline) {f : Forest}, f.Loose xs →
    ∀ p, (f.graftAll p os).Loose xs
  | [], f, h, p => h
  | o :: os, f, h, p => by
    rw [Forest.graftAll]
    exact graftAll os ((graft o h).link p) p
end

end Loose

end Forest

/-! ## Merges -/

namespace Merger

variable {m : Merger}

theorem loose_copyInto (h : m.output.Loose []) (scope : NodeId) (o : Outline) :
    Ensures (fun made => made.1.output.Loose []) (m.copyInto scope o) := by
  rw [copyInto]
  refine ((Forest.Loose.graft o h).attach scope).bind ?_
  intro f hf
  exact .ok hf

theorem loose_oppose {copy : NodeId} (h : m.output.Loose [copy]) (previous : NodeId) :
    Ensures (fun m' => m'.output.Loose []) (m.oppose previous copy) := by
  rw [oppose]
  generalize (if (otherHeader? m.output previous).isSome then
    (m.output.parent previous).getD previous else previous) = target
  simp only
  split
  · refine (h.attach _).bind ?_
    intro f hf
    exact .ok hf
  · -- The conflict takes the place of the target, which comes below it again.
    have h₀ := ((h.alloc { kind := .conflict m.labels }).alloc {}).alloc {}
    simp only [Forest.snd_alloc, Forest.size_alloc] at h₀ ⊢
    generalize m.output.size = n at h₀ ⊢
    have h₁ : Forest.Loose _ [n, n + 1, n + 1 + 1, copy] := h₀.mono fun i => by simp; tauto
    refine (h₁.replace target).bind ?_
    intro f₁ hf₁
    have h₂ : f₁.Loose [n + 1, n + 1 + 1, target, copy] := hf₁.mono fun i => by simp; tauto
    refine (h₂.attach n).bind ?_
    intro f₂ hf₂
    refine (hf₂.attach n).bind ?_
    intro f₃ hf₃
    refine (hf₃.attach (n + 1)).bind ?_
    intro f₄ hf₄
    refine (hf₄.attach (n + 1 + 1)).bind ?_
    intro f₅ hf₅
    exact .ok hf₅

theorem loose_opposeHeader (h : m.output.Loose []) (previous : NodeId) (d : Entry) :
    Ensures (fun m' => m'.output.Loose []) (m.opposeHeader previous d) := by
  rw [opposeHeader]
  refine ((h.alloc _).replace previous).bind ?_
  intro f₁ h₁
  refine (h₁.attach _).bind ?_
  intro f₂ h₂
  refine ((h₂.alloc d).attach _).bind ?_
  intro f₃ h₃
  exact .ok h₃

theorem loose_openScope (h : m.output.Loose []) (scopes : List NodeId) (path : String)
    (d : Entry) : Ensures (fun made => made.1.output.Loose []) (m.openScope scopes path d) := by
  rw [openScope]
  split
  · rw [newScope]
    refine ((h.alloc d).attach _).bind ?_
    intro f hf
    exact .ok hf
  · next previous _ =>
    split
    · have hcomments := h.setEntry previous
        { m.output.entry previous with
          comments := (m.output.entry previous).comments.appendNew d.comments }
      refine Ensures.bind (P := fun m' => m'.output.Loose []) ?_ fun m' hm' => .ok hm'
      rw [scopeIntoScope]
      split
      · split
        · exact .ok hcomments
        · exact .ok h
      · split
        · exact .ok hcomments
        · exact loose_opposeHeader (m := m.record _ d previous) h previous d
    · rw [scopeAgainstLeaf]
      refine (loose_oppose (m := { m.record _ d previous with output := _ }) (h.alloc d)
        previous).bind ?_
      intro m' hm'
      exact .ok hm'

theorem loose_addLeaf (h : m.output.Loose []) (scopes : List NodeId) (path : String)
    (o : Outline) : Ensures (fun m' => m'.output.Loose []) (m.addLeaf scopes path o) := by
  rw [addLeaf]
  simp only
  split
  · refine (loose_copyInto h _ o).bind ?_
    intro made hmade
    exact .ok hmade
  · next previous _ =>
    split
    · exact .ok ((h.setEntry previous _).setEntry previous _)
    · exact loose_oppose (m := { m.record _ o.entry previous with output := _ })
        (Forest.Loose.graft o h) previous

mutual
theorem loose_visit : ∀ (o : Outline) {m : Merger}, m.output.Loose [] →
    ∀ (scopes : List NodeId) (path : String),
    Ensures (fun m' => m'.output.Loose []) (m.visit scopes path o)
  | .node e cs, m, h, scopes, path => by
    rw [visit]
    cases e.kind with
    | group => exact loose_visitAll cs (h.setEntry _ _) scopes path
    | conflict l | scopeConflict l =>
      refine (loose_copyInto h _ _).bind ?_
      intro made hmade
      exact .ok hmade
    | scope s =>
      refine (loose_openScope h scopes path e).bind ?_
      intro made hmade
      exact loose_visitAll cs hmade _ _
    | leaf l => exact loose_addLeaf h scopes path _
theorem loose_visitAll : ∀ (os : List Outline) {m : Merger}, m.output.Loose [] →
    ∀ (scopes : List NodeId) (path : String),
    Ensures (fun m' => m'.output.Loose []) (m.visitAll scopes path os)
  | [], m, h, scopes, path => .ok h
  | o :: os, m, h, scopes, path => by
    rw [visitAll]
    refine (loose_visit o h scopes path).bind ?_
    intro m' hm'
    exact loose_visitAll os hm' scopes path
end

theorem loose_copyAll (h : m.output.Loose []) (os : List Outline) :
    Ensures (fun m' => m'.output.Loose []) (m.copyAll os) := by
  induction os generalizing m with
  | nil => exact .ok h
  | cons o os ih =>
    rw [copyAll]
    refine (loose_copyInto h _ o).bind ?_
    intro made hmade
    exact ih (m := made.1.registerTree made.2) hmade

/-- After a pass nothing is loose. -/
theorem loose_add (h : m.output.Loose []) (s : Source) :
    Ensures (fun m' => m'.output.Loose []) (m.add s) := by
  have hcomments := h.setEntry Forest.root
    { m.output.entry Forest.root with
      comments := (m.output.entry Forest.root).comments.appendNew s.root.entry.comments }
  rw [add]
  split
  · exact loose_visitAll _ hcomments _ _
  · exact loose_copyAll (m := { m with output := _, started := true }) hcomments _

end Merger

/-! ## What the root reaches -/

namespace Forest

variable {f : Forest} {t : Tree}

/-- In a forest in which nothing is loose, the tree of the root has all nodes. -/
theorem Shows.mem_ids_of_loose (h : f.Shows [t]) (htop : t.id = root) (hf : f.IsForest)
    (hloose : f.Loose []) {i : NodeId} (hi : i < f.size) : i ∈ t.ids := by
  obtain ⟨depth, hdepth⟩ := hf.layered
  -- By induction on the depth: the parent is there already.
  induction hd : depth i using Nat.strong_induction_on generalizing i with
  | h n ih =>
    by_cases hroot : i = root
    · rw [hroot, ← htop]
      exact t.id_mem_ids
    · obtain ⟨p, hp⟩ : ∃ p, f.parent i = some p := by
        rw [← Option.ne_none_iff_exists']
        intro hnone
        rcases hloose i hi hnone with hr | hmem
        · exact hroot hr
        · cases hmem
      have hmem := ih (depth p) (hd ▸ hdepth p i hp) (hf.lt_size hp).1 rfl
      obtain ⟨K, s, rfl, rfl⟩ := Tree.exists_under hmem
      have hchild : i ∈ s.children.map Tree.id := by
        rw [← h.children_eq]
        exact (hf.linked s.id i).2 hp
      obtain ⟨c, hc, rfl⟩ := List.mem_map.1 hchild
      rw [Tree.ids_under, Tree.ids_eq s]
      simp [Tree.mem_idsAll.2 ⟨c, hc, c.id_mem_ids⟩]

/-- Its numbers are those that were given out. -/
theorem Shows.ids_perm_range (h : f.Shows [t]) (htop : t.id = root) (hf : f.IsForest)
    (hloose : f.Loose []) : t.ids.Perm (List.range f.size) := by
  rw [List.perm_ext_iff_of_nodup h.nodup_ids List.nodup_range]
  intro i
  rw [List.mem_range]
  exact ⟨fun hi => h.lt_size hi, fun hi => h.mem_ids_of_loose htop hf hloose hi⟩

end Forest

end StubMerge
