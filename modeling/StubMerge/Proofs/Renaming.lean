import StubMerge.Merge.Settle
import StubMerge.Proofs.Links
import StubMerge.Proofs.Table

/-!
# Renaming the nodes of a forest

Nodes are numbered in the order in which they are made, but no edit looks at a number except to see
whether two nodes are the same. `Forest.Renames σ f g` says that `g` is `f` with every node `i`
called `σ i`; nodes that are still to be made keep their numbers. All that can be read from two such
forests is the same up to names, and every edit leads from two such forests to two such forests, or
fails on both (`Agree`).
-/

namespace StubMerge

/-! ## Results that agree -/

/-- Two results that agree: both are values, which are in relation, or neither is. -/
inductive Agree {ε α β : Type} (R : α → β → Prop) : Except ε α → Except ε β → Prop
  | ok {a : α} {b : β} : R a b → Agree R (.ok a) (.ok b)
  | error {e e' : ε} : Agree R (.error e) (.error e')

namespace Agree

variable {ε ε' α β γ δ : Type} {R : α → β → Prop} {S : γ → δ → Prop}

theorem bind {x : Except ε α} {y : Except ε β} {k : α → Except ε γ} {l : β → Except ε δ}
    (h : Agree R x y) (hkl : ∀ a b, R a b → Agree S (k a) (l b)) : Agree S (x >>= k) (y >>= l) := by
  cases h with
  | ok hab => exact hkl _ _ hab
  | error => exact .error

theorem mapError {x : Except ε α} {y : Except ε β} (h : Agree R x y) (k l : ε → ε') :
    Agree R (x.mapError k) (y.mapError l) := by
  cases h with
  | ok hab => exact .ok hab
  | error => exact .error

/-- Where one result is a value, so is the other. -/
theorem exists_ok {x : Except ε α} {y : Except ε β} {a : α} (h : Agree R x y) (hx : x = .ok a) :
    ∃ b, y = .ok b ∧ R a b := by
  cases h with
  | ok hab =>
    obtain rfl := Except.ok.inj hx
    exact ⟨_, rfl, hab⟩
  | error => cases hx

end Agree

/-! ## Forests -/

/-- A node whose links have other names. -/
def Node.rename (σ : NodeId → NodeId) (n : Node) : Node :=
  { n with parent := n.parent.map σ, children := n.children.map σ }

namespace Forest

/-- `g` is `f` with each node `i` called `σ i`. -/
structure Renames (σ : NodeId → NodeId) (f g : Forest) : Prop where
  injective : Function.Injective σ
  root : σ root = root
  size : g.size = f.size
  /-- Nodes that are not made yet keep their numbers. -/
  fixed : ∀ i, f.size ≤ i → σ i = i
  node : ∀ i, g.node (σ i) = (f.node i).rename σ

namespace Renames

variable {σ : NodeId → NodeId} {f g : Forest} (h : f.Renames σ g)

include h

theorem lt_iff {i : NodeId} : σ i < g.size ↔ i < f.size := by
  rw [h.size]
  by_cases hi : i < f.size
  · refine iff_of_true ?_ hi
    by_contra hlt
    -- The name would be that of another node, too.
    have hfixed := h.fixed (σ i) (Nat.not_lt.1 hlt)
    have hsame := h.injective hfixed
    exact hlt (by rw [hsame]; exact hi)
  · rw [h.fixed i (Nat.not_lt.1 hi)]

theorem entry (i : NodeId) : g.entry (σ i) = f.entry i := by
  rw [Forest.entry, h.node]
  rfl

theorem kind (i : NodeId) : g.kind (σ i) = f.kind i := by
  rw [Forest.kind, h.entry]
  rfl

theorem parent (i : NodeId) : g.parent (σ i) = (f.parent i).map σ := by
  rw [Forest.parent, h.node]
  rfl

theorem children (i : NodeId) : g.children (σ i) = (f.children i).map σ := by
  rw [Forest.children, h.node]
  rfl

/-! ### Changes of single nodes -/

theorem modify (i : NodeId) {change change' : Node → Node}
    (hchange : ∀ n, change' (n.rename σ) = (change n).rename σ) :
    (f.modify i change).Renames σ (g.modify (σ i) change') where
  injective := h.injective
  root := h.root
  size := by rw [size_modify, size_modify, h.size]
  fixed j hj := h.fixed j (by rwa [size_modify] at hj)
  node j := by
    by_cases hj : j = i
    · subst hj
      by_cases hlt : j < f.size
      · rw [node_modify_same (h.lt_iff.2 hlt), node_modify_same hlt, h.node, hchange]
      · -- There is no such node in either forest.
        have hlt' : g.size ≤ σ j := Nat.not_lt.1 (mt h.lt_iff.1 hlt)
        rw [node_of_size_le (by rwa [size_modify]),
          node_of_size_le (by rw [size_modify]; exact Nat.not_lt.1 hlt)]
        rfl
    · rw [node_modify_other g (fun hσ => hj (h.injective hσ)), node_modify_other f hj, h.node]

theorem setEntry (i : NodeId) (e : Entry) : (f.setEntry i e).Renames σ (g.setEntry (σ i) e) :=
  h.modify i fun _ => rfl

theorem setParent (i : NodeId) (p : Option NodeId) :
    (f.setParent i p).Renames σ (g.setParent (σ i) (p.map σ)) :=
  h.modify i fun _ => rfl

theorem setChildren (i : NodeId) (cs : List NodeId) :
    (f.setChildren i cs).Renames σ (g.setChildren (σ i) (cs.map σ)) :=
  h.modify i fun _ => rfl

theorem setKind (i : NodeId) (kind : Kind) :
    (f.setKind i kind).Renames σ (g.setKind (σ i) kind) := by
  rw [Forest.setKind, Forest.setKind, h.entry]
  exact h.setEntry i _

theorem unionComments (i : NodeId) (xs : List String) :
    (f.unionComments i xs).Renames σ (g.unionComments (σ i) xs) := by
  rw [Forest.unionComments, Forest.unionComments, setComments, setComments, h.entry]
  exact h.setEntry i _

theorem alloc (e : Entry) : (f.alloc e).1.Renames σ (g.alloc e).1 where
  injective := h.injective
  root := h.root
  size := by rw [size_alloc, size_alloc, h.size]
  fixed i hi := h.fixed i (by rw [size_alloc] at hi; omega)
  node i := by
    by_cases hi : i < f.size
    · rw [node_alloc_other g e (h.lt_iff.2 hi), node_alloc_other f e hi, h.node]
    · by_cases heq : i = f.size
      · have hσ : σ i = g.size := by rw [h.fixed i (Nat.not_lt.1 hi), heq, h.size]
        rw [hσ, heq]
        exact (node_alloc_same g e).trans (congrArg (Node.rename σ) (node_alloc_same f e).symm)
      · have hlt : f.size + 1 ≤ i := Nat.lt_of_le_of_ne (Nat.not_lt.1 hi) (Ne.symm heq)
        rw [h.fixed i (Nat.not_lt.1 hi), node_of_size_le (by rw [size_alloc, h.size]; exact hlt),
          node_of_size_le (by rw [size_alloc]; exact hlt)]
        rfl

/-- A node that is made has the same number in both. -/
theorem snd_alloc (e : Entry) : (g.alloc e).2 = σ (f.alloc e).2 := by
  rw [Forest.snd_alloc, Forest.snd_alloc, h.fixed _ (Nat.le_refl _), h.size]

/-! ### Walks -/

theorem upwards (n : Nat) (i : Option NodeId) :
    g.upwards n (i.map σ) = (f.upwards n i).map σ := by
  induction n generalizing i with
  | zero => cases i <;> rfl
  | succ n ih =>
    cases i with
    | none => rfl
    | some i =>
      rw [Option.map_some, Forest.upwards, Forest.upwards, h.parent, ih]
      rfl

theorem ancestors (i : NodeId) : g.ancestors (σ i) = (f.ancestors i).map σ := by
  rw [Forest.ancestors, Forest.ancestors, h.parent, h.size, h.upwards]

theorem indexKeys (i : NodeId) : g.indexKeys (σ i) = f.indexKeys i := by
  have hpath : g.scopePath (σ i) = f.scopePath i := by
    rw [scopePath, scopePath, h.ancestors, List.foldr_map]
    simp only [h.kind]
  rw [Forest.indexKeys, Forest.indexKeys, h.kind, hpath]

theorem walk (n : Nat) (stack : List NodeId) :
    g.walk n (stack.map σ) = (f.walk n stack).map σ := by
  induction n generalizing stack with
  | zero => cases stack <;> rfl
  | succ n ih =>
    cases stack with
    | nil => rfl
    | cons i stack =>
      rw [List.map_cons, Forest.walk, Forest.walk, h.children, ← List.map_append, ih]
      rfl

theorem descendants (i : NodeId) : g.descendants (σ i) = (f.descendants i).map σ := by
  rw [Forest.descendants, Forest.descendants, h.children, h.size, h.walk]

theorem outlineTo (depth : Nat) (i : NodeId) : g.outlineTo depth (σ i) = f.outlineTo depth i := by
  induction depth generalizing i with
  | zero => rw [Forest.outlineTo, Forest.outlineTo, h.entry]
  | succ depth ih =>
    rw [Forest.outlineTo, Forest.outlineTo, h.entry, h.children, List.map_map]
    refine congrArg (Outline.node (f.entry i)) (List.map_congr_left ?_)
    intro c _
    exact ih c

/-- The outlines of both are the same. -/
theorem outline (i : NodeId) : g.outline (σ i) = f.outline i := by
  rw [Forest.outline, Forest.outline, h.size, h.outlineTo]

/-! ### Copies -/

theorem link (p c : NodeId) : (f.link p c).Renames σ (g.link (σ p) (σ c)) := by
  rw [Forest.link, Forest.link, h.children]
  have hchildren := h.setChildren p (f.children p ++ [c])
  rw [List.map_append, List.map_singleton] at hchildren
  exact hchildren.setParent c (some p)

end Renames

mutual
theorem Renames.graft {σ : NodeId → NodeId} : ∀ (o : Outline) {f g : Forest}, f.Renames σ g →
    (f.graft o).1.Renames σ (g.graft o).1 ∧ (g.graft o).2 = σ (f.graft o).2
  | .node e cs, f, g, h => by
    rw [Forest.graft, Forest.graft, h.snd_alloc]
    exact ⟨Renames.graftAll cs (h.alloc e) _, rfl⟩
theorem Renames.graftAll {σ : NodeId → NodeId} : ∀ (os : List Outline) {f g : Forest},
    f.Renames σ g → ∀ p, (f.graftAll p os).Renames σ (g.graftAll (σ p) os)
  | [], f, g, h, p => h
  | o :: os, f, g, h, p => by
    obtain ⟨hmade, hid⟩ := Renames.graft o h
    rw [Forest.graftAll, Forest.graftAll, hid]
    exact Renames.graftAll os (hmade.link p _) p
end

namespace Renames

variable {σ : NodeId → NodeId} {f g : Forest} (h : f.Renames σ g)

include h

/-! ### Edits -/

theorem mem_map {i : NodeId} {xs : List NodeId} : (xs.map σ).contains (σ i) = xs.contains i := by
  rw [Bool.eq_iff_iff, List.contains_iff_mem, List.contains_iff_mem,
    List.mem_map_of_injective h.injective]

theorem beq {i j : NodeId} : (σ i == σ j) = (i == j) := by
  rw [Bool.eq_iff_iff, beq_iff_eq, beq_iff_eq, h.injective.eq_iff]

theorem isAtOrAbove (i j : NodeId) : g.isAtOrAbove (σ i) (σ j) = f.isAtOrAbove i j := by
  rw [Forest.isAtOrAbove, Forest.isAtOrAbove, h.ancestors, h.mem_map, h.beq]

theorem insert (p : NodeId) (n : Nat) (c : NodeId) :
    Agree (Renames σ) (f.insert p n c) (g.insert (σ p) n (σ c)) := by
  rw [Forest.insert, Forest.insert, h.kind, h.parent, h.isAtOrAbove, h.children]
  split
  · exact .error
  · cases f.parent c with
    | some q => exact .error
    | none =>
      simp only [Option.map_none, List.length_map]
      split
      · exact .error
      · refine .ok ?_
        rw [← List.map_insertIdx]
        exact (h.setChildren p _).setParent c (some p)

theorem attach (p c : NodeId) : Agree (Renames σ) (f.attach p c) (g.attach (σ p) (σ c)) := by
  rw [Forest.attach, Forest.attach, h.children, List.length_map]
  exact h.insert p _ c

theorem detach (i : NodeId) : (f.detach i).Renames σ (g.detach (σ i)) := by
  rw [Forest.detach, Forest.detach, h.parent]
  cases f.parent i with
  | none => exact h
  | some p =>
    have hloose : (f.setParent i none).Renames σ (g.setParent (σ i) none) := h.setParent i none
    have hdone := hloose.setChildren p (((f.setParent i none).children p).filter (· != i))
    have hfilter : (((f.setParent i none).children p).filter (· != i)).map σ =
        ((g.setParent (σ i) none).children (σ p)).filter (· != σ i) := by
      rw [hloose.children, List.filter_map]
      refine congrArg _ (List.filter_congr fun j _ => ?_)
      rw [Function.comp_apply, bne, bne, h.beq]
    rw [hfilter] at hdone
    exact hdone

theorem position? (i : NodeId) : g.position? (σ i) = f.position? i := by
  rw [Forest.position?, Forest.position?, h.parent]
  cases f.parent i with
  | none => rfl
  | some p =>
    rw [Option.map_some, Option.bind_some, Option.bind_some, h.children, List.idxOf?,
      List.idxOf?, List.findIdx?_map]
    refine congrArg (fun P => (f.children p).findIdx? P) ?_
    funext j
    exact h.beq

theorem replace (old new : NodeId) :
    Agree (Renames σ) (f.replace old new) (g.replace (σ old) (σ new)) := by
  rw [Forest.replace, Forest.replace, h.parent, h.parent, h.position?]
  cases f.parent old with
  | none => exact .error
  | some p =>
    cases f.parent new with
    | some q => exact .error
    | none =>
      simp only [Option.map_some, Option.map_none, h.isAtOrAbove, h.children]
      split
      · exact .error
      · cases f.position? old with
        | none => exact .error
        | some n =>
          refine .ok ?_
          have hchildren := h.setChildren p ((f.children p).set n new)
          rw [List.map_set] at hchildren
          exact (hchildren.setParent new (some p)).setParent old none

theorem moveChildren (source target : NodeId) :
    Agree (Renames σ) (f.moveChildren source target) (g.moveChildren (σ source) (σ target)) := by
  rw [Forest.moveChildren, Forest.moveChildren, h.kind, h.ancestors, h.mem_map, h.children]
  split
  · exact .error
  · split
    · exact .error
    · refine .ok ?_
      have hfold : ∀ (moved : List NodeId) {f g : Forest}, f.Renames σ g →
          (moved.foldl (fun f child => f.setParent child (some target)) f).Renames σ
            ((moved.map σ).foldl (fun g child => g.setParent child (some (σ target))) g) := by
        intro moved
        induction moved with
        | nil => exact fun h => h
        | cons c moved ih => exact fun h => ih (h.setParent c (some target))
      have hmoved := hfold (f.children source) (h.setChildren source [])
      have hdone := hmoved.setChildren target
        ((((f.children source).foldl (fun f child => f.setParent child (some target))
          (f.setChildren source [])).children target) ++ f.children source)
      rw [List.map_append, ← hmoved.children] at hdone
      exact hdone

/-! ### Coalescing -/

theorem sidesOrStop (c : NodeId) :
    Agree (fun (x y : NodeId × NodeId) => y = (σ x.1, σ x.2)) (f.sidesOrStop c)
      (g.sidesOrStop (σ c)) := by
  refine Agree.mapError ?_ _ _
  rw [sides, sides, h.children]
  rcases f.children c with _ | ⟨l, _ | ⟨r, _ | ⟨x, xs⟩⟩⟩
  · exact .error
  · exact .error
  · exact .ok rfl
  · exact .error

theorem absorb (head other : NodeId) :
    Agree (Renames σ) (f.absorb head other) (g.absorb (σ head) (σ other)) := by
  rw [Forest.absorb, Forest.absorb]
  refine (h.sidesOrStop head).bind ?_
  rintro ⟨l, r⟩ _ rfl
  refine (h.sidesOrStop other).bind ?_
  rintro ⟨l', r'⟩ _ rfl
  refine ((h.moveChildren l' l).mapError _ _).bind ?_
  intro f₁ g₁ h₁
  refine ((h₁.moveChildren r' r).mapError _ _).bind ?_
  intro f₂ g₂ h₂
  exact .ok (h₂.detach other)

end Renames

theorem Renames.coalesceRun {σ : NodeId → NodeId} {f g : Forest} (h : f.Renames σ g)
    (head : Option NodeId) (ids : List NodeId) :
    Agree (Renames σ) (f.coalesceRun head ids) (g.coalesceRun (head.map σ) (ids.map σ)) := by
  induction ids generalizing f g head with
  | nil => exact .ok h
  | cons i ids ih =>
    rw [List.map_cons, Forest.coalesceRun, Forest.coalesceRun, h.kind]
    cases f.kind i with
    | conflict l =>
      have hhead : (head.map σ).filter (fun j => g.kind j == .conflict l) =
          (head.filter fun j => f.kind j == .conflict l).map σ := by
        cases head with
        | none => rfl
        | some j => simp only [Option.map_some, Option.filter_some, h.kind]; split <;> rfl
      simp only [hhead]
      cases head.filter fun j => f.kind j == .conflict l with
      | none => exact ih h (some i)
      | some j =>
        refine (h.absorb j i).bind ?_
        intro f₁ g₁ h₁
        exact ih h₁ (some j)
    | _ => exact ih h none

theorem Renames.coalesceTo {σ : NodeId → NodeId} {f g : Forest} (h : f.Renames σ g)
    (depth : Nat) (i : NodeId) :
    Agree (Renames σ) (f.coalesceTo depth i) (g.coalesceTo depth (σ i)) := by
  induction depth generalizing f g i with
  | zero => exact .ok h
  | succ depth ih =>
    have hfold : ∀ (ids : List NodeId) {f g : Forest}, f.Renames σ g →
        Agree (Renames σ)
          (ids.foldlM (fun f child =>
            if (f.kind child).isContainer then f.coalesceTo depth child else .ok f) f)
          ((ids.map σ).foldlM (fun g child =>
            if (g.kind child).isContainer then g.coalesceTo depth child else .ok g) g) := by
      intro ids
      induction ids with
      | nil => exact fun h => .ok h
      | cons c ids ihc =>
        intro f g h
        rw [List.map_cons, List.foldlM_cons, List.foldlM_cons, h.kind]
        refine Agree.bind ?_ fun f₁ g₁ h₁ => ihc h₁
        split
        · exact ih h c
        · exact .ok h
    rw [Forest.coalesceTo, Forest.coalesceTo, h.children]
    refine (h.coalesceRun none (f.children i)).bind ?_
    intro f₁ g₁ h₁
    rw [h₁.children]
    exact hfold (f₁.children i) h₁

/-- Coalescing does not depend on the names of nodes. -/
theorem Renames.coalesce {σ : NodeId → NodeId} {f g : Forest} (h : f.Renames σ g) :
    Agree (Renames σ) f.coalesce g.coalesce := by
  have hall := h.coalesceTo f.size Forest.root
  rw [h.root] at hall
  rw [Forest.coalesce, Forest.coalesce, h.size]
  exact hall

end Forest

end StubMerge
