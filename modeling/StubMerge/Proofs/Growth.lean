import StubMerge.Merge.Agreement
import StubMerge.Proofs.Places

/-!
# Growth

A merge only adds to what is there. This module says what adding is, for an entry, for what
stands above a node, for a place, and for all places of a tree:

* an entry *grows* when it keeps its location, gets comments behind its own, and gets signatures
  where it had none or values behind those of an enumeration;
* what stands above a node is *wrapped* when conflicts with their left sides are put in between;
* a place is *kept* when its entry grows and what is above it is wrapped;
* a list of places is *grown* by new ones when it is kept in order, with the new ones in between.

What a node is called, and which scopes it is in, does not change under any of this.
-/

namespace StubMerge

/-! ## Entries -/

/-- What may be added to a declaration: signatures if there are none, and values of an
enumeration behind those that are there. -/
inductive Kind.GrowsTo : Kind → Kind → Prop
  | same (k : Kind) : GrowsTo k k
  | method (m : Method) (sigs : List Signature) : m.signatures = [] →
      GrowsTo (.leaf (.method m)) (.leaf (.method { m with signatures := sigs }))
  | attr (a : Attribute) (sigs : List Signature) : a.signatures = [] →
      GrowsTo (.leaf (.attr a)) (.leaf (.attr { a with signatures := sigs }))
  | enums (names more : List String) :
      GrowsTo (.leaf (.enums names)) (.leaf (.enums (names ++ more)))

/-- What may be added to an entry. -/
structure Entry.GrowsTo (e e' : Entry) : Prop where
  kind : e.kind.GrowsTo e'.kind
  comments : e.comments <+: e'.comments
  location : e'.location = e.location

theorem Kind.GrowsTo.trans {k₁ k₂ k₃ : Kind} (h : k₁.GrowsTo k₂) (h' : k₂.GrowsTo k₃) :
    k₁.GrowsTo k₃ := by
  cases h with
  | same => exact h'
  | method m sigs hm =>
    cases h' with
    | same => exact .method m sigs hm
    | method _ sigs' _ => exact .method m sigs' hm
  | attr a sigs ha =>
    cases h' with
    | same => exact .attr a sigs ha
    | attr _ sigs' _ => exact .attr a sigs' ha
  | enums names more =>
    cases h' with
    | same => exact .enums names more
    | enums _ more' =>
      rw [List.append_assoc]
      exact .enums names (more ++ more')

theorem Entry.GrowsTo.refl (e : Entry) : e.GrowsTo e := ⟨.same _, List.prefix_rfl, rfl⟩

theorem Entry.GrowsTo.trans {e₁ e₂ e₃ : Entry} (h : e₁.GrowsTo e₂) (h' : e₂.GrowsTo e₃) :
    e₁.GrowsTo e₃ :=
  ⟨h.kind.trans h'.kind, h.comments.trans h'.comments, h'.location.trans h.location⟩

/-- Only leaves change. -/
theorem Kind.GrowsTo.eq_of_container {k k' : Kind} (h : k.GrowsTo k')
    (hk : k.isContainer = true) : k' = k := by
  cases h with
  | same => rfl
  | _ => simp [Kind.isContainer] at hk

theorem Kind.GrowsTo.keys_eq {k k' : Kind} (h : k.GrowsTo k') (path : String) :
    k'.keys path = k.keys path := by
  cases h <;> rfl

/-- A kind has the class of what it grew from. -/
theorem Kind.GrowsTo.isScope_eq {k k' : Kind} (h : k.GrowsTo k') : k'.isScope = k.isScope := by
  cases h <;> rfl

theorem Kind.GrowsTo.isContainer_eq {k k' : Kind} (h : k.GrowsTo k') :
    k'.isContainer = k.isContainer := by
  cases h <;> rfl

theorem Kind.GrowsTo.within_eq {k k' : Kind} (h : k.GrowsTo k') (path : String) :
    k'.within path = k.within path := by
  cases h <;> rfl

theorem Kind.GrowsTo.scopeName?_eq {k k' : Kind} (h : k.GrowsTo k') :
    k'.scopeName? = k.scopeName? := by
  cases h <;> rfl

theorem appendNew_eq_self {α : Type} [BEq α] [LawfulBEq α] {xs ys : List α}
    (h : ∀ y ∈ ys, y ∈ xs) : xs.appendNew ys = xs := by
  induction ys with
  | nil => rfl
  | cons y ys ih =>
    rw [List.appendNew_cons, if_pos (by simpa using h y (by simp))]
    exact ih fun z hz => h z (by simp [hz])

/-- Signatures that agree add nothing unless there are none. -/
theorem appendNew_of_signaturesAgree {xs ys : List Signature}
    (h : signaturesAgree xs ys = true) : xs = [] ∨ xs.appendNew ys = xs := by
  simp only [signaturesAgree, Bool.or_eq_true, List.isEmpty_iff, beq_iff_eq] at h
  rcases h with (h | rfl) | rfl
  · exact .inl h
  · exact .inr rfl
  · exact .inr (appendNew_eq_self fun _ hy => hy)

theorem signaturesAgree_comm (xs ys : List Signature) :
    signaturesAgree xs ys = signaturesAgree ys xs := by
  rw [signaturesAgree, signaturesAgree, Bool.or_comm xs.isEmpty, BEq.comm]

theorem Scope.agrees_comm (s s' : Scope) : s.agrees s' = s'.agrees s := by
  cases s <;> cases s' <;> simp only [Scope.agrees, BEq.comm]

theorem Leaf.agrees_comm (x y : Leaf) : x.agrees y = y.agrees x := by
  cases x <;> cases y <;> simp only [Leaf.agrees, BEq.comm, signaturesAgree_comm]

theorem Kind.agrees_comm (k k' : Kind) : k.agrees k' = k'.agrees k := by
  cases k <;> cases k' <;> simp only [Kind.agrees, Scope.agrees_comm, Leaf.agrees_comm]

/-- Scopes agree with scopes only. -/
theorem Kind.isScope_eq_of_agrees {k k' : Kind} (h : k.agrees k' = true) :
    k.isScope = k'.isScope := by
  cases k with
  | scope s =>
    cases k' with
    | scope s' => rfl
    | _ => cases h
  | leaf x =>
    cases k' with
    | leaf x' => rfl
    | _ => cases h
  | group | conflict _ | scopeConflict _ => cases h

theorem Kind.isContainer_eq_of_agrees {k k' : Kind} (h : k.agrees k' = true) :
    k.isContainer = k'.isContainer := by
  cases k <;> cases k' <;> first | rfl | cases h

/-- Folding in a declaration that agrees is growth. -/
theorem Kind.growsTo_fold {k k' : Kind} (h : k.agrees k' = true) : k.GrowsTo (k.fold k') := by
  cases k with
  | leaf l =>
    cases k' with
    | leaf l' =>
      cases l with
      | method m =>
        cases l' with
        | method m' =>
          simp only [Kind.agrees, Leaf.agrees, Bool.and_eq_true] at h
          rcases appendNew_of_signaturesAgree h.2 with hm | hm
          · exact .method m _ hm
          · simp only [Kind.fold, Leaf.fold, hm]
            exact .same _
        | _ => exact .same _
      | attr a =>
        cases l' with
        | attr a' =>
          simp only [Kind.agrees, Leaf.agrees, Bool.and_eq_true] at h
          rcases appendNew_of_signaturesAgree h.2 with ha | ha
          · exact .attr a _ ha
          · simp only [Kind.fold, Leaf.fold, ha]
            exact .same _
        | _ => exact .same _
      | enums names =>
        cases l' with
        | enums names' =>
          obtain ⟨more, hmore⟩ := List.isPrefix_appendNew names names'
          simp only [Kind.fold, Leaf.fold, ← hmore]
          exact .enums names more
        | _ => exact .same _
      | _ => cases l' <;> exact .same _
    | _ => exact .same _
  | _ => cases k' <;> exact .same _

/-! ## What stands above a node -/

/-- What a merge may put between a node and what is above it: a conflict and its left side, or a
conflict between headers. -/
inductive Step.Wraps : Step → Prop
  | side (i : NodeId) : Wraps ⟨i, .group, .side .left⟩
  | conflict (i : NodeId) (l : Labels) : Wraps ⟨i, .conflict l, .member⟩
  | headers (i : NodeId) (l : Labels) : Wraps ⟨i, .scopeConflict l, .member⟩

/-- Steps are put in between, and scopes may become left headers. -/
inductive Wrapped : List Step → List Step → Prop
  | nil : Wrapped [] []
  | keep (st : Step) {a b : List Step} : Wrapped a b → Wrapped (st :: a) (st :: b)
  | left (i : NodeId) (s : Scope) {a b : List Step} : Wrapped a b →
      Wrapped (⟨i, .scope s, .member⟩ :: a) (⟨i, .scope s, .header .left⟩ :: b)
  | wrap {st : Step} {a b : List Step} : st.Wraps → Wrapped a b → Wrapped a (st :: b)

namespace Wrapped

variable {a b c : List Step}

theorem refl (a : List Step) : Wrapped a a := by
  induction a with
  | nil => exact .nil
  | cons st a ih => exact .keep st ih

theorem trans (h : Wrapped a b) (h' : Wrapped b c) : Wrapped a c := by
  induction h' generalizing a with
  | nil => exact h
  | keep st _ ih =>
    cases h with
    | keep _ h => exact .keep st (ih h)
    | left i s h => exact .left i s (ih h)
    | wrap hst h => exact .wrap hst (ih h)
  | left i s _ ih =>
    cases h with
    | keep _ h => exact .left i s (ih h)
    | wrap hst => cases hst
  | wrap hst _ ih => exact .wrap hst (ih h)

theorem path_eq (h : Wrapped a b) (path : String) :
    b.foldr (fun st path => st.kind.within path) path =
      a.foldr (fun st path => st.kind.within path) path := by
  induction h with
  | nil => rfl
  | keep st _ ih => rw [List.foldr_cons, List.foldr_cons, ih]
  | left i s _ ih => rw [List.foldr_cons, List.foldr_cons, ih]
  | wrap hst _ ih => cases hst <;> exact ih

/-- The scopes above stay the same. -/
theorem scopes_eq (h : Wrapped a b) :
    (b.filter fun st => st.kind.isScope).map Step.id =
      (a.filter fun st => st.kind.isScope).map Step.id := by
  induction h with
  | nil => rfl
  | keep st _ ih => cases hs : st.kind.isScope <;> simp [hs, ih]
  | left i s _ ih =>
    rw [List.filter_cons_of_pos rfl, List.filter_cons_of_pos rfl, List.map_cons, List.map_cons, ih]
  | wrap hst _ ih =>
    rw [List.filter_cons_of_neg (by cases hst <;> simp [Kind.isScope])]
    exact ih

/-- What is above stays above, and all else is there for a conflict. -/
theorem mem_cases (h : Wrapped a b) {st : Step} (hst : st ∈ b) :
    st.id ∈ a.map Step.id ∨ st.Wraps := by
  induction h with
  | nil => cases hst
  | keep _ _ ih | left _ _ _ ih =>
    rcases List.mem_cons.1 hst with rfl | hst
    · exact .inl (by simp)
    · exact (ih hst).imp_left fun hm => by simp [List.mem_cons, hm]
  | wrap hw _ ih =>
    rcases List.mem_cons.1 hst with rfl | hst
    · exact .inr hw
    · exact ih hst

theorem sublist_ids (h : Wrapped a b) : (a.map Step.id).Sublist (b.map Step.id) := by
  induction h with
  | nil => exact .slnil
  | keep st _ ih => exact ih.cons_cons _
  | left i s _ ih => exact ih.cons_cons _
  | wrap _ _ ih => exact ih.cons _

end Wrapped

/-! ## Places -/

/-- A place is kept: its entry may grow, and what is above it may be wrapped. -/
structure Place.Kept (p q : Place) : Prop where
  id_eq : q.id = p.id
  entry : p.entry.GrowsTo q.entry
  above : Wrapped p.above q.above
  slot : q.slot = p.slot ∨ p.kind.isScope = true ∧ p.slot = .member ∧ q.slot = .header .left
  listed_eq : q.listed = p.listed
  /-- What is not a member stays right below what it is below. -/
  fixed : p.slot ≠ .member → q.above.head? = p.above.head?

namespace Place.Kept

variable {p q r : Place}

theorem refl (p : Place) : p.Kept p :=
  ⟨rfl, .refl _, .refl _, .inl rfl, rfl, fun _ => rfl⟩

theorem kind (h : p.Kept q) : p.kind.GrowsTo q.kind := h.entry.kind

theorem trans (h : p.Kept q) (h' : q.Kept r) : p.Kept r where
  id_eq := h'.id_eq.trans h.id_eq
  entry := h.entry.trans h'.entry
  above := h.above.trans h'.above
  slot := by
    rcases h.slot with hs | ⟨hk, hp, hq⟩
    · rcases h'.slot with hs' | ⟨hk', hp', hq'⟩
      · exact .inl (hs'.trans hs)
      · exact .inr ⟨h.kind.isScope_eq ▸ hk', hs ▸ hp', hq'⟩
    · rcases h'.slot with hs' | ⟨-, hp', -⟩
      · exact .inr ⟨hk, hp, hs'.trans hq⟩
      · rw [hq] at hp'
        cases hp'
  listed_eq := h'.listed_eq.trans h.listed_eq
  fixed hp := by
    rcases h.slot with hs | ⟨-, hm, -⟩
    · rw [h'.fixed (hs ▸ hp), h.fixed hp]
    · exact absurd hm hp

theorem path_eq (h : p.Kept q) : q.path = p.path := h.above.path_eq ""

theorem keys_eq (h : p.Kept q) : q.keys = p.keys := by
  rw [keys, keys, h.path_eq, h.kind.keys_eq]

end Place.Kept

/-- The places `P` become `Q`: all are kept, in order, and the places `N` come in between. -/
inductive Grown : List Place → List Place → List Place → Prop
  | nil : Grown [] [] []
  | keep {p q : Place} {N P Q : List Place} : p.Kept q → Grown N P Q → Grown N (p :: P) (q :: Q)
  | add (q : Place) {N P Q : List Place} : Grown N P Q → Grown (q :: N) P (q :: Q)

namespace Grown

variable {N M P Q R : List Place}

theorem refl (P : List Place) : Grown [] P P := by
  induction P with
  | nil => exact .nil
  | cons p P ih => exact .keep (.refl p) ih

theorem new (N : List Place) : Grown N [] N := by
  induction N with
  | nil => exact .nil
  | cons q N ih => exact .add q ih

theorem append {P' Q' : List Place} (h : Grown N P Q) (h' : Grown M P' Q') :
    Grown (N ++ M) (P ++ P') (Q ++ Q') := by
  induction h with
  | nil => exact h'
  | keep hp _ ih => exact .keep hp ih
  | add q _ ih => exact .add q ih

theorem of_forall₂ (h : List.Forall₂ Place.Kept P Q) : Grown [] P Q := by
  induction h with
  | nil => exact .nil
  | cons hp _ ih => exact .keep hp ih

/-- Each old place is kept. -/
theorem exists_kept (h : Grown N P Q) {p : Place} (hp : p ∈ P) : ∃ q ∈ Q, p.Kept q := by
  induction h with
  | nil => cases hp
  | keep hk _ ih =>
    rcases List.mem_cons.1 hp with rfl | hp
    · exact ⟨_, List.mem_cons_self, hk⟩
    · obtain ⟨q, hq, hk⟩ := ih hp
      exact ⟨q, List.mem_cons_of_mem _ hq, hk⟩
  | add q _ ih =>
    obtain ⟨q, hq, hk⟩ := ih hp
    exact ⟨q, List.mem_cons_of_mem _ hq, hk⟩

/-- Each place is an old one that was kept, or new. -/
theorem mem_cases (h : Grown N P Q) {q : Place} (hq : q ∈ Q) :
    (∃ p ∈ P, p.Kept q) ∨ q ∈ N := by
  induction h with
  | nil => cases hq
  | keep hk _ ih =>
    rcases List.mem_cons.1 hq with rfl | hq
    · exact .inl ⟨_, List.mem_cons_self, hk⟩
    · rcases ih hq with ⟨p, hp, hk⟩ | hn
      · exact .inl ⟨p, List.mem_cons_of_mem _ hp, hk⟩
      · exact .inr hn
  | add q' _ ih =>
    rcases List.mem_cons.1 hq with rfl | hq
    · exact .inr List.mem_cons_self
    · rcases ih hq with ⟨p, hp, hk⟩ | hn
      · exact .inl ⟨p, hp, hk⟩
      · exact .inr (List.mem_cons_of_mem _ hn)

theorem mem_of_new (h : Grown N P Q) {q : Place} (hq : q ∈ N) : q ∈ Q := by
  induction h with
  | nil => cases hq
  | keep _ _ ih => exact List.mem_cons_of_mem _ (ih hq)
  | add q' _ ih =>
    rcases List.mem_cons.1 hq with rfl | hq
    · exact List.mem_cons_self
    · exact List.mem_cons_of_mem _ (ih hq)

/-- What grew can grow further. -/
theorem trans (h : Grown N P Q) (h' : Grown M Q R) : ∃ N', Grown N' P R := by
  induction h' generalizing N P with
  | nil => exact ⟨N, h⟩
  | keep hk _ ih =>
    cases h with
    | keep hp h =>
      obtain ⟨N', hN⟩ := ih h
      exact ⟨N', .keep (hp.trans hk) hN⟩
    | add _ h =>
      obtain ⟨N', hN⟩ := ih h
      exact ⟨_ :: N', .add _ hN⟩
  | add q _ ih =>
    obtain ⟨N', hN⟩ := ih h
    exact ⟨q :: N', .add q hN⟩

/-- Old places keep their order. -/
theorem sublist_ids (h : Grown N P Q) : (P.map Place.id).Sublist (Q.map Place.id) := by
  induction h with
  | nil => exact .slnil
  | keep hk _ ih =>
    rw [List.map_cons, List.map_cons, hk.id_eq]
    exact ih.cons_cons _
  | add q _ ih => exact ih.cons _

end Grown

/-! ## The four ways in which a tree grows -/

/-- A conflict, numbered from `n` on, with one tree on its left and one on its right. -/
def Tree.opposed (n : NodeId) (l : Labels) (s c : Tree) : Tree :=
  .node n { kind := .conflict l } [.node (n + 1) {} [s], .node (n + 2) {} [c]]

/-- A conflict between headers, numbered from `n` on, with a scope on its left. -/
def Tree.opposedHeaders (n : NodeId) (l : Labels) (s : Tree) (e : Entry) : Tree :=
  .node n { kind := .scopeConflict l } [s, .node (n + 1) e []]

namespace Tree

/-- Wrapping what is above a tree keeps all its places. Only a leaf looks at the slot right above
it, and only what is not a member at the node right above it. -/
theorem kept_placesAt (t : Tree) {slot : Slot} {a a' : List Step} (h : Wrapped a a')
    (hleaf : t.kind.isContainer = false →
      (a'.head?.map Step.slot = some (.side .right) ↔ a.head?.map Step.slot = some (.side .right)))
    (hslot : slot ≠ .member → a'.head? = a.head?) :
    List.Forall₂ Place.Kept (t.placesAt slot a) (t.placesAt slot a') := by
  induction t using induct generalizing slot a a' with
  | step i e cs ih =>
    have hcs : ∀ ds, (∀ d ∈ ds, d ∈ cs) → ∀ first,
        List.Forall₂ Place.Kept (placesAll e.kind first (⟨i, e.kind, slot⟩ :: a) ds)
          (placesAll e.kind first (⟨i, e.kind, slot⟩ :: a') ds) := by
      intro ds
      induction ds with
      | nil => exact fun _ _ => .nil
      | cons d ds ihd =>
        intro hd first
        rw [placesAll, placesAll]
        exact List.rel_append (ih d (hd d (by simp)) (.keep _ h) (fun _ => Iff.rfl) fun _ => rfl)
          (ihd (fun x hx => hd x (by simp [hx])) false)
    rw [placesAt, placesAt]
    refine .cons ⟨rfl, .refl e, h, .inl rfl, ?_, hslot⟩ (hcs cs (fun _ hc => hc) true)
    -- The top itself: a leaf is listed by the slot above it, a scope by its own.
    unfold Place.listed Place.kind
    cases hk : e.kind with
    | leaf l =>
      have := hleaf (by simp [hk, Kind.isContainer])
      simp only [bne, Bool.not_eq_eq_eq_not, Bool.not_not]
      rw [Bool.eq_iff_iff]
      simpa using this
    | _ => rfl

theorem kept_placesAll {kind : Kind} (cs : List Tree) {first : Bool} {a a' : List Step}
    (h : Wrapped a a')
    (hleaf : a'.head?.map Step.slot = some (.side .right) ↔
      a.head?.map Step.slot = some (.side .right))
    (hslot : ∀ first, kind.slot first ≠ .member → a'.head? = a.head?) :
    List.Forall₂ Place.Kept (placesAll kind first a cs) (placesAll kind first a' cs) := by
  induction cs generalizing first with
  | nil => exact .nil
  | cons c cs ih =>
    rw [placesAll, placesAll]
    exact List.rel_append (c.kept_placesAt h (fun _ => hleaf) (hslot first)) ih

variable {K : Frames}

/-- What changes at one node changes the places before and behind it in nothing. -/
theorem grown_under {N : List Place} {s s' : Tree}
    (h : Grown N (s.placesAt (Frames.slot K) (Frames.steps K))
      (s'.placesAt (Frames.slot K) (Frames.steps K))) :
    Grown N (s.under K).places (s'.under K).places := by
  rw [places_under, places_under]
  simpa using ((Grown.refl _).append h).append (Grown.refl _)

/-- The entry of a node grows. -/
theorem grown_entry {i : NodeId} {e e' : Entry} {cs : List Tree} (he : e.GrowsTo e')
    (hcs : e'.kind = e.kind ∨ cs = []) :
    Grown [] ((node i e cs).under K).places ((node i e' cs).under K).places := by
  refine grown_under (.keep ⟨rfl, he, .refl _, .inl rfl, ?_, fun _ => rfl⟩ ?_)
  · have hk := he.kind
    unfold Place.listed Place.kind
    generalize e.kind = k, e'.kind = k' at hk
    cases hk <;> rfl
  · rcases hcs with hk | rfl
    · rw [hk]
      exact .refl _
    · exact .nil

/-- A tree is put behind the members of a node. -/
theorem grown_append {i : NodeId} {e : Entry} {cs : List Tree} (c : Tree)
    (he : e.kind.isConflict = false) :
    Grown (c.placesAt .member (⟨i, e.kind, Frames.slot K⟩ :: Frames.steps K))
      ((node i e cs).under K).places ((node i e (cs ++ [c])).under K).places := by
  refine grown_under (.keep (.refl _) ?_)
  rw [placesAll_append, placesAll_cons, Kind.slot_eq_member he, placesAll, List.append_nil]
  simpa using (Grown.refl _).append (Grown.new _)

/-- The places that come in when a tree is set against a node that has `above` above it. -/
def opposedPlaces (n : NodeId) (l : Labels) (c : Tree) (above : List Step) : List Place :=
  [⟨n, { kind := .conflict l }, .member, above⟩,
    ⟨n + 1, {}, .side .left, ⟨n, .conflict l, .member⟩ :: above⟩,
    ⟨n + 2, {}, .side .right, ⟨n, .conflict l, .member⟩ :: above⟩]
  ++ c.placesAt .member (⟨n + 2, .group, .side .right⟩ :: ⟨n, .conflict l, .member⟩ :: above)

/-- A tree is set against a member. -/
theorem grown_opposed {n : NodeId} {l : Labels} {s c : Tree} (hK : Frames.slot K = .member)
    (hs : s.kind.isContainer = false → (s.placeIn K).listed = true) :
    Grown (opposedPlaces n l c (Frames.steps K)) (s.under K).places
      ((opposed n l s c).under K).places := by
  refine grown_under ?_
  rw [hK]
  have hleaf : s.kind.isContainer = false →
      (Frames.steps K).head?.map Step.slot ≠ some (.side .right) := by
    intro hc
    have hl := hs hc
    unfold Place.listed Place.kind placeIn at hl
    simp only [kind] at hc
    cases hk : s.entry.kind with
    | leaf l => simpa [hk] using hl
    | _ => simp [hk, Kind.isContainer] at hc
  have hkept : List.Forall₂ Place.Kept (s.placesAt .member (Frames.steps K)) (s.placesAt .member
      (⟨n + 1, .group, .side .left⟩ :: ⟨n, .conflict l, .member⟩ :: Frames.steps K)) :=
    s.kept_placesAt (.wrap (.side (n + 1)) (.wrap (.conflict n l) (.refl _)))
      (fun hc => by simpa using hleaf hc) fun h => absurd rfl h
  have hgrown := ((Grown.new ((opposedPlaces n l c (Frames.steps K)).take 2)).append
    (Grown.of_forall₂ hkept)).append (Grown.new ((opposedPlaces n l c (Frames.steps K)).drop 2))
  simpa [opposed, opposedPlaces, placesAt, placesAll, Kind.slot] using hgrown

/-- A header is set against the header of a scope that is a member. -/
theorem grown_opposedHeaders {n : NodeId} {l : Labels} {i : NodeId} {e d : Entry}
    {cs : List Tree} (hK : Frames.slot K = .member) (he : e.kind.isScope = true) :
    Grown [⟨n, { kind := .scopeConflict l }, .member, Frames.steps K⟩,
        ⟨n + 1, d, .header .right, ⟨n, .scopeConflict l, .member⟩ :: Frames.steps K⟩]
      ((node i e cs).under K).places ((opposedHeaders n l (node i e cs) d).under K).places := by
  obtain ⟨sc, hsc⟩ : ∃ sc, e.kind = .scope sc := by
    cases hk : e.kind with
    | scope sc => exact ⟨sc, rfl⟩
    | _ => simp [hk, Kind.isScope] at he
  refine grown_under ?_
  rw [hK]
  -- The scope itself becomes the left header, and what is in it is wrapped.
  have htop : Place.Kept ⟨i, e, .member, Frames.steps K⟩
      ⟨i, e, .header .left, ⟨n, .scopeConflict l, .member⟩ :: Frames.steps K⟩ :=
    ⟨rfl, .refl e, .wrap (.headers n l) (.refl _), .inr ⟨he, rfl, rfl⟩,
      by simp [Place.listed, Place.kind, hsc]; rfl, fun h => absurd rfl h⟩
  have hbody : List.Forall₂ Place.Kept
      (placesAll e.kind true (⟨i, .scope sc, .member⟩ :: Frames.steps K) cs)
      (placesAll e.kind true
        (⟨i, .scope sc, .header .left⟩ :: ⟨n, .scopeConflict l, .member⟩ :: Frames.steps K) cs) :=
    kept_placesAll cs (.left i sc (.wrap (.headers n l) (.refl _))) (by simp)
      fun _ h => absurd (by rw [hsc]; rfl) h
  have hgrown := ((Grown.new [⟨n, { kind := .scopeConflict l }, .member, Frames.steps K⟩]).append
    (Grown.keep htop (Grown.of_forall₂ hbody))).append (Grown.new
      [⟨n + 1, d, .header .right, ⟨n, .scopeConflict l, .member⟩ :: Frames.steps K⟩])
  simpa [opposedHeaders, placesAt, placesAll, Kind.slot, hsc] using hgrown

end Tree

end StubMerge
