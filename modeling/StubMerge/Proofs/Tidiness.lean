import StubMerge.Proofs.Merging
import StubMerge.Proofs.Printable

/-!
# Merging keeps entries tidy

An entry is *tidy* if its lines are read as they are written, at whatever place they come to stand:
its texts are printable and on one line, no name runs together with its receiver, and a header can
open a body even where it had none. What a merge makes of two tidy outlines is a tidy tree
(`Merger.merge_tidy`): folding takes signatures, values and comments over as they are, and the nodes
that come in for a conflict carry nothing but labels. Groups come in only as sides of conflicts.
-/

namespace StubMerge

/-! ## Tidy entries -/

/-- Whether a text is all on one line. -/
def isOneLine (text : String) : Bool := !text.toList.contains '\n'

/-- Whether the texts of a declaration are on one line each. A scope may gain a body or stay without
one, so its header must be read as it is written in both cases. -/
def Entry.isMovable (e : Entry) : Bool :=
  match e.kind with
  | .scope s => s.isPrintable true && s.isPrintable false && isOneLine (Print.header s)
  | .leaf l => (Print.leaf 0 l).all isOneLine
  | _ => true

namespace Outline

mutual
/-- Whether all declarations of an outline can stand at any place, on single lines. -/
def isMovable : Outline → Bool
  | node e cs => e.isMovable && areMovable cs
/-- Whether all declarations of neighbours can stand at any place, on single lines. -/
def areMovable : List Outline → Bool
  | [] => true
  | c :: cs => c.isMovable && areMovable cs
end

end Outline

/-- Whether labels are on one line each. -/
def Labels.areSingleLine (labels : Labels) : Bool := isOneLine labels.left && isOneLine labels.right

/-- Whether what a node is can be printed at any place. -/
def Kind.isTidy : Kind → Bool
  | group => true
  | scope s => s.isPrintable true && s.isPrintable false && isOneLine (Print.header s)
  | leaf l => l.isPrintable && !l.runsTogether && (Print.leaf 0 l).all isOneLine
  | conflict labels => labels.areSingleLine
  | scopeConflict labels => labels.areSingleLine

/-- Whether an entry can be printed at any place. -/
def Entry.isTidy (e : Entry) : Bool := e.comments.all isCommentLine && e.kind.isTidy

theorem Entry.isTidy_iff {e : Entry} :
    e.isTidy = true ↔ e.comments.all isCommentLine = true ∧ e.kind.isTidy = true := by
  rw [isTidy, Bool.and_eq_true]

theorem all_appendNew {α : Type} [BEq α] [LawfulBEq α] {p : α → Bool} {xs ys : List α}
    (hx : xs.all p = true) (hy : ys.all p = true) : (xs.appendNew ys).all p = true := by
  rw [List.all_eq_true] at hx hy ⊢
  intro x hmem
  rcases List.mem_appendNew.1 hmem with h | h
  · exact hx x h
  · exact hy x h

theorem Entry.isTidy_addComments {e : Entry} (h : e.isTidy = true) {xs : List String}
    (hxs : xs.all isCommentLine = true) : (e.addComments xs).isTidy = true := by
  obtain ⟨hcomments, hkind⟩ := isTidy_iff.1 h
  exact isTidy_iff.2 ⟨all_appendNew hcomments hxs, hkind⟩

/-- Folding takes over signatures and values that are tidy. -/
theorem Leaf.isTidy_fold {l d : Leaf} (hl : (Kind.leaf l).isTidy = true)
    (hd : (Kind.leaf d).isTidy = true) : (Kind.leaf (l.fold d)).isTidy = true := by
  cases l with
  | method m =>
    cases d with
    | method m' =>
      simp only [Kind.isTidy, Leaf.isPrintable, Method.isPrintable, Leaf.runsTogether, Print.leaf,
        List.all_append, List.all_map, Bool.and_eq_true] at hl hd
      simp only [Leaf.fold, Kind.isTidy, Leaf.isPrintable, Method.isPrintable, Leaf.runsTogether,
        Print.leaf, List.all_append, List.all_map, Bool.and_eq_true]
      obtain ⟨⟨⟨hnames, hsigs⟩, hdots⟩, hlines, hline⟩ := hl
      exact ⟨⟨⟨hnames, all_appendNew hsigs hd.1.1.2⟩, hdots⟩, all_appendNew hlines hd.2.1, hline⟩
    | _ => exact hl
  | attr a =>
    cases d with
    | attr a' =>
      simp only [Kind.isTidy, Leaf.isPrintable, Attribute.isPrintable, Leaf.runsTogether,
        Print.leaf, List.all_append, List.all_map, Bool.and_eq_true] at hl hd
      simp only [Leaf.fold, Kind.isTidy, Leaf.isPrintable, Attribute.isPrintable, Leaf.runsTogether,
        Print.leaf, List.all_append, List.all_map, Bool.and_eq_true]
      obtain ⟨⟨⟨hnames, hsigs⟩, hdots⟩, hlines, hline⟩ := hl
      exact ⟨⟨⟨hnames, all_appendNew hsigs hd.1.1.2⟩, hdots⟩, all_appendNew hlines hd.2.1, hline⟩
    | _ => exact hl
  | enums names =>
    cases d with
    | enums names' =>
      simp only [Kind.isTidy, Leaf.isPrintable, Leaf.runsTogether, Print.leaf, List.all_append,
        List.all_map, Bool.and_eq_true] at hl hd
      simp only [Leaf.fold, Kind.isTidy, Leaf.isPrintable, Leaf.runsTogether, Print.leaf,
        List.all_append, List.all_map, Bool.and_eq_true]
      obtain ⟨⟨hnames, hdots⟩, ⟨hopen, hlines⟩, hend⟩ := hl
      exact ⟨⟨all_appendNew hnames hd.1.1, hdots⟩, ⟨hopen, all_appendNew hlines hd.2.1.2⟩, hend⟩
    | _ => exact hl
  | _ => cases d <;> exact hl

theorem Kind.isTidy_fold {k d : Kind} (hk : k.isTidy = true) (hd : d.isTidy = true) :
    (k.fold d).isTidy = true := by
  cases k with
  | leaf l =>
    cases d with
    | leaf l' => exact Leaf.isTidy_fold hk hd
    | _ => exact hk
  | _ => exact hk

theorem Entry.isTidy_fold {e d : Entry} (he : e.isTidy = true) (hd : d.isTidy = true) :
    (e.fold d).isTidy = true := by
  obtain ⟨hcomments, hkind⟩ := isTidy_iff.1 he
  obtain ⟨hcomments', hkind'⟩ := isTidy_iff.1 hd
  exact isTidy_iff.2 ⟨all_appendNew hcomments hcomments', Kind.isTidy_fold hkind hkind'⟩

/-! ## Tidy trees -/

namespace Tree

/-- What is below a node is tidy, and no group unless the node is a conflict. -/
def TidyAt (kind : Kind) (cs : List Tree) : Prop :=
  ∀ c ∈ cs, c.entry.isTidy = true ∧ (kind.isConflict = false → c.kind ≠ .group)

/-- All entries of a tree are tidy, and all its groups are sides of conflicts. -/
structure Tidy (t : Tree) : Prop where
  entry : t.entry.isTidy = true
  below : t.Everywhere TidyAt

namespace Tidy

variable {s s' t : Tree} {K : Frames} {i : NodeId} {e : Entry} {cs : List Tree}

theorem node (he : e.isTidy = true) (hcs : ∀ c ∈ cs, c.Tidy)
    (hgroups : e.kind.isConflict = false → ∀ c ∈ cs, c.kind ≠ .group) : (node i e cs).Tidy where
  entry := he
  below := .node (fun c hc => ⟨(hcs c hc).entry, fun hk => hgroups hk c hc⟩) fun c hc =>
    (hcs c hc).below

theorem bare (he : e.isTidy = true) : (Tree.node i e []).Tidy :=
  .node he (by simp) (by simp)

theorem of_mem (h : t.Tidy) {c : Tree} (hc : c ∈ t.children) : c.Tidy :=
  ⟨(h.below.at_top c hc).1, h.below.of_mem hc⟩

theorem ne_group (h : t.Tidy) (ht : t.kind.isConflict = false) {c : Tree} (hc : c ∈ t.children) :
    c.kind ≠ .group :=
  (h.below.at_top c hc).2 ht

theorem of_under (h : (s.under K).Tidy) : s.Tidy := by
  induction K generalizing s with
  | nil => exact h
  | cons k K ih => exact (ih (s := k.fill s) h).of_mem (by simp [Frame.fill])

/-- In the place of a tree another may be put. -/
theorem under (h : (s.under K).Tidy) (hs' : s'.Tidy) (hk : s.kind ≠ .group → s'.kind ≠ .group) :
    (s'.under K).Tidy := by
  induction K generalizing s s' with
  | nil => exact hs'
  | cons k K ih =>
    have hfill : (k.fill s).Tidy := of_under (s := k.fill s) h
    have hrest : ∀ c ∈ k.before ++ s' :: k.after, c = s' ∨ c ∈ (k.fill s).children := by
      intro c hc
      simp only [List.mem_append, List.mem_cons] at hc
      simp only [Frame.fill, children_node, List.mem_append, List.mem_cons]
      tauto
    have hnew : (k.fill s').Tidy → ((k.fill s').under K).Tidy :=
      fun hs' => ih (s := k.fill s) h hs' fun h => h
    refine hnew (.node hfill.entry (fun c hc => ?_) fun hconf c hc => ?_)
    · rcases hrest c hc with rfl | hc
      · exact hs'
      · exact hfill.of_mem hc
    · rcases hrest c hc with rfl | hc
      · exact hk (hfill.ne_group hconf (by simp [Frame.fill]))
      · exact hfill.ne_group hconf hc

/-- A tree that is no group may be put behind the members of a node. -/
theorem append (h : (Tree.node i e cs).Tidy) {c : Tree} (hc : c.Tidy) (hk : c.kind ≠ .group) :
    (Tree.node i e (cs ++ [c])).Tidy := by
  refine .node h.entry (fun d hd => ?_) fun hconf d hd => ?_
  · rcases List.mem_append.1 hd with hd | hd
    · exact h.of_mem hd
    · exact List.mem_singleton.1 hd ▸ hc
  · rcases List.mem_append.1 hd with hd | hd
    · exact h.ne_group hconf hd
    · exact List.mem_singleton.1 hd ▸ hk

/-- A conflict with one tree on each side. -/
theorem opposed {labels : Labels} (hl : labels.areSingleLine = true) {n : NodeId} {c : Tree}
    (hs : s.Tidy) (hc : c.Tidy) (hks : s.kind ≠ .group) (hkc : c.kind ≠ .group) :
    (Tree.opposed n labels s c).Tidy := by
  have hside : ∀ {j : NodeId} {x : Tree}, x.Tidy → x.kind ≠ .group →
      (Tree.node j {} [x]).Tidy := by
    intro j x hx hk
    refine .node rfl (fun d hd => ?_) fun _ d hd => ?_
    · exact List.mem_singleton.1 hd ▸ hx
    · exact List.mem_singleton.1 hd ▸ hk
  refine .node (Entry.isTidy_iff.2 ⟨rfl, hl⟩) (fun d hd => ?_) fun hconf => by cases hconf
  rcases List.mem_pair.1 hd with rfl | rfl
  · exact hside hs hks
  · exact hside hc hkc

/-- A conflict between headers. -/
theorem opposedHeaders {labels : Labels} (hl : labels.areSingleLine = true) {n : NodeId} {d : Entry}
    (hs : s.Tidy) (hd : d.isTidy = true) : (Tree.opposedHeaders n labels s d).Tidy := by
  refine .node (Entry.isTidy_iff.2 ⟨rfl, hl⟩) (fun c hc => ?_) fun hconf => by cases hconf
  rcases List.mem_pair.1 hc with rfl | rfl
  · exact hs
  · exact .bare hd

/-- Absorbing moves trees from groups to groups. -/
theorem absorbs {t' : Tree} (h : t.Tidy) (ht : t.Absorbs t') : t'.Tidy := by
  cases ht with
  | @step K i c l r c' l' r' e d dl dr d' dl' dr' xs ys ls rs ls' rs' lb hd hd' hl hr hl' hr' =>
    have hs := h.of_under
    have hc : (Tree.node c d [Tree.node l dl ls, Tree.node r dr rs]).Tidy := hs.of_mem (by simp)
    have hc' : (Tree.node c' d' [Tree.node l' dl' ls', Tree.node r' dr' rs']).Tidy :=
      hs.of_mem (by simp)
    have hgroup : ∀ {k : Kind}, k = .group → k.isConflict = false := by rintro k rfl; rfl
    have hside : ∀ {j j' : NodeId} {ej ej' : Entry} {us vs : List Tree}, (Tree.node j ej us).Tidy →
        (Tree.node j' ej' vs).Tidy → ej.kind = .group → ej'.kind = .group →
        (Tree.node j ej (us ++ vs)).Tidy := by
      intro j j' ej ej' us vs hu hv hk hk'
      refine .node hu.entry (fun x hx => ?_) fun hconf x hx => ?_
      · exact (List.mem_append.1 hx).elim (fun hx => hu.of_mem hx) fun hx => hv.of_mem hx
      · exact (List.mem_append.1 hx).elim (fun hx => hu.ne_group hconf hx)
          fun hx => hv.ne_group (hgroup hk') hx
    have hnew : (Tree.node c d [Tree.node l dl (ls ++ ls'), Tree.node r dr (rs ++ rs')]).Tidy := by
      refine .node hc.entry (fun x hx => ?_) fun hconf => by simp [hd, Kind.isConflict] at hconf
      rcases List.mem_pair.1 hx with rfl | rfl
      · exact hside (hc.of_mem List.mem_cons_self) (hc'.of_mem List.mem_cons_self) hl hl'
      · exact hside (hc.of_mem (List.mem_cons_of_mem _ List.mem_cons_self))
          (hc'.of_mem (List.mem_cons_of_mem _ List.mem_cons_self)) hr hr'
    refine h.under (.node hs.entry (fun x hx => ?_) fun hconf x hx => ?_) fun hk => hk
    · simp only [List.mem_append, List.mem_cons] at hx
      rcases hx with hx | rfl | hx
      · exact hs.of_mem (by simp [hx])
      · exact hnew
      · exact hs.of_mem (by simp [hx])
    · simp only [List.mem_append, List.mem_cons] at hx
      rcases hx with hx | rfl | hx
      · exact hs.ne_group hconf (by simp [hx])
      · rw [kind_node, hd]
        simp
      · exact hs.ne_group hconf (by simp [hx])

theorem absorbsAll {t' : Tree} (h : t.Tidy) (ht : t.AbsorbsAll t') : t'.Tidy := by
  induction ht with
  | refl => exact h
  | tail _ hstep ih => exact ih.absorbs hstep

end Tidy

end Tree

/-! ## Tidy outlines -/

namespace Outline

mutual
/-- Whether an outline is a declaration with tidy entries throughout. -/
def isTidy : Outline → Bool
  | node e cs => e.isTidy && (e.kind.isScope || !e.kind.isContainer) && areTidy cs
/-- Whether outlines are declarations with tidy entries throughout. -/
def areTidy : List Outline → Bool
  | [] => true
  | c :: cs => c.isTidy && areTidy cs
end

theorem isTidy_node {e : Entry} {cs : List Outline} : (node e cs).isTidy = true ↔
    e.isTidy = true ∧ (e.kind.isScope = true ∨ e.kind.isContainer = false) ∧
      areTidy cs = true := by
  simp only [isTidy, Bool.and_eq_true, Bool.or_eq_true, Bool.not_eq_true', and_assoc]

theorem areTidy_cons {c : Outline} {cs : List Outline} :
    areTidy (c :: cs) = true ↔ c.isTidy = true ∧ areTidy cs = true := by
  rw [areTidy, Bool.and_eq_true]

mutual
theorem isTidy_of_isPrintable : ∀ (o : Outline), o.isPrintable = true → o.runsTogether = false →
    o.isMovable = true → o.isTidy = true ∧ o.isConflictFree = true
  | node e cs, h, hdots, hlines => by
    simp only [isPrintable, Bool.and_eq_true] at h
    simp only [runsTogether, Bool.or_eq_false_iff] at hdots
    simp only [isMovable, Entry.isMovable, Bool.and_eq_true] at hlines
    obtain ⟨⟨hcomments, hcs⟩, hkind⟩ := h
    obtain ⟨htidy, hfree⟩ := areTidy_of_arePrintable cs hcs hdots.2 hlines.2
    rw [isTidy_node, isConflictFree_node, Entry.isTidy_iff]
    cases hk : e.kind with
    | scope s =>
      simp only [hk, Bool.and_eq_true] at hlines
      refine ⟨⟨⟨hcomments, ?_⟩, .inl rfl, htidy⟩, rfl, ?_, hfree⟩
      · simp only [Kind.isTidy, Bool.and_eq_true]
        exact hlines.1
      · intro hcontainer
        cases hcontainer
    | leaf l =>
      simp only [hk, Bool.and_eq_true, List.isEmpty_iff] at hkind hlines hdots
      refine ⟨⟨⟨hcomments, ?_⟩, .inr rfl, htidy⟩, rfl, fun _ => hkind.2, hfree⟩
      simp only [Kind.isTidy, Bool.and_eq_true, Bool.not_eq_true']
      exact ⟨⟨hkind.1, hdots.1⟩, hlines.1⟩
    | group | conflict _ | scopeConflict _ => simp [hk] at hkind
theorem areTidy_of_arePrintable : ∀ (os : List Outline), arePrintable os = true →
    anyRunsTogether os = false → areMovable os = true →
    areTidy os = true ∧ areConflictFree os = true
  | [], _, _, _ => ⟨rfl, rfl⟩
  | o :: os, h, hdots, hlines => by
    simp only [arePrintable, Bool.and_eq_true] at h
    simp only [anyRunsTogether, Bool.or_eq_false_iff] at hdots
    simp only [areMovable, Bool.and_eq_true] at hlines
    obtain ⟨ht, hf⟩ := isTidy_of_isPrintable o h.1 hdots.1 hlines.1
    obtain ⟨hts, hfs⟩ := areTidy_of_arePrintable os h.2 hdots.2 hlines.2
    exact ⟨areTidy_cons.2 ⟨ht, hts⟩, areConflictFree_cons.2 ⟨hf, hfs⟩⟩
end

mutual
/-- A copy of a tidy outline is a tidy tree. -/
theorem tidy_number : ∀ (o : Outline) (n : NodeId), o.isTidy = true →
    (o.number n).Tidy ∧ (o.number n).kind ≠ .group
  | node e cs, n, h => by
    obtain ⟨he, hdecl, hcs⟩ := isTidy_node.1 h
    have hbelow := tidy_numberAll cs (n + 1) hcs
    refine ⟨.node he (fun c hc => (hbelow c hc).1) fun _ c hc => (hbelow c hc).2, ?_⟩
    intro hk
    rw [number, Tree.kind_node] at hk
    simp [hk, Kind.isScope, Kind.isContainer] at hdecl
theorem tidy_numberAll : ∀ (os : List Outline) (n : NodeId), areTidy os = true →
    ∀ c ∈ numberAll n os, c.Tidy ∧ c.kind ≠ .group
  | [], _, _ => by simp [numberAll]
  | o :: os, n, h => by
    obtain ⟨ho, hos⟩ := areTidy_cons.1 h
    intro c hc
    rcases List.mem_cons.1 hc with rfl | hc
    · exact tidy_number o n ho
    · exact tidy_numberAll os _ hos c hc
end

mutual
/-- The declarations of a tidy outline are tidy, and it has no groups. -/
theorem isTidy_declarationsIn : ∀ (o : Outline) (path : String) (enclosing : List String),
    o.isTidy = true → (∀ d ∈ o.declarationsIn path enclosing, d.entry.isTidy = true) ∧
      o.groupsIn path enclosing = []
  | node e cs, path, enclosing, h => by
    obtain ⟨he, hdecl, hcs⟩ := isTidy_node.1 h
    rw [declarationsIn, groupsIn]
    cases hk : e.kind with
    | scope s =>
      obtain ⟨hall, hnone⟩ := isTidy_declarationsOf cs (e.kind.within path)
        (e.kind.within path :: enclosing) hcs
      rw [hk] at hall hnone
      exact ⟨List.forall_mem_cons.2 ⟨he, hall⟩, hnone⟩
    | leaf l =>
      obtain ⟨hall, hnone⟩ := isTidy_declarationsOf cs path enclosing hcs
      exact ⟨List.forall_mem_cons.2 ⟨he, hall⟩, hnone⟩
    | group | conflict _ | scopeConflict _ => simp [hk, Kind.isScope, Kind.isContainer] at hdecl
theorem isTidy_declarationsOf : ∀ (os : List Outline) (path : String) (enclosing : List String),
    areTidy os = true → (∀ d ∈ declarationsOf path enclosing os, d.entry.isTidy = true) ∧
      groupsOf path enclosing os = []
  | [], _, _, _ => by simp [declarationsOf, groupsOf]
  | o :: os, path, enclosing, h => by
    obtain ⟨ho, hos⟩ := areTidy_cons.1 h
    obtain ⟨hall, hnone⟩ := isTidy_declarationsIn o path enclosing ho
    obtain ⟨halls, hnones⟩ := isTidy_declarationsOf os path enclosing hos
    rw [declarationsOf, groupsOf, hnone, hnones]
    exact ⟨List.forall_mem_append.2 ⟨hall, halls⟩, rfl⟩
end

/-- A file is tidy if what it declares is, and its comments are lines above something. -/
structure IsTidyFile (o : Outline) : Prop where
  tidy : areTidy o.children = true
  conflictFree : o.isConflictFree = true
  comments : o.entry.comments.all isCommentLine = true
  body : o.entry.comments ≠ [] → o.children ≠ []

theorem isTidyFile {o : Outline} (h : o.isPrintableFile = true) (hdots : o.runsTogether = false)
    (hlines : o.isMovable = true) : o.IsTidyFile := by
  obtain ⟨e, cs⟩ := o
  simp only [isPrintableFile, Bool.and_eq_true, beq_iff_eq, Bool.or_eq_true, List.isEmpty_iff,
    Bool.not_eq_true', List.isEmpty_eq_false_iff] at h
  obtain ⟨⟨⟨hk, hcomments⟩, hbody⟩, hcs⟩ := h
  simp only [runsTogether, Bool.or_eq_false_iff] at hdots
  simp only [isMovable, Bool.and_eq_true] at hlines
  obtain ⟨htidy, hfree⟩ := areTidy_of_arePrintable cs hcs hdots.2 hlines.2
  refine ⟨htidy, isConflictFree_node.2 ⟨by rw [hk]; rfl, fun hleaf => ?_, hfree⟩, hcomments,
    fun hne => hbody.resolve_left hne⟩
  rw [hk] at hleaf
  cases hleaf

end Outline

/-! ## Tidy merges -/

namespace Merger

theorem children_under_ne_nil {s : Tree} {K : Frames} :
    (s.under K).children ≠ [] ↔ K ≠ [] ∨ s.children ≠ [] := by
  induction K generalizing s with
  | nil => simp [Tree.under]
  | cons k K ih =>
    rw [Tree.under, ih]
    simp [Frame.fill]

section

variable {m m' : Merger} {t t' : Tree} {scopes : List NodeId} {keys : List String} {d : Entry}
  {i : NodeId}

theorem Sets.tidy {labels : Labels} (hl : labels.areSingleLine = true) {n : NodeId} {p : Place}
    {c : Tree} (h : Sets labels n p c t t') (ht : t.Tidy) (hc : c.Tidy) (hk : c.kind ≠ .group) :
    t'.Tidy := by
  cases h with
  | join _ he _ _ => exact ht.under (ht.of_under.append hc hk) fun h => h
  | wrap _ _ hs _ _ => exact ht.under (.opposed hl ht.of_under hc hs hk) fun _ h => by cases h

theorem Sets.children_ne_nil {labels : Labels} {n : NodeId} {p : Place} {c : Tree}
    (h : Sets labels n p c t t') : t'.children ≠ [] := by
  cases h with
  | join => exact children_under_ne_nil.2 (.inr (by simp))
  | wrap => exact children_under_ne_nil.2 (.inr (by simp [Tree.opposed]))

/-- Adding a tidy leaf keeps a tree tidy. -/
theorem AddsLeaf.tidy (h : AddsLeaf m scopes keys d t m' t') (ht : t.Tidy)
    (hl : m.labels.areSingleLine = true) (hd : d.isTidy = true) (hk : d.kind ≠ .group) :
    t'.Tidy := by
  cases h with
  | new _ _ _ _ => exact ht.under (ht.of_under.append (.bare hd) hk) fun h => h
  | @fold K i e m' _ _ hagree _ =>
    refine ht.under (.bare (Entry.isTidy_fold ht.of_under.entry hd)) fun hne hgroup => hne ?_
    have hgrows := (Entry.growsTo_fold hagree).kind
    have hcont : e.kind.isContainer = true := by
      rw [← hgrows.isContainer_eq, show (e.fold d).kind = .group from hgroup]
      rfl
    exact (hgrows.eq_of_container hcont).symm.trans hgroup
  | oppose _ _ _ _ _ hsets => exact hsets.tidy hl ht (.bare hd) hk

theorem OpensScope.tidy (h : OpensScope m scopes keys d t m' t' i) (ht : t.Tidy)
    (hl : m.labels.areSingleLine = true) (hd : d.isTidy = true) (hk : d.kind ≠ .group) :
    t'.Tidy := by
  have hcomments : ∀ {e : Entry} {cs : List Tree}, (Tree.node i e cs).Tidy →
      (Tree.node i (e.addComments d.comments) cs).Tidy := by
    intro e cs hs
    exact .node (Entry.isTidy_addComments hs.entry (Entry.isTidy_iff.1 hd).1)
      (fun c hc => hs.of_mem hc) fun hconf c hc => hs.ne_group hconf hc
  cases h with
  | new _ _ _ _ => exact ht.under (ht.of_under.append (.bare hd) hk) fun h => h
  | oppose _ _ _ _ _ hsets => exact hsets.tidy hl ht (.bare hd) hk
  | fold | foldOther => exact ht.under (hcomments ht.of_under) fun h => h
  | third => exact ht
  | second => exact ht.under (.opposedHeaders hl ht.of_under hd) fun _ h => by cases h

/-- Something is below the root once a declaration was visited. -/
theorem AddsLeaf.children_ne_nil (h : AddsLeaf m scopes keys d t m' t') (hm : m.Stands t)
    (hd : d.kind.isContainer = false) : t'.children ≠ [] := by
  cases h with
  | new => exact children_under_ne_nil.2 (.inr (by simp))
  | @fold K i e m' _ _ hagree _ =>
    refine children_under_ne_nil.2 (.inl ?_)
    rintro rfl
    have hgroup : e.kind = .group := hm.group
    obtain ⟨l, hl⟩ := Kind.exists_leaf hd
    simp [hgroup, hl, Kind.agrees] at hagree
  | oppose _ _ _ _ _ hsets => exact hsets.children_ne_nil

theorem OpensScope.children_ne_nil (h : OpensScope m scopes keys d t m' t' i) (hm : m.Stands t) :
    t'.children ≠ [] := by
  cases h with
  | new => exact children_under_ne_nil.2 (.inr (by simp))
  | oppose _ _ _ _ _ hsets => exact hsets.children_ne_nil
  | @fold K i e cs m' _ he _ _ =>
    refine children_under_ne_nil.2 (.inl ?_)
    rintro rfl
    have hgroup : e.kind = .group := hm.group
    rw [hgroup] at he
    cases he
  | foldOther | third => exact children_under_ne_nil.2 (.inl (by simp))
  | second => exact children_under_ne_nil.2 (.inr (by simp [Tree.opposedHeaders]))

end

/-- What a pass over a tidy outline keeps: the tree is tidy; it is not empty once there was
something in the first outline (`full`) or a declaration was visited; and the root has no comments
if none came with the outlines (`bare`). -/
structure Presentable (labels : Labels) (full bare : Prop) (m : Merger) (t : Tree)
    (visited : List Visit) : Prop where
  labels_eq : m.labels = labels
  tidy : t.Tidy
  children : full ∨ visited ≠ [] → t.children ≠ []
  comments : bare → t.entry.comments = []

theorem follows_presentable {labels : Labels} (hl : labels.areSingleLine = true) {full bare : Prop}
    {base : String} {all groups : List Declaration} (hall : ∀ d ∈ all, d.entry.isTidy = true)
    (hgroups : ∀ g ∈ groups, g.entry.comments.all isCommentLine = true)
    (hbare : bare → all = [] ∧ ∀ g ∈ groups, g.entry.comments = []) :
    Follows base all groups fun m t _ visited => Presentable labels full bare m t visited where
  close h := h
  comments := by
    intro m i e cs K stack visited g hg _ _ _ h
    have hs := h.tidy.of_under
    refine ⟨h.labels_eq, h.tidy.under (s := .node i e cs) ?_ fun hk => hk, fun hfull => ?_,
      fun hb => ?_⟩
    · exact .node (Entry.isTidy_addComments hs.entry (hgroups g hg)) (fun c hc => hs.of_mem hc)
        fun hconf c hc => hs.ne_group hconf hc
    · have hne := children_under_ne_nil.1 (h.children hfull)
      exact children_under_ne_nil.2 hne
    · rw [(hbare hb).2 g hg, show e.addComments [] = e from rfl]
      exact h.comments hb
  leaf := by
    intro m t m' t' e stack visited later hmem he hm _ h _ hlabels hcase
    have hd : e.isTidy = true := hall (Visit.declaration base ⟨m, stack, e⟩) (by simp [hmem])
    refine ⟨hlabels.trans h.labels_eq, hcase.tidy h.tidy (h.labels_eq ▸ hl) hd ?_,
      fun _ => hcase.children_ne_nil hm he, fun hb => by simp [(hbare hb).1] at hmem⟩
    intro hk
    rw [hk] at he
    cases he
  scope := by
    intro m t m' t' i e stack visited later hmem he hm _ h _ hlabels hcase
    have hd : e.isTidy = true := hall (Visit.declaration base ⟨m, stack, e⟩) (by simp [hmem])
    refine ⟨hlabels.trans h.labels_eq, hcase.tidy h.tidy (h.labels_eq ▸ hl) hd ?_,
      fun _ => hcase.children_ne_nil hm, fun hb => by simp [(hbare hb).1] at hmem⟩
    intro hk
    rw [hk] at he
    cases he

/-- The copy that the first pass makes of a tidy file. -/
theorem tidy_firstTree {s : Source} (h : s.root.IsTidyFile) : (firstTree s).Tidy := by
  have hbelow := Outline.tidy_numberAll s.root.children 1 h.tidy
  refine .node ?_ (fun c hc => (hbelow c hc).1) fun _ c hc => (hbelow c hc).2
  exact Entry.isTidy_addComments (e := {}) rfl h.comments

/-- Tidy declarations are there to be visited. -/
theorem declarations_ne_nil {s : Source} (h : s.root.IsTidyFile) (hne : s.root.children ≠ []) :
    s.declarations ≠ [] := by
  rw [Source.declarations]
  have htidy := h.tidy
  cases hcs : s.root.children with
  | nil => exact absurd hcs hne
  | cons c cs =>
    obtain ⟨e, ds⟩ := c
    rw [hcs] at htidy
    obtain ⟨-, hdecl, -⟩ := Outline.isTidy_node.1 (Outline.areTidy_cons.1 htidy).1
    rw [Outline.declarationsOf, Outline.declarationsIn]
    cases hk : e.kind with
    | scope s => simp
    | leaf l => simp
    | group | conflict _ | scopeConflict _ => simp [hk, Kind.isScope, Kind.isContainer] at hdecl

theorem children_ne_nil_of_absorbsAll {t t' : Tree} (h : t.AbsorbsAll t')
    (hne : t.children ≠ []) : t'.children ≠ [] := by
  induction h with
  | refl => exact hne
  | tail _ hstep ih =>
    cases hstep
    exact children_under_ne_nil.2 (.inr (by simp))

/-- A merge of tidy files ends in a tidy tree, with comments of its own only above something. -/
theorem merge_tidy {labels : Labels} (hlabels : labels.areSingleLine = true) {left right : Source}
    (hl : left.root.IsTidyFile) (hr : right.root.IsTidyFile) :
    ∃ (m : Merger) (t : Tree) (g : Forest) (t' : Tree),
      StubMerge.merge labels left right = .ok ⟨g, m.conflicts.toList⟩ ∧ m.Stands t ∧
      g.Shows [t'] ∧ t'.id = Forest.root ∧ t.AbsorbsAll t' ∧ t'.Tidy ∧
      (t'.entry.comments ≠ [] → t'.children ≠ []) := by
  have hdecl := Outline.isTidy_declarationsOf right.root.children right.path [] hr.tidy
  have hgroups : right.groups = [⟨right.root.entry, right.path, []⟩] := by
    rw [Source.groups, hdecl.2]
  -- Comments of a file stand above something, so without declarations there are none.
  have hquiet : ∀ {o : Outline}, o.IsTidyFile → o.children = [] → o.entry.comments = [] := by
    intro o ho hcs
    by_contra hne
    exact ho.body hne hcs
  have hfollows : Follows right.path right.declarations right.groups fun m t _ visited =>
      Presentable labels (left.root.children ≠ [])
        (left.root.children = [] ∧ right.root.children = []) m t visited := by
    apply follows_presentable hlabels hdecl.1
    · rw [hgroups]
      simpa using hr.comments
    · rintro ⟨-, hcs⟩
      refine ⟨by rw [hcs]; rfl, ?_⟩
      rw [hgroups]
      simpa using hquiet hr hcs
  obtain ⟨m₁, m, t, g, t', -, -, hm, -, hvisits, hi, hmerge, hshows, htop, hall⟩ :=
    hfollows.merge labels hl.conflictFree hr.conflictFree fun m _ hlab _ => by
      refine ⟨hlab, tidy_firstTree hl, ?_, ?_⟩
      · rintro (hne | hne)
        · cases hcs : left.root.children with
          | nil => exact absurd hcs hne
          | cons c cs => simp [firstTree, hcs, Outline.numberAll]
        · exact absurd rfl hne
      · rintro ⟨hcs, -⟩
        simp [firstTree, hquiet hl hcs, Entry.addComments, List.appendNew]
  refine ⟨m, t, g, t', hmerge, hm, hshows, htop, hall, hi.tidy.absorbsAll hall, fun hne => ?_⟩
  have hsettles : Tree.SettlesAs .left t t' := Tree.AbsorbsAll.settlesAs hall hm.shaped.paired
  rw [(Prod.mk.inj hsettles.header).2] at hne
  apply children_ne_nil_of_absorbsAll hall
  apply hi.children
  by_cases hcs : left.root.children = []
  · right
    intro hnone
    rw [hnone, List.map_nil] at hvisits
    by_cases hcs' : right.root.children = []
    · exact hne (hi.comments ⟨hcs, hcs'⟩)
    · exact declarations_ne_nil hr hcs' hvisits.symm
  · exact .inl hcs

end Merger

end StubMerge
