import StubMerge.Proofs.Edits
import StubMerge.Reading.File

/-!
# Declaring node by node

A draft holds what was read as nested lists. The same declarations can be put into a forest while
the text is read: each becomes a node behind the children of the innermost open scope, by
`Forest.push`, which refuses what would make no forest. An `Act` is what one statement does to the
declarations, and a `Plot` is the forest with the scopes that are open in it.

**Theorem (`Draft.Path.follows`).** Along every path of the reader, no node is refused, and the
forest shows what the draft holds and nothing else.

A draft is seen as *pages*, the innermost scope first, each with the members it has so far. The
invariant `Plot.Follows` is that the forest is one tree whose last branch carries the pages: there
is a frame for each, and nothing stands behind the child that leads to the next. So a new node goes
behind the children of the first frame, a scope that is opened puts a frame before it, and one that
is closed becomes the last child in the frame behind its own.
-/

namespace StubMerge

/-- What a statement does to the declarations of a file. -/
inductive Act where
  | keep
  /-- The comments read so far are those of the file. -/
  | head (comments : List String)
  | declare (entry : Entry)
  /-- A scope is declared, and its body follows. -/
  | enter (entry : Entry)
  /-- The innermost scope ends, so all that it carries is known. -/
  | leave (entry : Entry)
deriving DecidableEq, Repr

/-- What a scope carries when it is opened. -/
def Opening.entry (o : Opening) : Entry := { kind := .scope o.scope, comments := o.comments }

namespace Draft

/-- What the statement at a cursor does. -/
def act (d : Draft) (c : Cursor) : Act :=
  match c.kind with
  | .newline =>
    if d.afterBreak && d.inner.isEmpty && d.root.members.isEmpty then
      .head (d.comments ++ d.root.body.comments)
    else .keep
  | .semicolon | .comment => .keep
  | .endWord =>
    match d.inner with
    | [] => .keep
    | (opening, level) :: _ => .leave (c.closeScope opening level).1.entry
  | _ =>
    let s := c.statement d.current.body
    match s.outcome with
    | .nothing | .broken => .keep
    | .declares entry => .declare (s.cursor.trailingComment (.node entry [])).1.entry
    | .opens opening => .enter opening.entry

/-- The reader goes on: by a statement or, at the end of the file, by ending an open scope. -/
inductive Move : Draft × Cursor → Act → Draft × Cursor → Prop where
  | statement {d d' : Draft} {c c' : Cursor} (hc : c.kind ≠ .eof) (h : d.step c = .ok (d', c')) :
    Move (d, c) (d.act c) (d', c')
  | close {d : Draft} {c : Cursor} {opening : Opening} {level : Level}
    {outer : List (Opening × Level)} (hc : c.kind = .eof)
    (h : d.inner = (opening, level) :: outer) :
    Move (d, c) (.leave (c.closeScope opening level).1.entry)
      (({ d with inner := outer } : Draft).add (c.closeScope opening level).1,
        (c.closeScope opening level).2)

/-- The reader goes on, move after move. -/
inductive Path : Draft × Cursor → List Act → Draft × Cursor → Prop where
  | refl (s : Draft × Cursor) : Path s [] s
  | cons {s s' s'' : Draft × Cursor} {a : Act} {acts : List Act} (h : Move s a s')
    (rest : Path s' acts s'') : Path s (a :: acts) s''

end Draft

/-! ## Pages -/

/-- An open scope, or the file: what it carries and the members that it has so far. -/
structure Page where
  entry : Entry
  members : List Outline

/-- The page with a member more. -/
def Page.add (page : Page) (o : Outline) : Page := { page with members := page.members ++ [o] }

/-- How an act changes the pages. -/
inductive Act.Turns : Act → List Page → List Page → Prop where
  | keep (pages : List Page) : Turns .keep pages pages
  | head (page : Page) (comments : List String) :
    Turns (.head comments) [page] [{ page with entry := { page.entry with comments } }]
  | declare (entry : Entry) (page : Page) (outer : List Page) :
    Turns (.declare entry) (page :: outer) (page.add (.node entry []) :: outer)
  | enter {entry : Entry} (h : entry.kind.isContainer = true) (pages : List Page) :
    Turns (.enter entry) pages (⟨entry, []⟩ :: pages)
  | leave (entry : Entry) (inner page : Page) (outer : List Page) :
    Turns (.leave entry) (inner :: page :: outer) (page.add (.node entry inner.members) :: outer)

/-- An act opens at most one page. -/
theorem Act.Turns.length_le {a : Act} {pages pages' : List Page} (h : a.Turns pages pages') :
    pages'.length ≤ pages.length + 1 := by
  cases h <;> simp

/-- A comment behind a declaration changes what it carries. -/
theorem Cursor.trailingComment_node (e : Entry) (os : List Outline) (c : Cursor) :
    (c.trailingComment (.node e os)).1 = .node (c.trailingComment (.node e os)).1.entry os := by
  unfold trailingComment
  split <;> rfl

namespace Draft

/-- The pages of a draft, the innermost first and that of the file last. -/
def pages (d : Draft) : List Page :=
  d.inner.map (fun x => ⟨x.1.entry, x.2.members.toList⟩) ++
    [⟨{ comments := d.comments }, d.root.members.toList⟩]

theorem pages_setBody (body : Body) (d : Draft) : (d.setBody body).pages = d.pages := by
  unfold setBody setCurrent current pages
  cases d.inner <;> rfl

theorem exists_pages_eq_cons (d : Draft) : ∃ page outer, d.pages = page :: outer ∧
    ∀ o, (d.add o).pages = page.add o :: outer := by
  unfold add setCurrent current pages
  cases hinner : d.inner with
  | nil => exact ⟨_, _, rfl, fun o => by simp [Page.add]⟩
  | cons x inner => exact ⟨_, _, rfl, fun o => by simp [Page.add]⟩

theorem turns_declare (d : Draft) (entry : Entry) :
    Act.Turns (.declare entry) d.pages (d.add (.node entry [])).pages := by
  obtain ⟨page, outer, hpages, hadd⟩ := d.exists_pages_eq_cons
  rw [hpages, hadd]
  exact .declare ..

theorem turns_lineBreak {d : Draft} {c : Cursor} (hk : c.kind = .newline) :
    Act.Turns (d.act c) d.pages d.lineBreak.pages := by
  simp only [act, hk, lineBreak]
  split
  · next h =>
    have hinner : d.inner = [] := by simp_all
    simp only [pages, hinner]
    exact .head _ _
  · exact .keep _

/-- A scope that ends becomes a member of the page around it. -/
theorem turns_closeScope {d : Draft} {opening : Opening} {level : Level}
    {outer : List (Opening × Level)} (h : d.inner = (opening, level) :: outer) (c : Cursor)
    (afterBreak : Bool) :
    Act.Turns (.leave (c.closeScope opening level).1.entry) d.pages
      (({ d with inner := outer, afterBreak } : Draft).add
        (c.closeScope opening level).1).pages := by
  obtain ⟨page, rest, hpages, hadd⟩ :=
    ({ d with inner := outer, afterBreak } : Draft).exists_pages_eq_cons
  have hd : d.pages = ⟨opening.entry, level.members.toList⟩ :: page :: rest := by
    rw [← hpages]
    simp [pages, h]
  have hclosed : (c.closeScope opening level).1 =
      .node (c.closeScope opening level).1.entry level.members.toList :=
    Cursor.trailingComment_node _ _ _
  rw [hd, hadd, hclosed]
  exact .leave ..

theorem turns_step {d d' : Draft} {c c' : Cursor} (h : d.step c = .ok (d', c')) :
    (d.act c).Turns d.pages d'.pages := by
  unfold step at h
  split at h
  · next hk =>
    obtain ⟨rfl, -⟩ := Prod.mk.inj (Except.ok.inj h)
    exact turns_lineBreak hk
  · next hk =>
    obtain ⟨rfl, -⟩ := Prod.mk.inj (Except.ok.inj h)
    rw [act, hk]
    exact .keep _
  · next hk =>
    obtain ⟨rfl, -⟩ := Prod.mk.inj (Except.ok.inj h)
    have hpages : ({ d.comment c.commentText with afterBreak := false } : Draft).pages = d.pages :=
      d.pages_setBody _
    rw [act, hk, hpages]
    exact .keep _
  · next hk =>
    split at h
    · next hinner =>
      obtain ⟨rfl, -⟩ := Prod.mk.inj (Except.ok.inj h)
      have hact : d.act c = .keep := by simp only [act, hk, hinner]
      rw [hact]
      exact .keep _
    · next hinner =>
      obtain ⟨rfl, -⟩ := Prod.mk.inj (Except.ok.inj h)
      simp only [act, hk, hinner]
      exact turns_closeScope hinner c false
  · have hbody (body : Body) :
        ({ d.setBody body with afterBreak := false } : Draft).pages = d.pages :=
      d.pages_setBody body
    dsimp only at h
    simp only [act]
    split at h
    · next hnothing =>
      obtain ⟨rfl, -⟩ := Prod.mk.inj (Except.ok.inj h)
      rw [hnothing, hbody]
      exact .keep _
    · next entry hdeclares =>
      obtain ⟨rfl, -⟩ := Prod.mk.inj (Except.ok.inj h)
      rw [hdeclares, Cursor.trailingComment_node, ← hbody]
      exact turns_declare _ _
    · next opening hopens =>
      obtain ⟨rfl, -⟩ := Prod.mk.inj (Except.ok.inj h)
      rw [hopens, ← hbody]
      exact .enter rfl _
    · cases h

/-- **One move** changes the pages as its act says. -/
theorem Move.turns {s s' : Draft × Cursor} {a : Act} (h : Move s a s') :
    a.Turns s.1.pages s'.1.pages := by
  cases h with
  | close hc h => exact turns_closeScope h _ _
  | statement hc h => exact turns_step h

end Draft

/-! ## Plots -/

/-- A forest of declarations, with the scopes that are open in it, the innermost first. -/
structure Plot where
  forest : Forest := .empty
  scopes : List NodeId := []

namespace Plot

/-- The innermost open scope; the root if there is none. -/
def scope (p : Plot) : NodeId := p.scopes.headD Forest.root

/-- Makes a node behind the children of the innermost scope, if it can stand there. -/
def push (p : Plot) (entry : Entry) : Except EditError (Forest × NodeId) :=
  match p.forest.push p.scope entry with
  | (f, .ok id) => .ok (f, id)
  | (_, .error e) => .error e

/-- Does to the forest what an act does to the declarations. -/
def apply (p : Plot) : Act → Except EditError Plot
  | .keep => .ok p
  | .head comments => .ok { p with forest := p.forest.setComments Forest.root comments }
  | .declare entry => do
    let made ← p.push entry
    return { p with forest := made.1 }
  | .enter entry => do
    let made ← p.push entry
    return { forest := made.1, scopes := made.2 :: p.scopes }
  | .leave entry => .ok { forest := p.forest.setEntry p.scope entry, scopes := p.scopes.tail }

end Plot

/-- A frame carries what a page does, and the child that is missing in it is the last. -/
structure Frame.IsPage (k : Frame) (page : Page) : Prop where
  entry : k.entry = page.entry
  members : Tree.outlineAll k.before = page.members
  last : k.after = []
  container : k.entry.kind.isContainer = true

/-- The node of a frame, without the missing child. -/
def Frame.node (k : Frame) : Tree := .node k.id k.entry k.before

/-- The frame with a child more. -/
def Frame.add (k : Frame) (t : Tree) : Frame := { k with before := k.before ++ [t] }

namespace Frame

variable {k : Frame} {page : Page}

theorem IsPage.add (h : k.IsPage page) (t : Tree) : (k.add t).IsPage (page.add t.outline) :=
  ⟨h.entry, by simp [Frame.add, Page.add, Tree.outlineAll_eq_map, ← h.members], h.last, h.container⟩

theorem IsPage.fill_eq (h : k.IsPage page) (t : Tree) : k.fill t = (k.add t).node := by
  rw [Frame.fill, h.last]
  rfl

theorem mem_ids_add {K : Frames} {t : Tree} {i : NodeId} :
    i ∈ ((k.add t).node.under K).ids ↔ i ∈ (k.node.under K).ids ∨ i ∈ t.ids := by
  simp only [Tree.ids_under, Frame.node, Frame.add, Tree.ids, Tree.idsAll, Tree.idsAll_append]
  simp only [List.mem_append, List.mem_cons]
  tauto

end Frame

namespace Plot

/-- The forest is one tree that holds all its nodes, and its last branch carries the pages. -/
structure Follows (p : Plot) (k : Frame) (K : Frames) (pages : List Page) : Prop where
  shows : p.forest.Shows [k.node.under K]
  whole : ∀ i < p.forest.size, i ∈ (k.node.under K).ids
  isPage : List.Forall₂ Frame.IsPage (k :: K) pages
  scopes : (k :: K).map Frame.id = p.scopes ++ [Forest.root]

namespace Follows

variable {p : Plot} {k : Frame} {K : Frames} {page : Page} {outer pages : List Page}

theorem start : ({} : Plot).Follows ⟨Forest.root, {}, [], []⟩ [] ({} : Draft).pages where
  shows := Forest.shows_empty
  whole := by
    intro i hi
    obtain rfl : i = Forest.root := Nat.lt_one_iff.1 hi
    exact Tree.id_mem_ids _
  isPage := .cons ⟨rfl, rfl, rfl, rfl⟩ .nil
  scopes := rfl

theorem scope_eq (h : p.Follows k K pages) : p.scope = k.id := by
  have hscopes := h.scopes
  unfold scope
  cases hp : p.scopes with
  | nil =>
    rw [hp] at hscopes
    exact (List.cons.inj hscopes).1.symm
  | cons i is =>
    rw [hp] at hscopes
    exact (List.cons.inj hscopes).1.symm

/-- No node is refused: the innermost scope is a container, and the node is new. -/
theorem push (h : p.Follows k K (page :: outer)) (entry : Entry) :
    ∃ g : Forest, p.push entry = .ok (g, p.forest.size) ∧
      ({ p with forest := g } : Plot).Follows (k.add (.node p.forest.size entry [])) K
        (page.add (.node entry []) :: outer) := by
  obtain ⟨hk, hK⟩ := List.forall₂_cons.1 h.isPage
  obtain ⟨g, hg, hsize, hshows⟩ := (h.shows.alloc entry).attach hk.container
  have hattach : (p.forest.alloc entry).1.attach k.id (p.forest.alloc entry).2 = .ok g := hg
  have hpush : p.push entry = .ok (g, p.forest.size) := by
    simp only [Plot.push, Forest.push, h.scope_eq, hattach]
    rfl
  refine ⟨g, hpush, hshows, fun i hi => ?_, .cons (hk.add _) hK, h.scopes⟩
  rw [Frame.mem_ids_add]
  rw [hsize, Forest.size_alloc, Nat.lt_succ_iff_lt_or_eq] at hi
  rcases hi with hi | rfl
  · exact .inl (h.whole i hi)
  · exact .inr (Tree.id_mem_ids _)

theorem declare (h : p.Follows k K (page :: outer)) (entry : Entry) :
    ∃ p' k', p.apply (.declare entry) = .ok p' ∧
      p'.Follows k' K (page.add (.node entry []) :: outer) := by
  obtain ⟨g, hg, hfollows⟩ := h.push entry
  exact ⟨_, _, by rw [apply, hg]; rfl, hfollows⟩

theorem enter (h : p.Follows k K pages) {entry : Entry} (hentry : entry.kind.isContainer = true) :
    ∃ p' k', p.apply (.enter entry) = .ok p' ∧ p'.Follows k' (k :: K) (⟨entry, []⟩ :: pages) := by
  obtain ⟨page, outer, hk, hK, rfl⟩ := List.forall₂_cons_left_iff.1 h.isPage
  obtain ⟨g, hg, hfollows⟩ := h.push entry
  have hnode : (Tree.node p.forest.size entry []).under (k :: K) =
      (k.add (.node p.forest.size entry [])).node.under K := by rw [Tree.under_cons, hk.fill_eq]
  refine ⟨⟨g, p.forest.size :: p.scopes⟩, ⟨p.forest.size, entry, [], []⟩, by rw [apply, hg]; rfl,
    ?_, ?_, .cons ⟨rfl, rfl, rfl, hentry⟩ h.isPage, ?_⟩
  · rw [Frame.node, hnode]
    exact hfollows.shows
  · rw [Frame.node, hnode]
    exact hfollows.whole
  · rw [List.map_cons, h.scopes]
    rfl

/-- The innermost scope can be given another entry. -/
theorem setEntry (h : p.Follows k K pages) (entry : Entry) :
    (p.forest.setEntry k.id entry).Shows [({ k with entry } : Frame).node.under K] ∧
      ∀ i < (p.forest.setEntry k.id entry).size,
        i ∈ (({ k with entry } : Frame).node.under K).ids := by
  refine ⟨h.shows.setEntry entry, fun i hi => ?_⟩
  have hmem := h.whole i (by simpa [Forest.setEntry] using hi)
  simpa [Tree.ids_under, Frame.node, Tree.ids] using hmem

/-- The innermost scope becomes the last child of the one around it. -/
theorem leave {k' : Frame} {page' : Page} (h : p.Follows k (k' :: K) (page :: page' :: outer))
    (entry : Entry) : ∃ p' k₁, p.apply (.leave entry) = .ok p' ∧
      p'.Follows k₁ K (page'.add (.node entry page.members) :: outer) := by
  obtain ⟨hk, hrest⟩ := List.forall₂_cons.1 h.isPage
  obtain ⟨hk', hK⟩ := List.forall₂_cons.1 hrest
  obtain ⟨hshows, hwhole⟩ := h.setEntry entry
  rw [Tree.under_cons, hk'.fill_eq] at hshows hwhole
  have houtline : ({ k with entry } : Frame).node.outline = .node entry page.members := by
    rw [Frame.node, Tree.outline, hk.members]
  have hpage := hk'.add ({ k with entry } : Frame).node
  rw [houtline] at hpage
  have hscopes : (k' :: K).map Frame.id = p.scopes.tail ++ [Forest.root] := by
    have hids := h.scopes
    cases hp : p.scopes with
    | nil => simp [hp] at hids
    | cons i is =>
      rw [hp] at hids
      exact (List.cons.inj hids).2
  exact ⟨⟨p.forest.setEntry k.id entry, p.scopes.tail⟩, _, by rw [apply, h.scope_eq],
    hshows, hwhole, .cons hpage hK, hscopes⟩

theorem id_eq_root (h : p.Follows k [] pages) : k.id = Forest.root := by
  have hlast := congrArg List.getLast? h.scopes
  simpa using hlast

theorem head (h : p.Follows k K [page]) (comments : List String) :
    ∃ p' k', p.apply (.head comments) = .ok p' ∧
      p'.Follows k' K [{ page with entry := { page.entry with comments } }] := by
  obtain ⟨hk, hK⟩ := List.forall₂_cons.1 h.isPage
  obtain rfl : K = [] := List.forall₂_nil_right_iff.1 hK
  obtain ⟨hshows, hwhole⟩ := h.setEntry { k.entry with comments }
  have hroot := h.id_eq_root
  have hentry : p.forest.setComments Forest.root comments =
      p.forest.setEntry k.id { k.entry with comments } := by
    have he : p.forest.entry k.id = k.entry := h.shows.entry_eq
    rw [Forest.setComments, ← hroot, he]
  have hpage : ({ k with entry := { k.entry with comments } } : Frame).IsPage
      { page with entry := { page.entry with comments } } :=
    ⟨by rw [hk.entry], hk.members, hk.last, hk.container⟩
  exact ⟨{ p with forest := p.forest.setEntry k.id { k.entry with comments } }, _,
    by rw [apply, hentry], hshows, hwhole, .cons hpage .nil, h.scopes⟩

/-- **One act** succeeds, and the forest goes on showing the pages. -/
theorem apply {a : Act} {pages' : List Page} (h : p.Follows k K pages) (ha : a.Turns pages pages') :
    ∃ p' k' K', p.apply a = .ok p' ∧ p'.Follows k' K' pages' := by
  cases ha with
  | keep => exact ⟨p, k, K, rfl, h⟩
  | head page comments =>
    obtain ⟨p', k', happly, h'⟩ := h.head comments
    exact ⟨p', k', K, happly, h'⟩
  | declare entry page outer =>
    obtain ⟨p', k', happly, h'⟩ := h.declare entry
    exact ⟨p', k', K, happly, h'⟩
  | enter hentry =>
    obtain ⟨p', k', happly, h'⟩ := h.enter hentry
    exact ⟨p', k', k :: K, happly, h'⟩
  | leave entry inner page outer =>
    cases K with
    | nil => cases (List.forall₂_cons.1 h.isPage).2
    | cons k' K =>
      obtain ⟨p', k₁, happly, h'⟩ := h.leave entry
      exact ⟨p', k₁, K, happly, h'⟩

/-- When no scope is open any more, the forest shows the file, and the root reaches all of it. -/
theorem complete {d : Draft} (h : p.Follows k K d.pages) (hd : d.inner = []) :
    p.forest.outline Forest.root = .node { comments := d.comments } d.root.members.toList ∧
      ∀ i < p.forest.size, i = Forest.root ∨ i ∈ p.forest.descendants Forest.root := by
  have hpages : d.pages = [⟨{ comments := d.comments }, d.root.members.toList⟩] := by
    simp [Draft.pages, hd]
  rw [hpages] at h
  obtain ⟨hk, hK⟩ := List.forall₂_cons.1 h.isPage
  obtain rfl : K = [] := List.forall₂_nil_right_iff.1 hK
  have hroot := h.id_eq_root
  rw [← hroot]
  refine ⟨?_, fun i hi => ?_⟩
  · rw [show p.forest.outline k.id = k.node.outline from h.shows.outline_eq, Frame.node,
      Tree.outline, hk.entry, hk.members]
  · rw [show p.forest.descendants k.id = Tree.idsAll k.before from h.shows.descendants_eq]
    exact List.mem_cons.1 (h.whole i hi)

end Follows

end Plot

/-- **Along every path** of the reader, no node is refused, and the forest shows the draft. -/
theorem Draft.Path.follows {s s' : Draft × Cursor} {acts : List Act} (path : Draft.Path s acts s')
    {p : Plot} {k : Frame} {K : Frames} (h : p.Follows k K s.1.pages) :
    ∃ p' k' K', acts.foldlM Plot.apply p = .ok p' ∧ p'.Follows k' K' s'.1.pages := by
  induction path generalizing p k K with
  | refl s => exact ⟨p, k, K, rfl, h⟩
  | cons move _ ih =>
    obtain ⟨p₁, k₁, K₁, happly, h₁⟩ := h.apply move.turns
    obtain ⟨p', k', K', hfold, h'⟩ := ih h₁
    exact ⟨p', k', K', by rw [List.foldlM_cons, happly]; exact hfold, h'⟩

end StubMerge
