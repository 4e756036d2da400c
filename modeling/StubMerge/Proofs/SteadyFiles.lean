import StubMerge.Proofs.Steady

/-!
# Steady files can be printed

A file is read statement by statement. `Draft.Sound` says of a draft that all it holds is printable
if it is steady, and one statement keeps it so (`Draft.Sound.step`). So a steady file that was read
without a problem is printable (`isPrintable_of_read`).

The header of a scope is the one thing that cannot be answered for when it is read: a superclass at
the very end of the text need not be captured again. But then the scope is never closed, and that is
a problem.
-/

namespace StubMerge

/-! ## Outlines -/

/-- An outline that is printable if it is steady. -/
def Outline.Sound (o : Outline) : Prop :=
  o.isSteady = true → o.isPrintable = true ∧ o.runsTogether = false

namespace Outline

theorem sound_all {os : List Outline} (h : ∀ o ∈ os, o.Sound) (hsteady : areSteady os = true) :
    arePrintable os = true ∧ anyRunsTogether os = false := by
  induction os with
  | nil => exact ⟨rfl, rfl⟩
  | cons o os ih =>
    simp only [areSteady, Bool.and_eq_true] at hsteady
    obtain ⟨ho, hos⟩ := List.forall_mem_cons.1 h
    obtain ⟨hprintable, hdots⟩ := ho hsteady.1
    obtain ⟨hprintable', hdots'⟩ := ih hos hsteady.2
    exact ⟨by simp [arePrintable, hprintable, hprintable'],
      by simp [anyRunsTogether, hdots, hdots']⟩

theorem sound_leaf {e : Entry} {l : Leaf} (hkind : e.kind = .leaf l)
    (hcomments : ∀ text ∈ e.comments, isCommentLine text = true) (hl : l.Sound) :
    (node e []).Sound := by
  intro hsteady
  simp only [isSteady, areSteady, hkind, Bool.true_and] at hsteady
  obtain ⟨hprintable, hdots⟩ := hl hsteady
  refine ⟨?_, by simp [runsTogether, anyRunsTogether, hkind, hdots]⟩
  simpa [isPrintable, arePrintable, hkind, hprintable] using hcomments

theorem sound_scope {e : Entry} {s : Scope} {cs : List Outline} (hkind : e.kind = .scope s)
    (hcomments : ∀ text ∈ e.comments, isCommentLine text = true) (hs : s.Sound)
    (hcs : ∀ o ∈ cs, o.Sound) : (node e cs).Sound := by
  intro hsteady
  simp only [isSteady, hkind, Bool.and_eq_true] at hsteady
  obtain ⟨hprintable, hdots⟩ := sound_all hcs hsteady.1
  refine ⟨?_, by simp [runsTogether, hkind, hdots]⟩
  simpa [isPrintable, hkind, hprintable, hs _ hsteady.2] using hcomments

theorem Sound.addComment {o : Outline} (h : o.Sound) {text : String}
    (htext : isCommentLine text = true) : (o.addComments [text]).Sound := by
  obtain ⟨e, cs⟩ := o
  intro hsteady
  obtain ⟨hprintable, hdots⟩ := h hsteady
  refine ⟨?_, hdots⟩
  simp only [isPrintable, Bool.and_eq_true] at hprintable
  simp [addComments, isPrintable, hprintable, htext]

end Outline

/-! ## Cursors -/

namespace Cursor

variable {c : Cursor}

theorem InText.isCommentLine_commentText (h : c.InText) (hk : c.kind = .comment) :
    isCommentLine c.commentText = true := by
  obtain ⟨previous, ys, hcut, hkind⟩ := h.peek (by simp [hk])
  exact hcut.isCommentLine (hkind.trans hk)

theorem walk_trailingComment (o : Outline) : c.Walk (c.trailingComment o).2 := by
  unfold trailingComment
  split
  · exact c.walk_advance
  · exact .refl

theorem InText.sound_trailingComment (h : c.InText) {o : Outline} (ho : o.Sound) :
    (c.trailingComment o).1.Sound := by
  unfold trailingComment
  split
  · next hk => exact ho.addComment (h.isCommentLine_commentText (eq_of_beq hk))
  · exact ho

theorem walk_closeScope (opening : Opening) (level : Level) (c : Cursor) :
    c.Walk (c.closeScope opening level).2 :=
  (c.walk_reportIf _ _ (by simp)).trans ((walk_expect _ _ _ (by simp)).trans
    (walk_trailingComment _))

/-- A scope that was closed without a problem was closed by its word. -/
theorem kind_of_closeScope {opening : Opening} {level : Level}
    (h : (c.closeScope opening level).2.IsClean) : c.kind = .endWord := by
  have hexpect := kind_of_expect ((walk_trailingComment _).clean h)
  rw [← hexpect, endBody, reportIf]
  split <;> rfl

end Cursor

/-! ## Drafts -/

/-- What was read of a body is fit for printing. -/
structure Level.Sound (level : Level) : Prop where
  body : level.body.Sound
  members : ∀ o ∈ level.members.toList, o.Sound

/-- What was read of a file is fit for printing, the headers of open scopes where there is more to
be read. -/
structure Draft.Sound (d : Draft) (more : Prop) : Prop where
  root : d.root.Sound
  inner : ∀ x ∈ d.inner, x.2.Sound
  openings : ∀ x ∈ d.inner, (∀ text ∈ x.1.comments, isCommentLine text = true) ∧
    (more → x.1.scope.Sound)
  comments : ∀ text ∈ d.comments, isCommentLine text = true

namespace Draft

namespace Sound

variable {d : Draft} {more : Prop}

theorem mono {more' : Prop} (h : d.Sound more) (hmore : more' → more) : d.Sound more' :=
  ⟨h.root, h.inner, fun x hx => ⟨(h.openings x hx).1, fun hm => (h.openings x hx).2 (hmore hm)⟩,
    h.comments⟩

theorem current (h : d.Sound more) : d.current.Sound := by
  unfold Draft.current
  split
  · exact h.root
  · next hinner => exact h.inner _ (by rw [hinner]; exact List.mem_cons_self)

theorem setCurrent (h : d.Sound more) {level : Level} (hlevel : level.Sound) :
    (d.setCurrent level).Sound more := by
  unfold Draft.setCurrent
  split
  · exact ⟨hlevel, h.inner, h.openings, h.comments⟩
  · next opening level' outer hinner =>
    have hinner' := h.inner
    have hopenings := h.openings
    rw [hinner, List.forall_mem_cons] at hinner' hopenings
    exact ⟨h.root, List.forall_mem_cons.2 ⟨hlevel, hinner'.2⟩, List.forall_mem_cons.2 hopenings,
      h.comments⟩

theorem setBody (h : d.Sound more) {body : Body} (hbody : body.Sound) :
    (d.setBody body).Sound more :=
  h.setCurrent ⟨hbody, h.current.members⟩

theorem add (h : d.Sound more) {o : Outline} (ho : o.Sound) : (d.add o).Sound more := by
  refine h.setCurrent ⟨h.current.body, fun x hx => ?_⟩
  rw [Array.toList_push, List.mem_append, List.mem_singleton] at hx
  rcases hx with hx | rfl
  · exact h.current.members x hx
  · exact ho

theorem setBreak (h : d.Sound more) (afterBreak : Bool) :
    ({ d with afterBreak } : Draft).Sound more :=
  ⟨h.root, h.inner, h.openings, h.comments⟩

/-- Comments become those of the file, or stay where they are. -/
theorem lineBreak (h : d.Sound more) : d.lineBreak.Sound more := by
  unfold Draft.lineBreak
  split
  · refine ⟨⟨⟨by simp, h.root.body.signatures⟩, h.root.members⟩, h.inner, h.openings, ?_⟩
    intro text htext
    rcases List.mem_append.1 htext with htext | htext
    · exact h.comments text htext
    · exact h.root.body.comments text htext
  · exact h.setBreak true

theorem comment (h : d.Sound more) {text : String} (htext : isCommentLine text = true) :
    (d.comment text).Sound more := by
  refine h.setBody ⟨fun other hother => ?_, h.current.body.signatures⟩
  rcases List.mem_append.1 hother with hother | hother
  · exact h.current.body.comments other hother
  · rwa [List.mem_singleton.1 hother]

theorem push (h : d.Sound more) {opening : Opening}
    (hcomments : ∀ text ∈ opening.comments, isCommentLine text = true)
    (hscope : more → opening.scope.Sound) : (d.push opening).Sound more := by
  have hempty : ({} : Level).Sound := ⟨⟨by simp, by simp⟩, by simp⟩
  exact ⟨h.root, List.forall_mem_cons.2 ⟨hempty, h.inner⟩,
    List.forall_mem_cons.2 ⟨⟨hcomments, hscope⟩, h.openings⟩, h.comments⟩

end Sound

/-- A scope that is closed. -/
theorem Sound.closeScope {d : Draft} {c : Cursor} {opening : Opening} {level : Level}
    {outer : List (Opening × Level)} (h : d.Sound (c.rest ≠ [])) (hin : c.InText)
    (hk : c.kind = .endWord) (hinner : d.inner = (opening, level) :: outer) :
    (({ d with inner := outer, afterBreak := false } : Draft).add
      (c.closeScope opening level).1).Sound (c.rest ≠ []) := by
  have hlevels := h.inner
  have hopenings := h.openings
  rw [hinner, List.forall_mem_cons] at hlevels hopenings
  have houter : ({ d with inner := outer, afterBreak := false } : Draft).Sound (c.rest ≠ []) :=
    ⟨h.root, hlevels.2, hopenings.2, h.comments⟩
  refine houter.add (Cursor.InText.sound_trailingComment ?_ (Outline.sound_scope rfl
    hopenings.1.1 (hopenings.1.2 (Cursor.rest_ne_nil (hk.trans_ne (by decide)))) hlevels.1.members))
  exact hin.walk ((c.walk_reportIf _ _ (by simp)).trans
    (Cursor.walk_expect _ _ _ (by simp)))

theorem walk_step {d d' : Draft} {c c' : Cursor} (hd : d.step c = .ok (d', c')) :
    c.Walk c' := by
  have hstatement := c.walk_statement d.current.body
  cases steps_of_step hd with
  | lineBreak => exact c.walk_advance
  | semicolon => exact c.walk_advance
  | comment => exact c.walk_advance
  | strayEnd => exact (c.walk_report _ (by simp)).trans (Cursor.walk_advance _)
  | close => exact Cursor.walk_closeScope _ _ c
  | nothing hs => exact hs ▸ hstatement
  | declares hs => exact (hs ▸ hstatement).trans (Cursor.walk_trailingComment _)
  | opens hs => exact hs ▸ hstatement

/-- **One statement** leaves a draft that is fit for printing. -/
theorem Sound.step {d d' : Draft} {c c' : Cursor} (h : d.Sound (c.rest ≠ [])) (hin : c.InText)
    (hd : d.step c = .ok (d', c')) (hclean : c'.IsClean) : d'.Sound (c'.rest ≠ []) := by
  have hmore : c'.rest ≠ [] → c.rest ≠ [] := (walk_step hd).rest_ne_nil
  have hsound := hin.sound_statement h.current.body
  cases steps_of_step hd with
  | lineBreak => exact h.lineBreak.mono hmore
  | semicolon => exact (h.setBreak false).mono hmore
  | comment hk => exact ((h.comment (hin.isCommentLine_commentText hk)).setBreak false).mono hmore
  | strayEnd => exact (h.setBreak false).mono hmore
  | close hk hinner => exact (h.closeScope hin hk hinner).mono hmore
  | nothing hs ho =>
    subst hs
    exact ((h.setBody (hsound hclean).body).setBreak false).mono hmore
  | @declares s e hs ho =>
    subst hs
    have hstatement := hin.walk (c.walk_statement d.current.body)
    obtain ⟨hbody, houtcome⟩ := hsound ((Cursor.walk_trailingComment _).clean hclean)
    rw [ho, Outcome.Sound] at houtcome
    have hnode : (Outline.node e []).Sound := by
      obtain ⟨hcomments, hkind⟩ := houtcome
      split at hkind
      · next l hl => exact Outline.sound_leaf hl hcomments hkind
      · next s hs => exact Outline.sound_scope hs hcomments hkind (by simp)
      · cases hkind
    exact (((h.setBody hbody).setBreak false).add (hstatement.sound_trailingComment hnode)).mono
      hmore
  | opens hs ho =>
    subst hs
    obtain ⟨hbody, houtcome⟩ := hsound hclean
    rw [ho, Outcome.Sound] at houtcome
    exact (((h.setBody hbody).setBreak false).mono hmore).push houtcome.1 houtcome.2

/-! ## Files -/

theorem walk_closeAll (d : Draft) (c : Cursor) : c.Walk (d.closeAll c).2 := by
  fun_induction Draft.closeAll d c with
  | case1 d c => exact .refl
  | case2 d c opening level outer _ closed ih =>
    exact (Cursor.walk_closeScope opening level c).trans ih

/-- At the end of the file no scope can be closed without a problem. -/
theorem inner_eq_nil_of_closeAll {d : Draft} {c : Cursor} (hk : c.kind = .eof)
    (hclean : (d.closeAll c).2.IsClean) : d.inner = [] := by
  rw [Draft.closeAll] at hclean
  split at hclean
  · assumption
  · have hend := Cursor.kind_of_closeScope ((walk_closeAll _ _).clean hclean)
    rw [hk] at hend
    cases hend

theorem isClean_of_finish {d : Draft} {c : Cursor} (h : (d.finish c).diagnostics = []) :
    (d.closeAll c).2.IsClean := by
  have hlast : ((d.closeAll c).2.endBody (d.closeAll c).1.root.body).IsClean :=
    Cursor.isClean_of_reportIf (Array.toList_eq_nil_iff.1 h)
  exact Cursor.isClean_of_reportIf hlast

theorem isClean_of_run {d : Draft} {c : Cursor} {r : Reading} (hr : d.run c = .ok r)
    (hclean : r.diagnostics = []) : c.IsClean := by
  fun_induction Draft.run d c with
  | case1 d c =>
    obtain rfl := Except.ok.inj hr
    exact (walk_closeAll d c).clean (isClean_of_finish hclean)
  | case2 => cases hr
  | case3 d c _ d' c' hstep ih => exact (walk_step hstep).clean (ih hr)

/-- A steady file that is read without a problem is printable. -/
theorem Sound.run {d : Draft} {c : Cursor} {r : Reading} (h : d.Sound (c.rest ≠ []))
    (hin : c.InText) (hr : d.run c = .ok r) (hclean : r.diagnostics = [])
    (hsteady : r.root.isSteadyFile = true) :
    r.root.isPrintableFile = true ∧ r.root.runsTogether = false := by
  fun_induction Draft.run d c with
  | case1 d c hk =>
    obtain rfl := Except.ok.inj hr
    have hinner := inner_eq_nil_of_closeAll hk (isClean_of_finish hclean)
    have hall : d.closeAll c = (d, c) := by
      rw [Draft.closeAll]
      split
      · rfl
      · next heq => rw [hinner] at heq; cases heq
    simp only [Draft.finish, hall, Outline.isSteadyFile, Bool.and_eq_true] at hsteady ⊢
    obtain ⟨hprintable, hdots⟩ := Outline.sound_all h.root.members hsteady.2
    refine ⟨?_, by simp [Outline.runsTogether, hdots]⟩
    simp only [Outline.isPrintableFile, hsteady.1, hprintable, Bool.and_true, Bool.and_eq_true,
      List.all_eq_true]
    exact ⟨rfl, h.comments⟩
  | case2 => cases hr
  | case3 d c _ d' c' hstep ih =>
    have hnext := h.step hin hstep (isClean_of_run hr hclean)
    exact ih hnext (hin.walk (walk_step hstep)) hr

end Draft

/-- A steady file that is read from a text without a problem is printable. -/
theorem isPrintable_of_read {text : String} {file : Option String} {reading : Reading}
    (hread : read text file = .ok reading) (hclean : reading.diagnostics = [])
    (hsteady : reading.root.isSteadyFile = true) :
    reading.root.isPrintableFile = true ∧ reading.root.runsTogether = false := by
  have hempty : ({} : Level).Sound := ⟨⟨by simp, by simp⟩, by simp⟩
  have hstart (more : Prop) : ({} : Draft).Sound more := ⟨hempty, by simp, by simp, by simp⟩
  exact (hstart _).run (Cursor.inText_ofText text file) hread hclean hsteady

end StubMerge
