import StubMerge.Proofs.Standing
import StubMerge.Reading.File

/-!
# What reading gives

A statement declares a leaf or a scope, never a conflict, and only scopes get a body. So whatever a
text looks like, the outline that is read from it has no conflicts and can be merged
(`read_isConflictFree`).
-/

namespace StubMerge

/-- Whether what a statement declares is no conflict. -/
def Outcome.isQuiet : Outcome → Bool
  | .declares e => !e.kind.isConflict
  | _ => true

namespace Statement

theorem isQuiet_afterVisibility {s : Statement} (h : s.outcome.isQuiet = true) :
    s.afterVisibility.outcome.isQuiet = true := by
  unfold afterVisibility
  split
  · rfl
  · exact h

end Statement

namespace Cursor

variable (b : Body) (c : Cursor)

theorem isQuiet_method (start : Position) (visibility : Visibility) :
    (c.method start visibility b).outcome.isQuiet = true := by
  dsimp only [method]
  split <;> rfl

theorem isQuiet_attributes (kind : AttributeKind) (start : Position) (visibility : Visibility) :
    (c.attributes kind start visibility b).outcome.isQuiet = true := by
  dsimp only [attributes]
  split <;> rfl

/-- No statement declares a conflict. -/
theorem isQuiet_statement : (c.statement b).outcome.isQuiet = true :=
  Forms.statement (P := fun s => s.outcome.isQuiet = true)
    { moduleHeader := by dsimp only [moduleHeader]; split <;> rfl
      classHeader := by dsimp only [classHeader]; split <;> rfl
      singletonHeader := by dsimp only [singletonHeader]; split <;> rfl
      constant _ _ := by
        dsimp only [constant, structHeader]
        repeat' split
        all_goals rfl
      method := isQuiet_method b c _ _
      attributes _ := isQuiet_attributes b c _ _ _
      visibility _ := rfl
      visibleMethod _ _ _ _ := Statement.isQuiet_afterVisibility (isQuiet_method b c.advance _ _)
      visibleAttributes _ _ _ _ _ _ :=
        Statement.isQuiet_afterVisibility (isQuiet_attributes b c.advance _ _ _)
      signatureLine := rfl
      mixins _ := by dsimp only [mixins]; split <;> rfl
      requiredAncestor := by dsimp only [requiredAncestor]; split <;> rfl
      structField _ _ := by dsimp only [structField]; split <;> rfl
      enumBlock := rfl
      helperCall _ _ := rfl
      call _ := rfl
      noDeclaration := rfl }

end Cursor

namespace Outline

theorem areConflictFree_iff {os : List Outline} :
    areConflictFree os = true ↔ ∀ o ∈ os, o.isConflictFree = true := by
  induction os with
  | nil => simp [areConflictFree]
  | cons o os ih => rw [areConflictFree_cons, ih, List.forall_mem_cons]

theorem isConflictFree_addComments {o : Outline} (h : o.isConflictFree = true)
    (comments : List String) : (o.addComments comments).isConflictFree = true := by
  obtain ⟨e, cs⟩ := o
  exact h

end Outline

namespace Draft

/-- All that was read so far is without conflicts. -/
structure Quiet (d : Draft) : Prop where
  root : ∀ o ∈ d.root.members.toList, o.isConflictFree = true
  inner : ∀ x ∈ d.inner, ∀ o ∈ x.2.members.toList, o.isConflictFree = true

namespace Quiet

variable {d : Draft}

theorem current (h : d.Quiet) : ∀ o ∈ d.current.members.toList, o.isConflictFree = true := by
  unfold Draft.current
  split
  · exact h.root
  · next hinner => exact h.inner _ (by rw [hinner]; exact List.mem_cons_self)

theorem setCurrent (h : d.Quiet) {level : Level}
    (hlevel : ∀ o ∈ level.members.toList, o.isConflictFree = true) : (d.setCurrent level).Quiet := by
  unfold Draft.setCurrent
  split
  · exact ⟨hlevel, h.inner⟩
  · next hinner =>
    refine ⟨h.root, fun x hx => ?_⟩
    rcases List.mem_cons.1 hx with rfl | hx
    · exact hlevel
    · exact h.inner x (by rw [hinner]; exact List.mem_cons_of_mem _ hx)

theorem setBody (h : d.Quiet) (body : Body) : (d.setBody body).Quiet := h.setCurrent h.current

theorem add (h : d.Quiet) {o : Outline} (ho : o.isConflictFree = true) : (d.add o).Quiet := by
  refine h.setCurrent fun x hx => ?_
  rw [Array.toList_push, List.mem_append, List.mem_singleton] at hx
  rcases hx with hx | rfl
  · exact h.current x hx
  · exact ho

theorem lineBreak (h : d.Quiet) : d.lineBreak.Quiet := by
  unfold Draft.lineBreak
  split <;> exact ⟨h.root, h.inner⟩

theorem comment (h : d.Quiet) (text : String) : (d.comment text).Quiet := h.setBody _

theorem setBreak (h : d.Quiet) (afterBreak : Bool) : ({ d with afterBreak } : Draft).Quiet :=
  ⟨h.root, h.inner⟩

theorem push (h : d.Quiet) (opening : Opening) : (d.push opening).Quiet := by
  refine ⟨h.root, fun x hx => ?_⟩
  rcases List.mem_cons.1 hx with rfl | hx
  · simp
  · exact h.inner x hx

/-- The scopes around the innermost one. -/
theorem outer {opening : Opening} {level : Level} {outer : List (Opening × Level)} (h : d.Quiet)
    (hinner : d.inner = (opening, level) :: outer) :
    ({ d with inner := outer } : Draft).Quiet ∧
      ∀ o ∈ level.members.toList, o.isConflictFree = true :=
  ⟨⟨h.root, fun x hx => h.inner x (by rw [hinner]; exact List.mem_cons_of_mem _ hx)⟩,
    h.inner _ (by rw [hinner]; exact List.mem_cons_self)⟩

end Quiet

theorem isConflictFree_trailingComment {o : Outline} (h : o.isConflictFree = true) (c : Cursor) :
    (c.trailingComment o).1.isConflictFree = true := by
  unfold Cursor.trailingComment
  split
  · exact Outline.isConflictFree_addComments h _
  · exact h

theorem isConflictFree_closeScope (opening : Opening) {level : Level}
    (h : ∀ o ∈ level.members.toList, o.isConflictFree = true) (c : Cursor) :
    (c.closeScope opening level).1.isConflictFree = true :=
  isConflictFree_trailingComment
    (Outline.isConflictFree_node.2
      ⟨rfl, (fun hk => by cases hk), Outline.areConflictFree_iff.2 h⟩) _

/-- One statement adds nothing but what is without conflicts. -/
theorem Quiet.step {d d' : Draft} {c c' : Cursor} (h : d.Quiet) (hd : d.step c = .ok (d', c')) :
    d'.Quiet := by
  cases steps_of_step hd with
  | lineBreak => exact h.lineBreak
  | semicolon => exact h.setBreak false
  | comment => exact (h.comment _).setBreak false
  | strayEnd => exact h.setBreak false
  | close _ hinner =>
    obtain ⟨houter, hlevel⟩ := h.outer hinner
    exact (houter.setBreak false).add (isConflictFree_closeScope _ hlevel _)
  | nothing => exact (h.setBody _).setBreak false
  | declares hs ho =>
    have hquiet := Cursor.isQuiet_statement d.current.body c
    rw [hs, ho, Outcome.isQuiet, Bool.not_eq_true'] at hquiet
    exact ((h.setBody _).setBreak false).add (isConflictFree_trailingComment
      (Outline.isConflictFree_node.2 ⟨hquiet, fun _ => rfl, rfl⟩) _)
  | opens => exact ((h.setBody _).setBreak false).push _

theorem Quiet.closeAll {d : Draft} {c : Cursor} (h : d.Quiet) : (d.closeAll c).1.Quiet := by
  fun_induction Draft.closeAll d c with
  | case1 => exact h
  | case2 d c opening level outer hinner closed ih =>
    obtain ⟨houter, hlevel⟩ := h.outer hinner
    exact ih (houter.add (isConflictFree_closeScope _ hlevel _))

theorem Quiet.run {d : Draft} {c : Cursor} {r : Reading} (h : d.Quiet) (hr : d.run c = .ok r) :
    r.root.isConflictFree = true := by
  fun_induction Draft.run d c with
  | case1 d c =>
    obtain rfl := Except.ok.inj hr
    exact Outline.isConflictFree_node.2
      ⟨rfl, (fun hk => by cases hk), Outline.areConflictFree_iff.2 h.closeAll.root⟩
  | case2 => cases hr
  | case3 d c _ d' c' hstep ih => exact ih (h.step hstep) hr

end Draft

/-- What is read from a text has no conflicts. -/
theorem read_isConflictFree {text : String} {file : Option String} {r : Reading}
    (h : read text file = .ok r) : r.root.isConflictFree = true :=
  Draft.Quiet.run (d := {}) ⟨by simp, by simp⟩ h

end StubMerge
