import StubMerge.Declaration.Print
import StubMerge.Proofs.Drafts
import StubMerge.Proofs.Extension
import StubMerge.Proofs.SelfMerge

/-!
# Merging with nothing

A merge copies the first outline as it is, its root apart: the comments of a file are put into the
root one by one, and one that is there already is left out (`Outline.copied`). So a file merged with
an empty one is printed as it was exactly if no two of its own comments are the same
(`print_merge_empty`).
-/

namespace List

variable {α : Type} [BEq α] [LawfulBEq α]

/-- What is new to one another and to a list is put behind it as it is. -/
theorem appendNew_eq_append (xs ys : List α) (h : (xs ++ ys).Nodup) :
    xs.appendNew ys = xs ++ ys := by
  induction ys generalizing xs with
  | nil => simp
  | cons y ys ih =>
    have hy : y ∉ xs := by
      intro hy
      exact (List.nodup_append.1 h).2.2 y hy y (by simp) rfl
    have happend : xs ++ y :: ys = (xs ++ [y]) ++ ys := by simp
    rw [appendNew_cons, if_neg (by simpa using hy), happend]
    exact ih _ (happend ▸ h)

omit [LawfulBEq α] in
theorem appendNew_sublist (xs ys : List α) : xs.appendNew ys <+ xs ++ ys := by
  induction ys generalizing xs with
  | nil => simp
  | cons y ys ih =>
    rw [appendNew_cons]
    split
    · exact (ih xs).trans ((List.sublist_cons_self y ys).append_left xs)
    · have happend : xs ++ y :: ys = (xs ++ [y]) ++ ys := by simp
      rw [happend]
      exact ih (xs ++ [y])

theorem nodup_appendNew {xs : List α} (h : xs.Nodup) (ys : List α) : (xs.appendNew ys).Nodup := by
  induction ys generalizing xs with
  | nil => exact h
  | cons y ys ih =>
    rw [appendNew_cons]
    split
    · exact ih h
    · rename_i hy
      refine ih (List.nodup_append.2 ⟨h, by simp, ?_⟩)
      intro a ha b hb hab
      obtain rfl := List.mem_singleton.1 hb
      exact hy (by simpa [← hab] using ha)

end List

namespace StubMerge

/-! ## The size of a text -/

/-- Of two lists of lines, one of which is part of the other, the larger takes more room. -/
theorem sum_add_length_le {α : Type} {xs ys : List α} (h : xs.Sublist ys) (room : α → Nat)
    (hroom : ∀ x, 1 ≤ room x) :
    (xs.map room).sum + ys.length ≤ (ys.map room).sum + xs.length := by
  induction h with
  | slnil => simp
  | @cons xs ys y _ ih =>
    have hy := hroom y
    simp only [List.map_cons, List.sum_cons, List.length_cons]
    omega
  | @cons_cons xs ys y _ ih =>
    simp only [List.map_cons, List.sum_cons, List.length_cons]
    omega

namespace Print

/-- The number of characters of a file, line by line. -/
theorem length_print (options : PrintOptions) (o : Outline) :
    (o.print options).length = ((fileLines options o).map fun l => l.length + 1).sum := by
  unfold Outline.print
  rw [String.length_join, List.map_map]
  refine congrArg (fun f => ((fileLines options o).map f).sum) ?_
  funext l
  exact String.length_append l "\n"

/-- Leaving out comments of a file makes it shorter. -/
theorem length_print_lt (options : PrintOptions) (e : Entry) (cs : List Outline)
    {comments : List String} (hsub : comments.Sublist e.comments)
    (hempty : comments.isEmpty = e.comments.isEmpty) (hne : comments ≠ e.comments) :
    ((Outline.node { comments } cs).print options).length <
      ((Outline.node e cs).print options).length := by
  have hlt : comments.length < e.comments.length := by
    refine Nat.lt_of_le_of_ne hsub.length_le ?_
    intro heq
    exact hne (hsub.eq_of_length heq)
  have hroom := sum_add_length_le hsub (fun c => (comment 0 c).length + 1) (by simp)
  simp only [length_print, fileLines, hempty, List.map_append, List.sum_append, List.map_map]
  have hcomp : (fun l : String => l.length + 1) ∘ comment 0 = fun c => (comment 0 c).length + 1 := rfl
  rw [hcomp]
  omega

end Print

/-- A copy of a file is printed as the file exactly if none of its comments was left out. -/
theorem Outline.print_copied_iff (options : PrintOptions) (o : Outline) :
    o.copied.print options = o.print options ↔ o.entry.comments.Nodup := by
  obtain ⟨e, cs⟩ := o
  have hcopied : (Outline.node e cs).copied = .node { comments := [].appendNew e.comments } cs := rfl
  rw [hcopied]
  constructor
  · intro heq
    by_contra hdup
    have hsub : ([].appendNew e.comments).Sublist e.comments := List.appendNew_sublist [] e.comments
    have hempty : ([].appendNew e.comments).isEmpty = e.comments.isEmpty := by
      have hmem : ∀ c, c ∈ [].appendNew e.comments ↔ c ∈ e.comments := by simp [List.mem_appendNew]
      rw [Bool.eq_iff_iff, List.isEmpty_iff, List.isEmpty_iff, List.eq_nil_iff_forall_not_mem,
        List.eq_nil_iff_forall_not_mem]
      simp only [hmem]
    have hne : [].appendNew e.comments ≠ e.comments := by
      intro hsame
      exact hdup (hsame ▸ List.nodup_appendNew List.nodup_nil e.comments)
    have hlt := Print.length_print_lt options e cs hsub hempty hne
    rw [heq] at hlt
    exact Nat.lt_irrefl _ hlt
  · intro hnodup
    have hsame : [].appendNew e.comments = e.comments :=
      List.appendNew_eq_append [] _ hnodup
    rw [hsame]
    rfl

/-! ## The merge -/

/-- Merged with nothing, an outline is copied. -/
theorem merge_empty (labels : Labels) {o : Outline} (ho : o.isConflictFree = true) :
    ∃ res, merge labels { root := o } { root := .node {} [] } = .ok res ∧ res.conflicts = [] ∧
      res.forest.outline Forest.root = o.copied := by
  have hfree : ({ root := o } : Source).root.isConflictFree = true := ho
  obtain ⟨m, hadd, hm, -, hstarted, hconflicts⟩ := Merger.add_first labels hfree
  -- The second pass puts no comments into the root and visits nothing.
  let m₂ : Merger := { m with output := m.output.unionComments Forest.root [], started := true }
  have hadd₂ : m.add { root := .node {} [] } = .ok m₂ := by
    rw [Merger.add, if_pos hstarted]
    rfl
  have hm₂ : m₂.Stands (Merger.firstTree { root := o }) := by
    obtain ⟨hstands, -⟩ := Merger.Stands.unionComments (K := []) hm []
    exact ⟨hstands.shows, hstands.top, hstands.group, hstands.shaped, hstands.index⟩
  obtain ⟨g, t', hfinish, -, hshows, htop, hall⟩ := hm₂.finish
  obtain rfl := hall.eq_of_quiet fun p hp => (Merger.quiet_firstTree hfree p hp).kind
  refine ⟨_, (bind_of_ok hadd _).trans ((bind_of_ok hadd₂ _).trans hfinish), ?_, ?_⟩
  · show m.conflicts.toList = []
    rw [hconflicts]
  · show g.outline (Merger.firstTree { root := o }).id = _
    rw [← Merger.outline_firstTree]
    exact Forest.Shows.outline_eq (K := []) hshows

/-- **A file merged with nothing.** Whatever can be read can be merged with an empty outline. There
are no conflicts, and all but the root is as it was. So it is printed as before, in every way of
printing, exactly if no comment of the file stands there twice. -/
theorem print_merge_empty (labels : Labels) {text : String} {file : Option String} {r : Reading}
    (hr : read text file = .ok r) :
    ∃ res, merge labels { root := r.root } { root := .node {} [] } = .ok res ∧
      res.conflicts = [] ∧ res.forest.outline Forest.root = r.root.copied ∧
      ∀ options, (res.forest.outline Forest.root).print options = r.root.print options ↔
        r.root.entry.comments.Nodup := by
  obtain ⟨res, hmerge, hconflicts, houtline⟩ := merge_empty labels (read_isConflictFree hr)
  refine ⟨res, hmerge, hconflicts, houtline, ?_⟩
  intro options
  rw [houtline]
  exact Outline.print_copied_iff options r.root

/-- A file with two comments of its own. -/
theorem print_merge_empty_of_notes :
    ∃ r res, read "# Cars.\n# Trucks.\n\n# A car.\nclass Car\n  def wash; end\nend\n" none = .ok r ∧
      merge ⟨"left", "right"⟩ { root := r.root } { root := .node {} [] } = .ok res ∧
      res.conflicts = [] ∧ (res.forest.outline Forest.root).print {} = r.root.print {} := by
  have hcheck : (match read "# Cars.\n# Trucks.\n\n# A car.\nclass Car\n  def wash; end\nend\n" none
    with
    | .ok r => decide r.root.entry.comments.Nodup
    | .error _ => false) = true := by decide +kernel
  split at hcheck
  · rename_i r hr
    obtain ⟨res, hmerge, hconflicts, -, hprint⟩ := print_merge_empty ⟨"left", "right"⟩ hr
    exact ⟨r, res, hr, hmerge, hconflicts, (hprint {}).2 (of_decide_eq_true hcheck)⟩
  · cases hcheck

/-- How a file is printed, and how it is after a merge with nothing. -/
def printedWithNothing (text : String) : Option (String × String) := do
  let r ← (read text none).toOption
  let res ← (merge ⟨"left", "right"⟩ { root := r.root } { root := .node {} [] }).toOption
  return (r.root.print {}, (res.forest.outline Forest.root).print {})

/-- A comment of the file that stands there twice is printed once after the merge. -/
theorem printedWithNothing_of_twice :
    printedWithNothing "# a\n# a\n\nclass A; end\n" =
      some ("# a\n# a\n\nclass A; end\n", "# a\n\nclass A; end\n") := by
  decide +kernel

end StubMerge
