import StubMerge.Proofs.Rereading
import StubMerge.Proofs.SteadyFiles

/-!
# Formatting

To format a text is to read it and to print what was read.

**Theorem (`format_twice`).** If a text is read without a problem, and as a steady file, then what
it is formatted to is read without a problem as well, and formatted to itself.

A steady file is printable, because it was read from a text, and a printable file is read again as
it was, apart from the places of its declarations; printing does not look at those. Without
steadiness formatting can lose something the second time: the comment of a file that declares
nothing is printed once, and gone when the result is formatted again. Steadiness is a sufficient
condition only, and there are files that are not steady and formatted to themselves.
-/

namespace StubMerge

/-! ## Printing does not look at places -/

namespace Outline

theorem isShort_unplaced (o : Outline) : Print.isShort {} o.unplaced = Print.isShort {} o := by
  obtain ⟨e, cs⟩ := o
  have hempty : (allUnplaced cs).isEmpty = cs.isEmpty := by cases cs <;> rfl
  simp only [unplaced, Print.isShort, hempty, Bool.false_and]

theorem sideHeader_unplaced (n : Nat) (o : Option Outline) :
    Print.sideHeader {} n (o.map unplaced) = Print.sideHeader {} n o := by
  cases o with
  | none => rfl
  | some o =>
    obtain ⟨e, cs⟩ := o
    simp only [Option.map_some, unplaced, Print.sideHeader, preamble_default]

theorem getElem?_allUnplaced (os : List Outline) (i : Nat) :
    (allUnplaced os)[i]? = os[i]?.map unplaced := by
  rw [allUnplaced_eq_map, List.getElem?_map]

mutual
theorem lines_unplaced (n : Nat) : ∀ o : Outline,
    Print.lines {} n o.unplaced = Print.lines {} n o
  | .node e cs => by
    have hbody := fun m => body_unplaced m none cs
    have hfirst := fun m => firstBody_unplaced m cs
    have hsecond := secondBody_unplaced n cs
    have hempty : (allUnplaced cs).isEmpty = cs.isEmpty := by cases cs <;> rfl
    cases hk : e.kind <;>
      simp only [unplaced, Print.lines, hk, preamble_default, hempty, hbody, hfirst, hsecond,
        getElem?_allUnplaced, sideHeader_unplaced]
theorem body_unplaced (n : Nat) (previous : Option Bool) : ∀ os : List Outline,
    Print.body {} n previous (allUnplaced os) = Print.body {} n previous os
  | [] => rfl
  | o :: os => by
    simp only [allUnplaced, Print.body, isShort_unplaced, lines_unplaced n o,
      body_unplaced n (some (Print.isShort {} o)) os]
theorem firstBody_unplaced (n : Nat) : ∀ os : List Outline,
    Print.firstBody {} n (allUnplaced os) = Print.firstBody {} n os
  | [] => rfl
  | .node e cs :: _ => by
    simp only [allUnplaced, unplaced, Print.firstBody, body_unplaced n none cs]
theorem secondBody_unplaced (n : Nat) : ∀ os : List Outline,
    Print.secondBody {} n (allUnplaced os) = Print.secondBody {} n os
  | [] => rfl
  | _ :: os => by
    simp only [allUnplaced, Print.secondBody, firstBody_unplaced n os]
end

/-- The text of a file does not say where its declarations stood. -/
theorem print_unplaced (o : Outline) : o.unplaced.print {} = o.print {} := by
  obtain ⟨e, cs⟩ := o
  have hempty : (allUnplaced cs).isEmpty = cs.isEmpty := by cases cs <;> rfl
  simp only [print, unplaced, Print.fileLines, hempty, body_unplaced]

end Outline

/-! ## Formatting twice -/

/-- The text of a printable file is read without a report, and as a file with the same text. -/
theorem print_of_isPrintableFile {root : Outline} (h : root.isPrintableFile = true)
    (hdots : root.runsTogether = false) (file : Option String) :
    ∃ again, read (root.print {}) file = .ok again ∧ again.diagnostics = [] ∧
      again.root.print {} = root.print {} := by
  obtain ⟨⟨kind, comments, location⟩, cs⟩ := root
  simp only [Outline.isPrintableFile, Bool.and_eq_true, Bool.or_eq_true, beq_iff_eq,
    List.isEmpty_iff, Bool.not_eq_true', List.isEmpty_eq_false_iff] at h
  simp only [Outline.runsTogether, Bool.or_eq_false_iff] at hdots
  obtain ⟨⟨⟨rfl, hcomments⟩, hbelow⟩, hcs⟩ := h
  obtain ⟨again, hread, hroot, hdiagnostics⟩ :=
    read_of_readAs hcomments (readAs_body cs hcs hdots.2 0 none) file
  refine ⟨again, ?_, hdiagnostics, ?_⟩
  · rw [Outline.print, fileLines_eq hbelow.resolve_left]
    exact hread
  · rw [← Outline.print_unplaced, hroot]
    exact Outline.print_unplaced (.node { kind := .group, comments, location } cs)

/-- What a text is formatted to, and what is reported about it. -/
def formatted (text : String) : Option (String × List Diagnostic) :=
  (read text none).toOption.map fun reading => (reading.root.print {}, reading.diagnostics)

/-- Formatting a text that was formatted changes nothing. That the file is steady is sufficient for
this, and not necessary. -/
theorem format_twice {text : String} {file : Option String} {reading : Reading}
    (hread : read text file = .ok reading) (hclean : reading.diagnostics = [])
    (hsteady : reading.root.isSteadyFile = true) :
    ∃ again, read (reading.root.print {}) none = .ok again ∧ again.diagnostics = [] ∧
      again.root.print {} = reading.root.print {} := by
  obtain ⟨hprintable, hdots⟩ := isPrintable_of_read hread hclean hsteady
  exact print_of_isPrintableFile hprintable hdots none

/-- A text that has little of the layout that is printed. -/
def roadText : String :=
  "# typed: true\n\n\nclass Road<Way\n sig\x7bparams(to:T.any(A,\n B)).void\x7d\n"
    ++ "private def   cross(by=:foot ,to: ) end # careful\n extend(T::Sig)\nend\n"

/-- The text is read without a problem, and as a steady file. -/
theorem exists_reading_of_roadText : ∃ reading, read roadText none = .ok reading ∧
    reading.diagnostics = [] ∧ reading.root.isSteadyFile = true := by
  have hread : (read roadText none).toOption.any (fun reading =>
      reading.diagnostics.isEmpty && reading.root.isSteadyFile) = true := by decide +kernel
  cases hr : read roadText none with
  | error e => simp [hr, Except.toOption] at hread
  | ok reading =>
    refine ⟨reading, rfl, ?_⟩
    simpa [hr, Except.toOption] using hread

theorem format_twice_of_roadText :
    ∃ reading, (read roadText none = .ok reading ∧ reading.diagnostics = [] ∧
      reading.root.isSteadyFile = true) ∧
      ∃ again, read (reading.root.print {}) none = .ok again ∧ again.diagnostics = [] ∧
        again.root.print {} = reading.root.print {} := by
  obtain ⟨reading, hread, hclean, hsteady⟩ := exists_reading_of_roadText
  exact ⟨reading, ⟨hread, hclean, hsteady⟩, format_twice hread hclean hsteady⟩

-- Names that are not plain make a file unsteady, but they are read again as they were printed.
example : formatted "attr_reader :foo?\n" = some ("attr_reader :foo?\n", []) := by decide +kernel

/-- The comment of a file that declares nothing is lost when the file is formatted again. -/
theorem formatted_lone_comment :
    formatted "# a\n\n" = some ("# a\n", []) ∧ formatted "# a\n" = some ("", []) := by
  decide +kernel

end StubMerge
