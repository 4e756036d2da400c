import StubMerge.Command.Disk
import StubMerge.Command.Run
import StubMerge.Proofs.Counting
import StubMerge.Proofs.Drafts

/-!
# Running a merge

A run of the command on a disk, step by step. Where its files can be read and its results can be
written (`Disk.Ready`), no step fails. It says what is wrong with each file, then one line for
each conflict, and its exit status tells whether conflicts were to count as a failure and there
are some that were not resolved.

The exit status is computed from the conflicts in the tree, and what is said from the records. That
one can be told from the other is what `Merger.Counted` is for.

Two results may be written. Writing the first one does not keep the second from being written,
since every directory above a place that a path leads to is there before
(`Disk.isDirectory_of_locate`).
-/

namespace StubMerge.Command

/-! ## Writing to a disk -/

namespace Place

theorem isBelow_iff {p q : Place} :
    p.isBelow q = true ↔ p.origin = q.origin ∧ q.names <+: p.names ∧ p.names ≠ q.names := by
  simp [isBelow, and_assoc]

/-- What is above a place in a directory is that directory or above it. -/
theorem eq_or_isBelow_of_child {p q : Place} {name : String}
    (h : (p.child name).isBelow q = true) : q = p ∨ p.isBelow q = true := by
  obtain ⟨o, ns⟩ := p
  obtain ⟨o', ns'⟩ := q
  obtain ⟨horigin, hle, hne⟩ := isBelow_iff.1 h
  obtain rfl : o = o' := horigin
  have hle : ns' <+: ns ++ [name] := hle
  by_cases heq : ns' = ns
  · exact .inl (by rw [heq])
  · refine .inr (isBelow_iff.2 ⟨rfl, ?_, Ne.symm heq⟩)
    rcases List.prefix_concat_iff.1 hle with hcase | hcase
    · exact absurd hcase.symm hne
    · exact hcase

/-- What is above a directory is above all that is in it. -/
theorem isBelow_of_parent {p q : Place} (h : p.parent.isBelow q = true) :
    p.isBelow q = true := by
  obtain ⟨o, ns⟩ := p
  obtain ⟨horigin, hle, hne⟩ := isBelow_iff.1 h
  by_cases hns : ns = []
  · -- Nothing is above the start of a path.
    subst hns
    cases o <;> exact absurd (List.prefix_nil.1 hle).symm hne
  · have hparent : Place.parent ⟨o, ns⟩ = ⟨o, ns.dropLast⟩ := by
      unfold parent
      split <;> simp_all
    rw [hparent] at horigin hle hne
    refine isBelow_iff.2 ⟨horigin, hle.trans (List.dropLast_prefix ns), ?_⟩
    intro heq
    have heq : ns = q.names := heq
    have hlength : ns.length ≤ ns.dropLast.length := by
      rw [heq] at hle ⊢
      exact hle.length_le
    rw [List.length_dropLast] at hlength
    have hpos := List.length_pos_of_ne_nil hns
    omega

end Place

namespace Disk

variable {d d' : Disk}

/-- Where directories stay, paths lead to the places they led to. -/
theorem locate_of_isDirectory
    (h : ∀ place, d.isDirectory place = true → d'.isDirectory place = true) {parts : List String}
    {place found : Place} (hfound : d.locate place parts = .ok found) :
    d'.locate place parts = .ok found := by
  induction parts generalizing place with
  | nil => exact hfound
  | cons part parts ih =>
    rw [locate] at hfound ⊢
    by_cases hdir : d.isDirectory place = true
    · simp only [hdir, h place hdir, Bool.not_true, Bool.false_eq_true, if_false] at hfound ⊢
      split at hfound
      · rw [if_pos ‹_›]
        exact ih hfound
      · rw [if_neg ‹_›]
        split at hfound
        · rw [if_pos ‹_›]
          exact ih hfound
        · rw [if_neg ‹_›]
          split at hfound
          · cases hfound
          · rw [if_neg ‹_›]
            exact ih hfound
    · simp [hdir] at hfound

theorem placeOf_of_isDirectory
    (h : ∀ place, d.isDirectory place = true → d'.isDirectory place = true) {path : String}
    {place : Place} (hplace : d.placeOf path = .ok place) : d'.placeOf path = .ok place := by
  unfold placeOf at hplace ⊢
  split_ifs at hplace ⊢
  exact locate_of_isDirectory h hplace

/-- What is above a place that parts lead to is a directory. -/
theorem isDirectory_of_locate {parts : List String} {place found q : Place}
    (hplace : ∀ q, place.isBelow q = true → d.isDirectory q = true)
    (hfound : d.locate place parts = .ok found) (hq : found.isBelow q = true) :
    d.isDirectory q = true := by
  induction parts generalizing place with
  | nil =>
    obtain rfl := Except.ok.inj hfound
    exact hplace q hq
  | cons part parts ih =>
    rw [locate] at hfound
    by_cases hdir : d.isDirectory place = true
    · simp only [hdir, Bool.not_true, Bool.false_eq_true, if_false] at hfound
      split_ifs at hfound
      · exact ih hplace hfound
      · exact ih (fun q hq => hplace q (Place.isBelow_of_parent hq)) hfound
      · refine ih (fun q hq => ?_) hfound
        rcases Place.eq_or_isBelow_of_child hq with rfl | hq
        · exact hdir
        · exact hplace q hq
    · simp [hdir] at hfound

theorem isDirectory_of_placeOf {path : String} {place q : Place}
    (hplace : d.placeOf path = .ok place) (hq : place.isBelow q = true) :
    d.isDirectory q = true := by
  unfold placeOf at hplace
  split_ifs at hplace
  refine isDirectory_of_locate (fun q hq => ?_) hplace hq
  obtain ⟨-, hle, hne⟩ := Place.isBelow_iff.1 hq
  have hstart : (startOf path).names = [] := by
    unfold startOf
    split <;> rfl
  rw [hstart] at hle hne
  exact absurd (List.prefix_nil.1 hle).symm hne

/-- Whether something can be written to a place. -/
def accepts (d : Disk) (place : Place) : Bool :=
  !d.isDirectory place &&
    match d.itemAt? place with
    | some .void | some .output | some .messages => true
    | _ => place.origin != .top

/-- Whether a file can be written. -/
def isWritable (d : Disk) (path : String) : Bool :=
  match d.placeOf path with
  | .ok place => d.accepts place
  | .error _ => false

theorem isWritable_iff {path : String} :
    d.isWritable path = true ↔ ∃ place, d.placeOf path = .ok place ∧ d.accepts place = true := by
  unfold isWritable
  cases d.placeOf path <;> simp

/-- Where directories and what accepts a text stay, files can still be written. -/
theorem isWritable_of (hdir : ∀ place, d.isDirectory place = true → d'.isDirectory place = true)
    (haccepts : ∀ place, d.accepts place = true → d'.accepts place = true) {path : String}
    (h : d.isWritable path = true) : d'.isWritable path = true := by
  obtain ⟨place, hplace, haccept⟩ := isWritable_iff.1 h
  exact isWritable_iff.2 ⟨place, placeOf_of_isDirectory hdir hplace, haccepts place haccept⟩

/-- The streams have nothing to do with it. -/
theorem isWritable_streams (output : String) (said : List String) {path : String}
    (h : d.isWritable path = true) : ({ d with output, said } : Disk).isWritable path = true := by
  refine isWritable_of (d := d) ?_ ?_ h
  · exact fun _ hdir => hdir
  · exact fun _ haccepts => haccepts

theorem isDirectory_put {place q : Place} {text : String} :
    (d.put place text).isDirectory q = true ↔
      d.isDirectory q = true ∨ place.isBelow q = true := by
  simp only [isDirectory, put, List.any_append, List.any_filter, Bool.or_eq_true, List.any_cons,
    List.any_nil, Bool.or_false, List.any_eq_true, Bool.and_eq_true, bne_iff_ne]
  constructor
  · rintro (hnil | ⟨item, hitem, -, hbelow⟩ | hbelow)
    · exact .inl (.inl hnil)
    · exact .inl (.inr ⟨item, hitem, hbelow⟩)
    · exact .inr hbelow
  · rintro ((hnil | ⟨item, hitem, hbelow⟩) | hbelow)
    · exact .inl hnil
    · by_cases heq : item.1 = place
      · exact .inr (.inr (heq ▸ hbelow))
      · exact .inr (.inl ⟨item, hitem, heq, hbelow⟩)
    · exact .inr (.inr hbelow)

theorem itemAt?_put {place q : Place} {text : String} :
    (d.put place text).itemAt? q = if q = place then some (.text text) else d.itemAt? q := by
  unfold itemAt? put
  rw [List.find?_append, List.find?_filter]
  by_cases heq : q = place
  · rw [if_pos heq, heq, List.find?_eq_none.2 (by simp)]
    simp
  · have hsame : (fun item : Place × Item => decide ((item.1 != place) = true ∧
        (item.1 == q) = true)) = fun item => item.1 == q := by
      funext item
      by_cases hq : item.1 = q
      · simp [hq, heq]
      · simp [hq]
    rw [hsame, if_neg heq]
    simp [Ne.symm heq]

/-- A text at a place that accepts one keeps no file from being written. -/
theorem isWritable_put {path path' text : String} {place : Place}
    (hplace : d.placeOf path = .ok place) (horigin : place.origin ≠ .top)
    (h : d.isWritable path' = true) : (d.put place text).isWritable path' = true := by
  refine isWritable_of (fun q hq => isDirectory_put.2 (.inl hq)) (fun q hq => ?_) h
  simp only [accepts, Bool.and_eq_true, Bool.not_eq_true'] at hq ⊢
  obtain ⟨hnot, hitem⟩ := hq
  constructor
  · -- A place above the new text would be a directory already.
    by_contra hnew
    rcases isDirectory_put.1 (by simpa using hnew) with hold | hbelow
    · exact absurd hold (by simp [hnot])
    · exact absurd (isDirectory_of_placeOf hplace hbelow) (by simp [hnot])
  · rw [itemAt?_put]
    by_cases heq : q = place
    · rw [if_pos heq, heq]
      simpa using horigin
    · rw [if_neg heq]
      exact hitem

/-- What can be written is written. Nothing is said, unless the file is the device for that, and
all that could be written before still can. -/
theorem exists_write {path : String} (h : d.isWritable path = true) (text : String) :
    ∃ d' lines, d.write path text = some d' ∧ d'.said = d.said ++ lines ∧
      (∀ line ∈ lines, line = text) ∧ ∀ path', d.isWritable path' = true →
        d'.isWritable path' = true := by
  obtain ⟨place, hplace, haccept⟩ := isWritable_iff.1 h
  simp only [accepts, Bool.and_eq_true, Bool.not_eq_true'] at haccept
  obtain ⟨hdir, hitem⟩ := haccept
  simp only [write, hplace, Except.toOption, Option.bind_eq_bind, Option.bind_some, hdir,
    Bool.false_eq_true, if_false]
  have hput : place.origin ≠ .top → ∃ d' lines,
      (if place.origin = .top then none else some (d.put place text)) = some d' ∧
      d'.said = d.said ++ lines ∧ (∀ line ∈ lines, line = text) ∧
      ∀ path', d.isWritable path' = true → d'.isWritable path' = true := by
    intro horigin
    refine ⟨d.put place text, [], if_neg horigin, (List.append_nil _).symm, by simp, ?_⟩
    intro path' h'
    exact isWritable_put hplace horigin h'
  cases hcase : d.itemAt? place with
  | none => exact hput (by simpa [hcase] using hitem)
  | some item =>
    cases item with
    | text content => exact hput (by simpa [hcase] using hitem)
    | void => exact ⟨d, [], rfl, (List.append_nil _).symm, by simp, fun _ h' => h'⟩
    | output =>
      refine ⟨_, [], rfl, (List.append_nil _).symm, by simp, ?_⟩
      exact fun _ => isWritable_streams _ _
    | messages =>
      refine ⟨_, [text], rfl, rfl, by simp, ?_⟩
      exact fun _ => isWritable_streams _ _

/-- A disk on which lines were said besides. -/
def tell (d : Disk) (lines : List String) : Disk := { d with said := d.said ++ lines }

@[simp] theorem tell_nil : d.tell [] = d := by simp [tell]

@[simp] theorem tell_tell (xs ys : List String) : (d.tell xs).tell ys = d.tell (xs ++ ys) := by
  simp [tell]

end Disk

/-! ## Steps that do not fail -/

variable {α β : Type}

/-- A step that is made on a disk: it does not fail, it gives a value, and it leaves a disk. -/
def Makes (x : Step (StateM Disk) α) (d : Disk) (a : α) (d' : Disk) : Prop :=
  x.run.run d = (.ok a, d')

theorem Makes.pure (a : α) (d : Disk) : Makes (pure a) d a d := rfl

theorem Makes.bind {x : Step (StateM Disk) α} {f : α → Step (StateM Disk) β} {d d₁ d₂ : Disk}
    {a : α} {b : β} (hx : Makes x d a d₁) (hf : Makes (f a) d₁ b d₂) : Makes (x >>= f) d b d₂ := by
  rw [Makes, ExceptT.run_bind, StateT.run_bind, hx]
  exact hf

theorem Makes.lift {x : StateM Disk α} {d d' : Disk} {a : α} (h : x.run d = (a, d')) :
    Makes (liftM x) d a d' := by
  show ((Except.ok <$> x : StateM Disk _)).run d = _
  rw [StateT.run_map, h]
  rfl

/-- Lines are said one after the other. -/
theorem makes_forM_say (xs : List α) (line : α → String) (d : Disk) :
    Makes (xs.forM fun x => liftM (Disk.world.say (line x))) d () (d.tell (xs.map line)) := by
  induction xs generalizing d with
  | nil =>
    rw [List.map_nil, Disk.tell_nil]
    exact .pure () d
  | cons x xs ih =>
    have htell : d.tell ((x :: xs).map line) = (d.tell [line x]).tell (xs.map line) := by simp
    rw [htell]
    exact .bind (.lift rfl) (ih _)

/-- A file that can be read: what is wrong with it is said. -/
theorem makes_readDeclarations {d : Disk} {path text : String} {r : Reading}
    (htext : d.read path = .ok text) (hr : read text (some path) = .ok r) :
    Makes (readDeclarations Disk.world path) d r.root
      (d.tell (r.diagnostics.map (diagnosticLine path))) := by
  have hread : (Disk.world.declarations path).run d = (.ok (.ok r), d) := by
    show ((d.read path).map fun text => read text (some path), d) = _
    rw [htext, Except.map, hr]
  refine .bind (.lift hread) ?_
  exact .bind (makes_forM_say _ _ _) (.pure _ _)

theorem run_write {d d' : Disk} {path text : String} (h : d.write path text = some d') :
    (Disk.world.write path text).run d = (true, d') := by
  simp only [Disk.world, StateT.run_bind, StateT.run_get, pure_bind, h]
  rfl

/-- A report that can be written, or for which there is no file. -/
theorem makes_emitReport {d : Disk} {path : Option String} (report : Report)
    (h : ∀ p ∈ path, d.isWritable p = true) :
    ∃ d' lines, Makes (emitReport Disk.world report path) d () d' ∧ d'.said = d.said ++ lines ∧
      (∀ line ∈ lines, line = report.text) ∧
      ∀ p, d.isWritable p = true → d'.isWritable p = true := by
  cases path with
  | none => exact ⟨d, [], .pure _ _, (List.append_nil _).symm, by simp, fun _ h => h⟩
  | some p =>
    obtain ⟨d', lines, hwrite, hrest⟩ := Disk.exists_write (h p rfl) report.text
    exact ⟨d', lines, .bind (.lift (run_write hwrite)) (.pure _ _), hrest⟩

/-- A result that can be written, or that goes to the output. -/
theorem makes_emit {d : Disk} {path : Option String} (text : String)
    (h : ∀ p ∈ path, d.isWritable p = true) :
    ∃ d' lines, Makes (emit Disk.world text path) d () d' ∧ d'.said = d.said ++ lines ∧
      ∀ line ∈ lines, line = text := by
  cases path with
  | none => exact ⟨_, [], .lift rfl, (List.append_nil _).symm, by simp⟩
  | some p =>
    obtain ⟨d', lines, hwrite, hsaid, hlines, -⟩ := Disk.exists_write (h p rfl) text
    exact ⟨d', lines, .bind (.lift (run_write hwrite)) (.pure _ _), hsaid, hlines⟩

/-! ## Whole runs -/

/-- What a merge says: what is wrong with the two files, then its conflicts. -/
def told (left right : String) (l r : Reading) (conflicts : List Conflict) : List String :=
  l.diagnostics.map (diagnosticLine left) ++ r.diagnostics.map (diagnosticLine right) ++
    conflicts.map Conflict.message

/-- Whether a line tells of a conflict. -/
def isConflictLine (line : String) : Bool :=
  "Conflicting definitions".toList.isPrefixOf line.toList

theorem isConflictLine_message (c : Conflict) : isConflictLine c.message = true := by
  have hsplit : "Conflicting definitions for `" = "Conflicting definitions" ++ " for `" := by decide
  unfold isConflictLine Conflict.message
  rw [hsplit]
  rw [List.isPrefixOf_iff_prefix]
  simp only [String.toList_append, List.append_assoc]
  exact List.prefix_append _ _

theorem isConflictLine_diagnosticLine (path : String) (d : Diagnostic) :
    isConflictLine (diagnosticLine path d) = false := by
  unfold isConflictLine diagnosticLine
  cases d.problem.severity with
  | error | warning =>
    simp only [String.toList_append, List.append_assoc]
    rfl

/-- Only what is said about conflicts tells of them. -/
theorem any_told (left right : String) (l r : Reading) (conflicts : List Conflict) :
    (told left right l r conflicts).any isConflictLine = !conflicts.isEmpty := by
  have hdiagnostics : ∀ (path : String) (ds : List Diagnostic),
      (ds.map (diagnosticLine path)).any isConflictLine = false := by
    intro path ds
    simp [isConflictLine_diagnosticLine]
  rw [told, List.any_append, List.any_append, hdiagnostics, hdiagnostics]
  cases conflicts with
  | nil => rfl
  | cons c cs => simp [isConflictLine_message]

/-- Whether a text is what a run writes to its files: a report, or an outline as it is printed. -/
def IsWritten (left right : String) (o : Options) (s : Settings) (conflicts : List Conflict)
    (text : String) : Prop :=
  text = Report.text { left, right, conflicts } ∨ ∃ f : Forest,
    text = (f.outline Forest.root).print { locations := (overrideSettings s o).printLocations }

/-- A merge of two files can be carried out on a disk: settings `s` are there and have labels that
can be used, both files can be read, with `l` and `r` in them, and what is asked for can be
written. -/
structure Disk.Ready (d : Disk) (left right : String) (o : Options) (s : Settings)
    (l r : Reading) : Prop where
  settings : Makes (loadSettings Disk.world o.settings) d s d
  labels : (overrideSettings s o).check = .ok ()
  left : ∃ text, d.read left = .ok text ∧ StubMerge.read text (some left) = .ok l
  right : ∃ text, d.read right = .ok text ∧ StubMerge.read text (some right) = .ok r
  report : ∀ path ∈ o.report, d.isWritable path = true
  output : ∀ path ∈ o.output, d.isWritable path = true

/-- Reading does not look at what was said. -/
theorem Disk.read_tell {d : Disk} {path text : String} (h : d.read path = .ok text)
    (lines : List String) : (d.tell lines).read path = .ok text := by
  unfold Disk.read at h ⊢
  cases hplace : d.placeOf path with
  | error e =>
    rw [hplace] at h
    cases h
  | ok place =>
    have htell : (d.tell lines).placeOf path = .ok place := by
      refine placeOf_of_isDirectory ?_ hplace
      exact fun _ hdir => hdir
    rw [hplace] at h
    rw [htell]
    exact h

/-- What is kept of a merge has conflicts if no side was chosen and there are records. -/
theorem makes_resolveTo {f : Forest} {conflicts : List Conflict} (d : Disk)
    (hzero : f.conflictCount = 0 ↔ conflicts = [])
    (hresolve : ∀ side, ∃ r, f.resolve side = .ok r ∧ r.conflictCount = 0)
    (keep : Option Side) :
    ∃ g, Makes (resolveTo f keep) d g d ∧
      (g.conflictCount != 0) = (keep.isNone && !conflicts.isEmpty) := by
  cases keep with
  | none =>
    refine ⟨f, .pure _ _, ?_⟩
    by_cases hnil : conflicts = []
    · simp [hnil, hzero.2 hnil]
    · have hcount : (f.conflictCount != 0) = true := by simpa using mt hzero.1 hnil
      rw [hcount]
      simp [hnil]
  | some side =>
    obtain ⟨g, hg, hcount⟩ := hresolve side
    refine ⟨g, ?_, by simp [hcount]⟩
    rw [resolveTo, hg]
    exact .pure _ _

/-- Two outlines that were read can be merged, and conflicts are there if they are recorded. -/
theorem exists_merge {textl textr : String} {filel filer : Option String} {l r : Reading}
    (hl : StubMerge.read textl filel = .ok l) (hr : StubMerge.read textr filer = .ok r)
    (labels : Labels) :
    ∃ res, merge labels { root := l.root } { root := r.root } = .ok res ∧
      (res.forest.conflictCount = 0 ↔ res.conflicts = []) ∧
      ∀ side, ∃ g, res.forest.resolve side = .ok g ∧ g.conflictCount = 0 := by
  have hfree : ∀ x ∈ [({ root := l.root } : Source), { root := r.root }],
      x.root.isConflictFree = true := by
    intro x hx
    rcases List.mem_pair.1 hx with rfl | rfl
    · exact read_isConflictFree hl
    · exact read_isConflictFree hr
  obtain ⟨m, res, hfold, hfinish, -, hrest⟩ := Merger.exists_finish labels hfree
  refine ⟨res, ?_, hrest⟩
  have hmerge : merge labels { root := l.root } { root := r.root } =
      ([({ root := l.root } : Source), { root := r.root }].foldlM Merger.add { labels } >>=
        Merger.finish) := by
    simp only [merge, List.foldlM_cons, List.foldlM_nil, bind_assoc, pure_bind]
  rw [hmerge, hfold]
  exact hfinish

/-- A merge that a disk is ready for. Nothing fails, and the outcome depends on whether there are
records of conflicts. -/
theorem makes_runMerge {d : Disk} {left right : String} {o : Options} {s : Settings}
    {l r : Reading} (h : d.Ready left right o s l r) :
    ∃ res d' written outcome,
      merge (overrideSettings s o).labels { root := l.root } { root := r.root } = .ok res ∧
      (∀ side, ∃ g, res.forest.resolve side = .ok g) ∧
      Makes (runMerge Disk.world left right o) d outcome d' ∧
      d'.said = d.said ++ told left right l r res.conflicts ++ written ∧
      (∀ text ∈ written, IsWritten left right o s res.conflicts text) ∧
      outcome = if (overrideSettings s o).failOnConflicts &&
        ((overrideSettings s o).keep.isNone && !res.conflicts.isEmpty) then .conflictsRemain
        else .done := by
  obtain ⟨textl, htextl, hl⟩ := h.left
  obtain ⟨textr, htextr, hr⟩ := h.right
  obtain ⟨res, hmerge, hzero, hresolve⟩ := exists_merge hl hr (overrideSettings s o).labels
  -- The disk once all conflicts have been told.
  let d₁ := d.tell (told left right l r res.conflicts)
  have hwritable : ∀ path, d.isWritable path = true → d₁.isWritable path = true :=
    fun path => Disk.isWritable_streams _ _
  obtain ⟨d₂, reported, hreport, hsaid₂, hreported, hkept⟩ := makes_emitReport (d := d₁)
    { left, right, conflicts := res.conflicts }
    fun path hpath => hwritable path (h.report path hpath)
  obtain ⟨f, hf, hcount⟩ := makes_resolveTo d₂ hzero hresolve (overrideSettings s o).keep
  obtain ⟨d₃, emitted, hemit, hsaid₃, hemitted⟩ := makes_emit (d := d₂)
    ((f.outline Forest.root).print { locations := (overrideSettings s o).printLocations })
    fun path hpath => hkept path (hwritable path (h.output path hpath))
  refine ⟨res, d₃, reported ++ emitted, _, hmerge, fun side => ?_, ?_, ?_, ?_, rfl⟩
  · obtain ⟨g, hg, -⟩ := hresolve side
    exact ⟨g, hg⟩
  · rw [runMerge]
    refine .bind h.settings ?_
    simp only [h.labels]
    refine .bind (makes_readDeclarations htextl hl) ?_
    refine .bind (makes_readDeclarations (Disk.read_tell htextr _) hr) ?_
    simp only [hmerge]
    refine .bind (makes_forM_say _ _ _) ?_
    rw [Disk.tell_tell, Disk.tell_tell, ← List.append_assoc]
    refine .bind hreport (.bind hf (.bind hemit ?_))
    rw [hcount]
    split
    · exact .pure _ _
    · exact .pure _ _
  · rw [hsaid₃, hsaid₂]
    simp [d₁, Disk.tell]
  · intro text htext
    rcases List.mem_append.1 htext with hmem | hmem
    · exact .inl (hreported text hmem)
    · exact .inr ⟨f, hemitted text hmem⟩

/-- **Conflicts and their records agree.** However many outlines without conflicts are merged,
there are at most as many conflicts as records, and there is none exactly if there is no record.
So a run of the command that a disk is ready for does not fail. Its exit status is one exactly if
conflicts are to count as a failure, no side is to be kept, and a line was said that tells of a
conflict; otherwise it is zero. After these lines comes only what is written to the user as to a
file. -/
theorem status_eq_one_iff_conflict_told :
    (∀ (labels : Labels) (ss : List Source), (∀ s ∈ ss, s.root.isConflictFree = true) →
      ∃ m res, ss.foldlM Merger.add { labels } = .ok m ∧ m.finish = .ok res ∧
        res.forest.conflictCount ≤ res.conflicts.length ∧
        (res.forest.conflictCount = 0 ↔ res.conflicts = [])) ∧
    ∀ (d : Disk) (arguments : List String) (left right : String) (o : Options) (s : Settings)
      (l r : Reading), Request.ofArguments arguments = .ok (.merge left right o) →
      d.Ready left right o s l r →
      ∃ res outcome d' written,
        merge (overrideSettings s o).labels { root := l.root } { root := r.root } = .ok res ∧
        (∀ side, ∃ g, res.forest.resolve side = .ok g) ∧
        (run Disk.world arguments).run d = (outcome, d') ∧
        d'.said = d.said ++ told left right l r res.conflicts ++ written ∧
        (∀ text ∈ written, IsWritten left right o s res.conflicts text) ∧
        (outcome.status = 1 ↔ (o.failOnConflicts = true ∨ s.failOnConflicts = true) ∧
          o.keep = none ∧ s.keep = none ∧
          ∃ line ∈ told left right l r res.conflicts, isConflictLine line = true) ∧
        (outcome.status = 1 ∨ outcome.status = 0) ∧ ∀ failure, outcome ≠ .failed failure := by
  constructor
  · intro labels ss hss
    obtain ⟨m, res, hfold, hfinish, hle, hzero, -⟩ := Merger.exists_finish labels hss
    exact ⟨m, res, hfold, hfinish, hle, hzero⟩
  · intro d arguments left right o s l r hrequest h
    obtain ⟨res, d', written, outcome, hmerge, hresolve, hmakes, hsaid, hwritten, houtcome⟩ :=
      makes_runMerge h
    have hrun : (run Disk.world arguments).run d = (outcome, d') := by
      rw [run, hrequest]
      show StateT.run ((runMerge Disk.world left right o).run >>= _) d = _
      rw [StateT.run_bind, hmakes]
      rfl
    refine ⟨res, outcome, d', written, hmerge, hresolve, hrun, hsaid, hwritten, ?_⟩
    have hcond : ((overrideSettings s o).failOnConflicts &&
        ((overrideSettings s o).keep.isNone && !res.conflicts.isEmpty)) = true ↔
        (o.failOnConflicts = true ∨ s.failOnConflicts = true) ∧ o.keep = none ∧ s.keep = none ∧
          ∃ line ∈ told left right l r res.conflicts, isConflictLine line = true := by
      rw [← List.any_eq_true, any_told]
      simp only [overrideSettings, Bool.and_eq_true, Bool.or_eq_true, Option.isNone_iff_eq_none,
        Option.or_eq_none_iff, and_assoc]
      rw [or_comm]
    rw [← hcond, houtcome]
    split_ifs with hfail
    · exact ⟨iff_of_true rfl hfail, .inl rfl, by simp⟩
    · exact ⟨iff_of_false (by decide) hfail, .inr rfl, by simp⟩

/-- A disk with two files that do not agree and with settings by which that is a failure. -/
def disputed : Disk :=
  Disk.ofFiles [("old.rbi", "A = 1\n"), ("new.rbi", "A = 2\n\nclass B; end\n"),
    ("rbi.toml", "[merge]\nfail_on_conflicts = true\n")]

/-- The options of the run. -/
def disputedOptions : Options := { operands := ["old.rbi", "new.rbi"], output := some "out.rbi" }

theorem exists_reading {text : String} {file : Option String} (h : (read text file).isOk = true) :
    ∃ r, read text file = .ok r := by
  cases hr : read text file with
  | ok r => exact ⟨r, rfl⟩
  | error e => simp [hr, Except.isOk, Except.toBool] at h

/-- The two files are merged, with the result in a third file, and three outlines of cars are. -/
theorem status_of_disputed :
    (∃ m res, [{ root := oldCars }, { root := newCars }, { root := oldCars }].foldlM Merger.add
        { labels := ⟨"old", "new"⟩ } = .ok m ∧ m.finish = .ok res ∧
      res.forest.conflictCount ≤ res.conflicts.length ∧
      (res.forest.conflictCount = 0 ↔ res.conflicts = [])) ∧
    ∃ l r, disputed.Ready "old.rbi" "new.rbi" disputedOptions { failOnConflicts := true } l r ∧
      ∃ res outcome d' written,
        merge ⟨"left", "right"⟩ { root := l.root } { root := r.root } = .ok res ∧
        (run Disk.world ["merge", "old.rbi", "new.rbi", "-o", "out.rbi"]).run disputed =
          (outcome, d') ∧
        d'.said = told "old.rbi" "new.rbi" l r res.conflicts ++ written ∧
        (outcome.status = 1 ↔
          ∃ line ∈ told "old.rbi" "new.rbi" l r res.conflicts, isConflictLine line = true) := by
  refine ⟨status_eq_one_iff_conflict_told.1 _ _ (by decide), ?_⟩
  obtain ⟨l, hl⟩ : ∃ l, read "A = 1\n" (some "old.rbi") = .ok l :=
    exists_reading (by decide +kernel)
  obtain ⟨r, hr⟩ : ∃ r, read "A = 2\n\nclass B; end\n" (some "new.rbi") = .ok r :=
    exists_reading (by decide +kernel)
  have hsettings : Id.run ((loadSettings Disk.world none).run.run disputed) =
      (.ok { failOnConflicts := true }, disputed) := by decide +kernel
  have hready : disputed.Ready "old.rbi" "new.rbi" disputedOptions { failOnConflicts := true }
      l r :=
    ⟨hsettings, by decide +kernel, ⟨_, by decide +kernel, hl⟩, ⟨_, by decide +kernel, hr⟩,
      by simp [disputedOptions], by decide +kernel⟩
  obtain ⟨res, outcome, d', written, hmerge, -, hrun, hsaid, -, hstatus, -⟩ :=
    status_eq_one_iff_conflict_told.2 disputed ["merge", "old.rbi", "new.rbi", "-o", "out.rbi"]
      "old.rbi" "new.rbi" disputedOptions { failOnConflicts := true } l r (by decide +kernel) hready
  refine ⟨l, r, hready, res, outcome, d', written, hmerge, hrun, hsaid, ?_⟩
  simpa [disputedOptions] using hstatus

end StubMerge.Command
