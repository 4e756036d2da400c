import StubMerge.Proofs.Symbols

/-!
# Reading without problems

A reading function does two things to a cursor: it passes tokens, and it reports problems at the
token where it stands. A `Cursor.Walk` is a row of such steps, and there is one lemma for every
function. So no problem is ever taken back (`Cursor.Walk.reaches`): if there is none at the end of a
text, there was none anywhere, and everything that was expected was there.
-/

namespace StubMerge

namespace Cursor

/-- Nothing has been reported. -/
def IsClean (c : Cursor) : Prop := c.diagnostics = #[]

/-- Tokens are passed, and problems are reported at the token where the cursor stands. A walk says
nothing about the end of the file, of which only the end itself knows. -/
inductive Walk (c : Cursor) : Cursor → Prop where
  | refl : Walk c c
  | skip {c' : Cursor} (h : Walk c c') (n : Nat) : Walk c (c'.skip n)
  | report {c' : Cursor} (h : Walk c c') (p : Problem) (hp : p ≠ .expectedEndOfFile) :
    Walk c (c'.report p)

/-- The second cursor stands at or behind the first, and keeps its problems. It says nothing about
the end of the file, of which only the end itself knows. -/
structure Reaches (c c' : Cursor) : Prop where
  /-- All that has changed, apart from problems, is that tokens were passed. -/
  moves : ∃ n, c' = { c.skip n with diagnostics := c'.diagnostics }
  reports : ∃ ds : List Diagnostic, c'.diagnostics = c.diagnostics ++ ds.toArray ∧
    ∀ d ∈ ds, d.problem ≠ .expectedEndOfFile

theorem skip_skip (c : Cursor) (n m : Nat) : (c.skip n).skip m = c.skip (n + m) := by
  simp only [skip, List.drop_drop, List.take_add, List.getLast?_append]
  cases ((c.rest.drop n).take m).getLast? <;> rfl

section Walks

variable {c c' c'' : Cursor}

theorem Reaches.trans (h : c.Reaches c') (h' : c'.Reaches c'') : c.Reaches c'' := by
  obtain ⟨⟨n, hn⟩, ds, hds, hnot⟩ := h
  obtain ⟨⟨m, hm⟩, ds', hds', hnot'⟩ := h'
  refine ⟨⟨n + m, ?_⟩, ds ++ ds', ?_, ?_⟩
  · rw [hm, hn, ← skip_skip]
    rfl
  · simp [hds', hds]
  · exact List.forall_mem_append.2 ⟨hnot, hnot'⟩

namespace Walk

theorem trans (h : c.Walk c') (h' : c'.Walk c'') : c.Walk c'' := by
  induction h' with
  | refl => exact h
  | skip _ n ih => exact ih.skip n
  | report _ p hp ih => exact ih.report p hp

/-- A walk gets to a cursor that stands behind, and no problem is taken back on it. -/
theorem reaches (h : c.Walk c') : c.Reaches c' := by
  induction h with
  | refl => exact ⟨⟨0, rfl⟩, [], by simp, by simp⟩
  | skip _ n ih => exact ih.trans ⟨⟨n, rfl⟩, [], by simp [Cursor.skip], by simp⟩
  | @report c' _ p hp ih =>
    exact ih.trans ⟨⟨0, rfl⟩, [⟨p, c'.peek.start, c'.peek.stop⟩], by simp [Cursor.report],
      by simpa using hp⟩

theorem suffix (h : c.Walk c') : c'.rest <:+ c.rest := by
  obtain ⟨n, hn⟩ := h.reaches.moves
  rw [hn]
  exact List.drop_suffix n c.rest

theorem clean (h : c.Walk c') (hc : c'.IsClean) : c.IsClean := by
  obtain ⟨ds, hds, -⟩ := h.reaches.reports
  rw [IsClean, hds] at hc
  exact (Array.append_eq_empty_iff.1 hc).1

end Walk

end Walks

/-! ## Moving, reporting and expecting -/

section Steps

variable (c : Cursor)

theorem walk_skip (n : Nat) : c.Walk (c.skip n) := .skip .refl n

theorem walk_advance : c.Walk c.advance := c.walk_skip 1

theorem walk_skipWhile (p : TokenKind → Bool) : c.Walk (c.skipWhile p) := c.walk_skip _

theorem walk_skipNewlines : c.Walk c.skipNewlines := c.walk_skipWhile _

theorem not_isClean_report (p : Problem) : ¬(c.report p).IsClean := by
  simp [IsClean, report]

theorem walk_report (p : Problem) (hp : p ≠ .expectedEndOfFile) :
    c.Walk (c.report p) :=
  .report .refl p hp

theorem walk_reportIf (wrong : Bool) (p : Problem) (hp : p ≠ .expectedEndOfFile) :
    c.Walk (c.reportIf wrong p) := by
  unfold reportIf
  split
  · exact c.walk_report p hp
  · exact .refl

theorem walk_reportAll (ps : List Problem) (hps : ∀ p ∈ ps, p ≠ .expectedEndOfFile) :
    c.Walk (c.reportAll ps) := by
  induction ps generalizing c with
  | nil => exact .refl
  | cons p ps ih =>
    obtain ⟨hp, hps⟩ := List.forall_mem_cons.1 hps
    exact (c.walk_report p hp).trans (ih _ hps)

theorem walk_eat (k : TokenKind) : c.Walk (c.eat k).2 := by
  unfold eat
  split
  · exact c.walk_advance
  · exact .refl

theorem walk_expect (k : TokenKind) (p : Problem) (hp : p ≠ .expectedEndOfFile) :
    c.Walk (c.expect k p).2 := by
  unfold expect
  split
  · exact c.walk_advance
  · exact c.walk_report p hp

theorem walk_recover : c.Walk c.recover := (c.walk_skipWhile _).trans (walk_advance _)

theorem walk_endStatement : c.Walk c.endStatement := by
  unfold endStatement
  split
  · exact .refl
  · exact (c.walk_report _ (by simp)).trans (walk_skipWhile _ _)

/-- A block is skipped up to the word that is expected to end it. -/
theorem exists_skipBlock (warning : Option Problem)
    (hw : ∀ p ∈ warning, p ≠ .expectedEndOfFile) :
    ∃ c', c.Walk c' ∧ c.skipBlock warning = (c'.expect .endWord .expectedEnd).2 := by
  refine ⟨_, ?_, rfl⟩
  cases warning with
  | none => exact (c.walk_skipWhile _).trans (walk_skip _ _)
  | some p =>
    exact (c.walk_skipWhile _).trans ((walk_reportIf _ _ p (hw p rfl)).trans
      (walk_skip _ _))

theorem walk_skipBlock (warning : Option Problem)
    (hw : ∀ p ∈ warning, p ≠ .expectedEndOfFile) :
    c.Walk (c.skipBlock warning) := by
  obtain ⟨c', hc', heq⟩ := c.exists_skipBlock warning hw
  rw [heq]
  exact hc'.trans (walk_expect _ _ _ (by simp))

theorem walk_capture (stop : TokenKind → Bool) : c.Walk (c.capture stop).2 := c.walk_skip _

theorem walk_captureGroup : c.Walk c.captureGroup.2 := by
  dsimp only [captureGroup]
  split
  · exact (c.walk_expect _ _ (by simp)).trans ((walk_capture _ _).trans
      (walk_expect _ _ _ (by simp)))
  · exact c.walk_expect _ _ (by simp)

theorem walk_arguments : c.Walk c.arguments.2 := by
  fun_induction arguments c with
  | case1 c first args _ more ih =>
    have hfirst : c.Walk first.2 := c.walk_capture _
    exact hfirst.trans ((walk_advance _).trans ((walk_skipNewlines _).trans ih))
  | case2 c => exact c.walk_capture _

theorem walk_callArguments : c.Walk c.callArguments.2 := by
  dsimp only [callArguments]
  split
  · exact c.walk_advance.trans ((walk_arguments _).trans (walk_expect _ _ _ (by simp)))
  · exact c.walk_arguments

end Steps

/-! ## What was expected was there -/

section Expected

variable {c : Cursor}

theorem kind_of_expect {k : TokenKind} {p : Problem} (h : (c.expect k p).2.IsClean) :
    c.kind = k := by
  unfold expect at h
  split at h
  · next hk => exact eq_of_beq hk
  · exact absurd h (not_isClean_report c p)

theorem of_reportIf {wrong : Bool} {p : Problem} (h : (c.reportIf wrong p).IsClean) :
    wrong = false := by
  unfold reportIf at h
  split at h
  · exact absurd h (not_isClean_report c p)
  · next hwrong => exact Bool.eq_false_iff.2 hwrong

theorem isClean_of_reportIf {wrong : Bool} {p : Problem} (h : (c.reportIf wrong p).IsClean) :
    c.IsClean := by
  rwa [reportIf, of_reportIf h] at h

theorem isClean_of_reportAll {ps : List Problem} (h : (c.reportAll ps).IsClean) : c.IsClean := by
  induction ps generalizing c with
  | nil => exact h
  | cons p ps ih => exact absurd (ih (c := c.report p) h) (not_isClean_report c p)

theorem of_reportAll {ps : List Problem} (h : (c.reportAll ps).IsClean) : ps = [] := by
  cases ps with
  | nil => rfl
  | cons p ps =>
    have hreport : (c.report p).IsClean := isClean_of_reportAll h
    exact absurd hreport (not_isClean_report c p)

theorem atStatementEnd_of_endStatement (h : c.endStatement.IsClean) : c.atStatementEnd = true := by
  unfold endStatement at h
  split at h
  · next hend => exact hend
  · exact absurd ((walk_skipWhile _ _).clean h) (not_isClean_report c _)

theorem rest_ne_nil (h : c.kind ≠ .eof) : c.rest ≠ [] := by
  intro hrest
  exact h (by rw [kind_eq_headKind, hrest]; rfl)

/-- A suffix of nothing is nothing. -/
theorem Walk.rest_eq_nil {c' : Cursor} (h : c.Walk c') (hrest : c.rest = []) :
    c'.rest = [] :=
  List.suffix_nil.1 (hrest ▸ h.suffix)

theorem Walk.rest_ne_nil {c' : Cursor} (h : c.Walk c') (hrest : c'.rest ≠ []) :
    c.rest ≠ [] :=
  mt h.rest_eq_nil hrest

/-- A block that was skipped without a problem was there. -/
theorem rest_ne_nil_of_skipBlock {warning : Option Problem}
    (hw : ∀ p ∈ warning, p ≠ .expectedEndOfFile) (h : (c.skipBlock warning).IsClean) :
    c.rest ≠ [] := by
  obtain ⟨c', hc', heq⟩ := c.exists_skipBlock warning hw
  rw [heq] at h
  exact hc'.rest_ne_nil (Cursor.rest_ne_nil (by simp [kind_of_expect h]))

end Expected

/-! ## Signatures -/

section Signatures

variable (c : Cursor)

theorem walk_typedNamesFrom : c.Walk c.typedNamesFrom.2 := by
  fun_induction typedNamesFrom c with
  | case1 c => exact .refl
  | case2 c => exact c.walk_report _ (by simp)
  | case3 c _ _ type first _ more ih =>
    have htype : c.Walk type.2 :=
      c.walk_advance.trans ((walk_advance _).trans (walk_capture _ _))
    exact htype.trans ((walk_advance _).trans ih)
  | case4 c _ _ type =>
    exact c.walk_advance.trans ((walk_advance _).trans (walk_capture _ _))

theorem walk_typedNames : c.Walk c.typedNames.2 := by
  dsimp only [typedNames]
  split
  · exact (c.walk_expect _ _ (by simp)).trans ((walk_typedNamesFrom _).trans
      ((walk_skipWhile _ _).trans (walk_expect _ _ _ (by simp))))
  · exact c.walk_expect _ _ (by simp)

theorem walk_unknownBuilder (s : Signature) : c.Walk (unknownBuilder s c).2 := by
  have h := c.walk_advance.trans (walk_report c.advance (.ignoredBuilder c.text) (by simp))
  dsimp only [unknownBuilder]
  split
  · exact h.trans (walk_captureGroup _)
  · exact h

theorem walk_namedBuilder (s : Signature) : c.Walk (namedBuilder s c).2 := by
  have h₁ := c.walk_advance.trans (walk_captureGroup c.advance)
  have h₂ := c.walk_advance.trans (walk_typedNames c.advance)
  unfold namedBuilder
  split
  · exact c.walk_advance
  · exact c.walk_advance
  · exact c.walk_advance
  · split
    · exact h₁
    · exact c.walk_advance
  · exact h₁
  · exact h₁
  · exact h₂
  · exact h₁
  · exact c.walk_unknownBuilder s

theorem walk_builder (closer : TokenKind) (s : Signature) :
    c.Walk (builder closer s c).2 := by
  unfold builder
  split
  · exact c.walk_namedBuilder s
  · dsimp only
    exact (c.walk_report _ (by simp)).trans (walk_skipWhile _ _)

theorem walk_builders (closer : TokenKind) (s : Signature) :
    c.Walk (builders closer s c).2 := by
  fun_induction builders closer s c with
  | case1 s c => exact .refl
  | case2 s c _ link after _ ih =>
    have hlink : c.Walk after := (c.walk_builder closer s).trans (walk_skipNewlines _)
    exact hlink.trans ((walk_advance _).trans ((walk_skipNewlines _).trans ih))
  | case3 s c _ link after =>
    exact (c.walk_builder closer s).trans (walk_skipNewlines _)

theorem walk_signatureArgument : c.Walk c.signatureArgument.2 := by
  dsimp only [signatureArgument]
  split
  · split
    · exact c.walk_captureGroup
    · exact c.walk_captureGroup.trans (walk_report _ _ (by simp))
  · exact .refl

theorem walk_signature : c.Walk c.signature.2 := by
  have h := c.walk_advance.trans (walk_signatureArgument c.advance)
  dsimp only [signature]
  split
  · exact h.trans ((walk_report _ _ (by simp)).trans (walk_recover _))
  · exact h.trans ((walk_advance _).trans ((walk_skipNewlines _).trans
      ((walk_builders _ _ _).trans ((walk_skipNewlines _).trans
        (walk_expect _ _ _ (by simp))))))

end Signatures

/-! ## Methods -/

section Methods

variable (c : Cursor)

theorem walk_setterMark (name : String) (wanted : Bool) :
    c.Walk (c.setterMark name wanted).2 := by
  unfold setterMark
  split
  · exact c.walk_advance
  · exact .refl

theorem walk_methodName : c.Walk c.methodName.2 := by
  unfold methodName
  split
  · exact c.walk_advance.trans (walk_setterMark _ _ _)
  · exact c.walk_advance.trans (walk_setterMark _ _ _)
  · split
    · exact c.walk_advance.trans ((walk_advance _).trans (walk_setterMark _ _ _))
    · exact .refl
  all_goals first | exact c.walk_advance | exact .refl

theorem walk_namedParameter (name : String) : c.Walk (c.namedParameter name).2 := by
  have h := c.walk_advance.trans (walk_capture c.advance (· == .comma))
  unfold namedParameter
  split
  · split
    · exact c.walk_advance
    · exact h
  · split
    · exact h
    · exact .refl

theorem walk_parameter : c.Walk c.parameter.2 := by
  unfold parameter
  split
  · split
    · exact c.walk_advance.trans (walk_advance _)
    · exact c.walk_advance
  · split
    · exact c.walk_advance.trans (walk_namedParameter _ _)
    · exact .refl

/-- What is no parameter is reported and skipped. -/
theorem walk_afterParameter (first : Option Parameter × Cursor) :
    first.2.Walk (match first.1 with
      | some _ => first.2
      | none => (first.2.report (.expectedParameter first.2.text)).skipWhile
          fun k => k != .comma && k != .rightParen) := by
  split
  · exact .refl
  · exact (walk_report _ _ (by simp)).trans (walk_skipWhile _ _)

theorem walk_parametersFrom : c.Walk c.parametersFrom.2 := by
  fun_induction parametersFrom c with
  | case1 c => exact .refl
  | case2 c _ first after _ more ih =>
    have hafter : c.Walk after := c.walk_parameter.trans (walk_afterParameter first)
    exact hafter.trans ((walk_advance _).trans ih)
  | case3 c _ first after => exact c.walk_parameter.trans (walk_afterParameter first)

theorem walk_bareParameters : c.Walk c.bareParameters.2 := by
  fun_induction bareParameters c with
  | case1 c => exact .refl
  | case2 c _ first _ _ more ih =>
    exact c.walk_parameter.trans ((walk_advance _).trans ih)
  | case3 c => exact c.walk_parameter
  | case4 c => exact c.walk_parameter

theorem walk_parameters : c.Walk c.parameters.2 := by
  unfold parameters
  split
  · exact c.walk_advance.trans ((walk_parametersFrom _).trans
      (walk_expect _ _ _ (by simp)))
  · exact c.walk_bareParameters

end Methods

/-! ## Statements -/

section Statements

variable (b : Body) (c : Cursor)

theorem walk_pathSegments : c.Walk c.pathSegments.2 := by
  fun_induction pathSegments c with
  | case1 c _ _ more ih => exact c.walk_advance.trans ((walk_advance _).trans ih)
  | case2 c => exact c.walk_advance
  | case3 c => exact c.walk_advance

theorem walk_constantPath : c.Walk c.constantPath.2 := by
  dsimp only [constantPath]
  split
  · exact (c.walk_eat _).trans (walk_pathSegments _)
  · exact (c.walk_eat _).trans (walk_report _ _ (by simp))

theorem walk_superclass : c.Walk c.superclass.2 := by
  dsimp only [superclass]
  split
  · exact c.walk_advance.trans ((walk_capture _ _).trans (walk_reportIf _ _ _ (by simp)))
  · exact .refl

theorem walk_moduleHeader : c.Walk (moduleHeader b c).cursor := by
  have h := c.walk_advance.trans (walk_constantPath _)
  dsimp only [moduleHeader]
  split
  · rw [Statement.cursor_nothing]
    exact h.trans (walk_recover _)
  · rw [Statement.cursor_opens]
    exact h.trans (walk_endStatement _)

theorem walk_classHeader : c.Walk (classHeader b c).cursor := by
  have h := c.walk_advance.trans (walk_constantPath _)
  dsimp only [classHeader]
  split
  · rw [Statement.cursor_nothing]
    exact h.trans (walk_recover _)
  · rw [Statement.cursor_opens]
    exact h.trans ((walk_superclass _).trans (walk_endStatement _))

theorem walk_singletonHeader : c.Walk (singletonHeader b c).cursor := by
  have h := c.walk_advance.trans ((walk_advance _).trans
    (walk_expect _ .selfWord .expectedSelf (by simp)))
  dsimp only [singletonHeader]
  split
  · rw [Statement.cursor_opens]
    exact h.trans (walk_endStatement _)
  · rw [Statement.cursor_nothing]
    exact h.trans (walk_recover _)

theorem walk_argumentGroup : c.Walk c.argumentGroup.2 := by
  unfold argumentGroup
  split
  · exact c.walk_callArguments
  · exact .refl

theorem walk_structHeader (name : String) (start : Position) :
    c.Walk (c.structHeader name start b).cursor := by
  have h := (c.walk_eat .pathSeparator).trans ((walk_skip _ 3).trans
    ((walk_argumentGroup _).trans (walk_reportAll _
      (structProblems (argumentGroup ((c.eat .pathSeparator).2.skip 3)).1)
      (List.forall_mem_map.2 fun _ _ => by simp))))
  dsimp only [structHeader]
  split
  · rw [Statement.cursor_opens]
    exact h.trans ((walk_advance _).trans (walk_endStatement _))
  · rw [Statement.cursor_declares]
    exact h

theorem walk_constant : c.Walk (constant b c).cursor := by
  have h := c.walk_advance.trans (walk_advance _)
  dsimp only [constant]
  split
  · exact h.trans (walk_structHeader _ _ _ _)
  · rw [Statement.cursor_declares]
    exact h.trans ((walk_capture _ _).trans (walk_reportIf _ _ _ (by simp)))

theorem walk_methodEnd : c.Walk c.methodEnd := by
  unfold methodEnd
  split
  · exact c.walk_advance
  · exact c.walk_endStatement.trans (walk_skipBlock _ _ (by simp))

theorem walk_method (start : Position) (visibility : Visibility) :
    c.Walk (c.method start visibility b).cursor := by
  have h : c.Walk (if c.advance.kind == .selfWord && c.advance.nthKind 1 == .dot
      then c.advance.skip 2 else c.advance) := by
    split
    · exact c.walk_advance.trans (walk_skip _ 2)
    · exact c.walk_advance
  dsimp only [method]
  split
  · rw [Statement.cursor_nothing]
    exact h.trans ((walk_methodName _).trans
      ((walk_report _ .expectedMethodName (by simp)).trans (walk_recover _)))
  · rw [Statement.cursor_declares]
    exact h.trans ((walk_methodName _).trans ((walk_parameters _).trans
      (walk_methodEnd _)))

theorem walk_attributes (kind : AttributeKind) (start : Position) (visibility : Visibility) :
    c.Walk (c.attributes kind start visibility b).cursor := by
  have h := c.walk_advance.trans ((walk_callArguments _).trans
    (walk_reportAll _ (symbolProblems c.advance.callArguments.1)
      (List.forall_mem_map.2 fun _ _ => by simp)))
  dsimp only [attributes]
  split
  · rw [Statement.cursor_nothing]
    exact h.trans (walk_report _ _ (by simp))
  · rw [Statement.cursor_declares]
    exact h.trans (walk_endStatement _)

theorem walk_mixins (kind : MixinKind) : c.Walk (c.mixins kind b).cursor := by
  have h := c.walk_advance.trans (walk_callArguments _)
  dsimp only [mixins]
  split
  · rw [Statement.cursor_nothing]
    exact h.trans (walk_report _ _ (by simp))
  · rw [Statement.cursor_declares]
    exact h.trans (walk_endStatement _)

theorem walk_requiredAncestor : c.Walk (c.requiredAncestor b).cursor := by
  have h := c.walk_advance.trans (walk_expect _ .leftBrace .expectedAncestorBlock (by simp))
  dsimp only [requiredAncestor]
  split
  · rw [Statement.cursor_declares]
    exact h.trans ((walk_capture _ _).trans ((walk_expect _ _ _ (by simp)).trans
      (walk_endStatement _)))
  · rw [Statement.cursor_nothing]
    exact h.trans (walk_recover _)

theorem walk_structField (kind : FieldKind) : c.Walk (c.structField kind b).cursor := by
  have h := c.walk_advance.trans (walk_callArguments _)
  dsimp only [structField]
  split
  · rw [Statement.cursor_declares]
    exact h.trans ((walk_reportAll _ _ (List.forall_mem_map.2 fun _ _ => by simp)).trans
      (walk_endStatement _))
  · rw [Statement.cursor_nothing]
    exact h.trans (walk_report _ _ (by simp))

theorem walk_enumNames : c.Walk c.enumNames.2 := by
  fun_induction enumNames c with
  | case1 c => exact c.walk_report _ (by simp)
  | case2 c => exact c.walk_advance
  | case3 c _ _ _ ih => exact c.walk_advance.trans ih
  | case4 c _ _ _ _ more ih => exact (c.walk_skip 2).trans ((walk_capture _ _).trans ih)
  | case5 c _ _ _ _ ih => exact (c.walk_report _ (by simp)).trans ((walk_recover _).trans ih)

theorem walk_call : c.Walk (c.call b).cursor := by
  have h := c.walk_advance.trans (walk_callArguments _)
  dsimp only [call, Statement.cursor_declares]
  split
  · exact h.trans ((walk_report _ _ (by simp)).trans ((walk_advance _).trans
      (walk_skipBlock _ _ (by simp))))
  · exact h.trans (walk_endStatement _)

theorem walk_afterVisibility {s : Statement} (h : c.advance.Walk s.cursor) :
    c.Walk s.afterVisibility.cursor := by
  rw [Statement.cursor_afterVisibility]
  exact c.walk_advance.trans h

/-- A statement is read from where the cursor stands. -/
theorem walk_statement : c.Walk (c.statement b).cursor :=
  Forms.statement (P := fun s => c.Walk s.cursor)
    { moduleHeader := c.walk_moduleHeader b
      classHeader := c.walk_classHeader b
      singletonHeader := c.walk_singletonHeader b
      constant _ _ := c.walk_constant b
      method := c.walk_method b _ _
      attributes _ := c.walk_attributes b _ _ _
      visibility _ := c.walk_advance
      visibleMethod _ _ _ _ := c.walk_afterVisibility (walk_method _ _ _ _)
      visibleAttributes _ _ _ _ _ _ := c.walk_afterVisibility (walk_attributes _ _ _ _ _)
      signatureLine := c.walk_signature
      mixins _ := c.walk_mixins b _
      requiredAncestor := c.walk_requiredAncestor b
      structField _ _ := c.walk_structField b _
      enumBlock := (c.walk_skip 2).trans (walk_enumNames _)
      helperCall _ _ := c.walk_advance
      call _ := c.walk_call b
      noDeclaration := (c.walk_report _ (by simp)).trans (walk_recover _) }

end Statements

end Cursor

end StubMerge
