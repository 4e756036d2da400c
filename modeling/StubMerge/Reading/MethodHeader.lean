import StubMerge.Reading.Capture
import StubMerge.Declaration.Kind

/-!
# Reading method names and parameters

After the word that starts a method come its name, which may be an operator or a reserved word,
and its parameters, in parentheses or bare up to the end of the statement.
-/

namespace StubMerge

namespace Cursor

/-! ## Names -/

/-- Passes an equals sign and puts it behind a name, if `wanted`. -/
def setterMark (name : String) (wanted : Bool) (c : Cursor) : String × Cursor :=
  if wanted then (name ++ "=", c.advance) else (name, c)

/-- The name of a method, if there is one. -/
def methodName (c : Cursor) : Option String × Cursor :=
  match c.kind with
  | .name | .const =>
    let wanted := c.nthKind 1 == .equals && c.peek.stop.offset == (c.nth 1).start.offset
    let marked := c.advance.setterMark c.text wanted
    (some marked.1, marked.2)
  | .leftBracket =>
    if c.nthKind 1 == .rightBracket then
      let after := c.advance.advance
      let marked := after.setterMark "[]" (after.kind == .equals)
      (some marked.1, marked.2)
    else (none, c)
  | .operator | .less | .shiftLeft | .star | .doubleStar | .ampersand
  | .classWord | .moduleWord | .defWord | .endWord | .selfWord | .doWord =>
    (some c.text, c.advance)
  | _ => (none, c)

theorem remaining_setterMark_le (name : String) (wanted : Bool) (c : Cursor) :
    (c.setterMark name wanted).2.remaining ≤ c.remaining := by
  unfold setterMark; split <;> simp

theorem remaining_methodName_le (c : Cursor) : c.methodName.2.remaining ≤ c.remaining := by
  have h₁ := fun name wanted => remaining_setterMark_le name wanted c.advance
  have h₂ := fun name wanted => remaining_setterMark_le name wanted c.advance.advance
  simp only [remaining_advance] at h₁ h₂
  unfold methodName
  split
  · exact Nat.le_trans (h₁ _ _) (Nat.sub_le _ _)
  · exact Nat.le_trans (h₁ _ _) (Nat.sub_le _ _)
  · split
    · exact Nat.le_trans (h₂ _ _) (by omega)
    · exact Nat.le_refl _
  all_goals simp

/-! ## Parameters -/

/-- The kind of parameter that a mark in front of its name stands for. -/
def markedParameter? : TokenKind → Option ParameterKind
  | .star => some .rest
  | .doubleStar => some .keywordRest
  | .ampersand => some .block
  | _ => none

/-- Whether nothing follows the colon of a keyword parameter. -/
def atKeywordEnd (c : Cursor) : Bool :=
  c.kind == .comma || c.kind == .rightParen || c.kind.endsStatement

/-- What follows the name of a parameter that has no mark in front. -/
def namedParameter (name : String) (c : Cursor) : Parameter × Cursor :=
  if c.kind == .colon then
    if c.advance.atKeywordEnd then ({ kind := .keyword, name }, c.advance)
    else
      let value := c.advance.capture (· == .comma)
      ({ kind := .optionalKeyword, name, default := some value.1 }, value.2)
  else if c.kind == .equals then
    let value := c.advance.capture (· == .comma)
    ({ kind := .optional, name, default := some value.1 }, value.2)
  else ({ name }, c)

/-- A parameter, if there is one. -/
def parameter (c : Cursor) : Option Parameter × Cursor :=
  match markedParameter? c.kind with
  | some kind =>
    if c.advance.kind == .name then (some { kind, name := c.advance.text }, c.advance.advance)
    else (some { kind, name := "" }, c.advance)
  | none =>
    if c.kind == .name then
      let named := c.advance.namedParameter c.text
      (some named.1, named.2)
    else (none, c)

theorem remaining_namedParameter_le (name : String) (c : Cursor) :
    (c.namedParameter name).2.remaining ≤ c.remaining := by
  have h := remaining_capture_le (· == .comma) c.advance
  rw [remaining_advance] at h
  unfold namedParameter
  split
  · split
    · simp
    · exact Nat.le_trans h (Nat.sub_le _ _)
  · split
    · exact Nat.le_trans h (Nat.sub_le _ _)
    · exact Nat.le_refl _

theorem remaining_parameter_le (c : Cursor) : c.parameter.2.remaining ≤ c.remaining := by
  have h := remaining_namedParameter_le c.text c.advance
  rw [remaining_advance] at h
  unfold parameter
  split
  · split
    · simp only [remaining_advance]
      omega
    · simp only [remaining_advance]
      omega
  · split
    · exact Nat.le_trans h (Nat.sub_le _ _)
    · exact Nat.le_refl _

/-- Behind what is no parameter, reading goes on at the next comma or at the end of the list. -/
theorem remaining_resumed_le (first : Option Parameter × Cursor) :
    (match first.1 with
      | some _ => first.2
      | none => (first.2.report (.expectedParameter first.2.text)).skipWhile
          fun k => k != .comma && k != .rightParen : Cursor).remaining ≤ first.2.remaining := by
  split
  · exact Nat.le_refl _
  · exact remaining_skipWhile_le _ _

/-- Parameters with commas between them, up to a closing parenthesis. What is no parameter is
reported and skipped. -/
def parametersFrom (c : Cursor) : List Parameter × Cursor :=
  if c.kind == .rightParen || c.kind == .eof then ([], c)
  else
    let first := c.parameter
    let after := match first.1 with
      | some _ => first.2
      | none => (first.2.report (.expectedParameter first.2.text)).skipWhile
          fun k => k != .comma && k != .rightParen
    if _h : after.kind = .comma then
      let more := after.advance.parametersFrom
      (first.1.toList ++ more.1, more.2)
    else (first.1.toList, after)
termination_by c.remaining
decreasing_by
  have h₁ : first.2.remaining ≤ c.remaining := remaining_parameter_le c
  have h₂ : after.remaining ≤ first.2.remaining := remaining_resumed_le first
  have h₃ := remaining_pos_of_kind _h (by decide)
  exact Nat.lt_of_le_of_lt (Nat.le_of_eq (remaining_advance after)) (by omega)

/-- Parameters in parentheses. The current token is the opening one. -/
def parenthesizedParameters (c : Cursor) : List Parameter × Cursor :=
  let params := c.advance.parametersFrom
  (params.1, (params.2.expect .rightParen .expectedCloseParen).2)

/-- Parameters without parentheses, with commas between them. -/
def bareParameters (c : Cursor) : List Parameter × Cursor :=
  if c.atStatementEnd then ([], c)
  else
    let first := c.parameter
    if first.1.isSome then
      if _h : first.2.kind = .comma then
        let more := first.2.advance.bareParameters
        (first.1.toList ++ more.1, more.2)
      else (first.1.toList, first.2)
    else ([], first.2)
termination_by c.remaining
decreasing_by
  have h₁ : first.2.remaining ≤ c.remaining := remaining_parameter_le c
  have h₂ := remaining_pos_of_kind _h (by decide)
  exact Nat.lt_of_le_of_lt (Nat.le_of_eq (remaining_advance first.2)) (by omega)

/-- The parameters of a method. -/
def parameters (c : Cursor) : List Parameter × Cursor :=
  if c.kind == .leftParen then c.parenthesizedParameters else c.bareParameters

theorem remaining_parametersFrom_le (c : Cursor) :
    c.parametersFrom.2.remaining ≤ c.remaining := by
  fun_induction parametersFrom c with
  | case1 => exact Nat.le_refl _
  | case2 c _ first after h more ih =>
    have h₁ : first.2.remaining ≤ c.remaining := remaining_parameter_le c
    have h₂ : after.remaining ≤ first.2.remaining := remaining_resumed_le first
    rw [remaining_advance] at ih
    exact Nat.le_trans ih (by omega)
  | case3 c _ first after h =>
    have h₁ : first.2.remaining ≤ c.remaining := remaining_parameter_le c
    have h₂ : after.remaining ≤ first.2.remaining := remaining_resumed_le first
    exact Nat.le_trans h₂ h₁

theorem remaining_bareParameters_le (c : Cursor) :
    c.bareParameters.2.remaining ≤ c.remaining := by
  fun_induction bareParameters c with
  | case1 => exact Nat.le_refl _
  | case2 c _ first _ h more ih =>
    have h₁ : first.2.remaining ≤ c.remaining := remaining_parameter_le c
    rw [remaining_advance] at ih
    exact Nat.le_trans ih (by omega)
  | case3 c => exact remaining_parameter_le c
  | case4 c => exact remaining_parameter_le c

theorem remaining_parameters_le (c : Cursor) : c.parameters.2.remaining ≤ c.remaining := by
  unfold parameters
  split
  · have h := remaining_parametersFrom_le c.advance
    rw [remaining_advance] at h
    exact Nat.le_trans (remaining_expect_le _ _ _) (Nat.le_trans h (Nat.sub_le _ _))
  · exact remaining_bareParameters_le c

end Cursor

end StubMerge
