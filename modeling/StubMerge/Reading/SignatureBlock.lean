import StubMerge.Text.Split
import StubMerge.Reading.Capture
import StubMerge.Declaration.Signature

/-!
# Reading signatures

A signature is a block in braces or between two words, and in it a chain of builder calls with
dots between them. Each call sets one field; a later call of the same name wins. A call that
is not known is skipped with a warning, and anything else is skipped up to the next dot.
-/

namespace StubMerge

namespace Cursor

/-! ## Typed names -/

/-- Names with their types, and commas between them. -/
def typedNamesFrom (c : Cursor) : List TypedName × Cursor :=
  if c.kind == .rightParen || c.kind == .eof then ([], c)
  else if c.nthKind 1 != .colon then ([], c.report .expectedTypedName)
  else
    let type := c.advance.advance.capture (· == .comma)
    let first : TypedName := ⟨c.text, type.1⟩
    if _h : type.2.kind = .comma then
      let more := type.2.advance.typedNamesFrom
      (first :: more.1, more.2)
    else ([first], type.2)
termination_by c.remaining
decreasing_by
  have h₁ : type.2.remaining ≤ c.advance.advance.remaining := remaining_capture_le _ _
  have h₂ := remaining_pos_of_kind _h (by decide)
  simp only [remaining_advance] at h₁
  exact Nat.lt_of_le_of_lt (Nat.le_of_eq (remaining_advance type.2)) (by omega)

theorem remaining_typedNamesFrom_le (c : Cursor) :
    c.typedNamesFrom.2.remaining ≤ c.remaining := by
  fun_induction typedNamesFrom c with
  | case1 => exact Nat.le_refl _
  | case2 => exact Nat.le_refl _
  | case3 c _ _ type first h more ih =>
    have h₁ : type.2.remaining ≤ c.advance.advance.remaining := remaining_capture_le _ _
    simp only [remaining_advance] at h₁ ih
    exact Nat.le_trans ih (by omega)
  | case4 c _ _ type first h =>
    have h₁ : type.2.remaining ≤ c.advance.advance.remaining := remaining_capture_le _ _
    simp only [remaining_advance] at h₁
    exact Nat.le_trans h₁ (by omega)

/-- Typed names in parentheses. -/
def typedNames (c : Cursor) : List TypedName × Cursor :=
  let opened := c.expect .leftParen .expectedOpenParen
  if opened.1 then
    let names := opened.2.typedNamesFrom
    (names.1,
      ((names.2.skipWhile (· != .rightParen)).expect .rightParen .expectedCloseParen).2)
  else ([], opened.2)

theorem remaining_typedNames_le (c : Cursor) : c.typedNames.2.remaining ≤ c.remaining := by
  dsimp only [typedNames]
  have h₁ := remaining_expect_le .leftParen .expectedOpenParen c
  split
  · refine Nat.le_trans (remaining_expect_le _ _ _) ?_
    refine Nat.le_trans (remaining_skipWhile_le _ _) ?_
    exact Nat.le_trans (remaining_typedNamesFrom_le _) h₁
  · exact h₁

/-! ## Builder calls -/

/-- A builder call of a name that means nothing here: its arguments are skipped. -/
def unknownBuilder (s : Signature) (c : Cursor) : Signature × Cursor :=
  let after := c.advance.report (.ignoredBuilder c.text)
  if after.kind == .leftParen then (s, after.captureGroup.2) else (s, after)

/-- A builder call, by its name. -/
def namedBuilder (s : Signature) (c : Cursor) : Signature × Cursor :=
  match c.text with
  | "abstract" => ({ s with isAbstract := true }, c.advance)
  | "overridable" => ({ s with isOverridable := true }, c.advance)
  | "void" => ({ s with result := none }, c.advance)
  | "override" =>
    let s := { s with isOverride := true }
    if c.advance.kind == .leftParen then
      let group := c.advance.captureGroup
      let allow := Text.contains "allow_incompatible: true" group.1
      ({ s with allowIncompatible := allow }, group.2)
    else (s, c.advance)
  | "returns" =>
    let group := c.advance.captureGroup
    ({ s with result := some group.1 }, group.2)
  | "checked" =>
    let group := c.advance.captureGroup
    ({ s with checked := some group.1 }, group.2)
  | "params" =>
    let names := c.advance.typedNames
    ({ s with params := names.1 }, names.2)
  | "type_parameters" =>
    let group := c.advance.captureGroup
    let names := (Text.split ',' group.1).map fun name => symbolName (Text.trim name)
    ({ s with typeParams := names }, group.2)
  | _ => unknownBuilder s c

/-- One link of the chain of builder calls. `closer` is the kind of token that ends the chain. -/
def builder (closer : TokenKind) (s : Signature) (c : Cursor) : Signature × Cursor :=
  if c.kind == .name then namedBuilder s c
  else (s, (c.report (.expectedBuilder c.text)).skipWhile fun k => k != .dot && k != closer)

theorem remaining_unknownBuilder_le (s : Signature) (c : Cursor) :
    (unknownBuilder s c).2.remaining ≤ c.remaining := by
  have h := remaining_captureGroup_le (c.advance.report (.ignoredBuilder c.text))
  simp only [remaining_advance, remaining_report] at h
  dsimp only [unknownBuilder]
  split
  · exact Nat.le_trans h (Nat.sub_le _ _)
  · simp

theorem remaining_namedBuilder_le (s : Signature) (c : Cursor) :
    (namedBuilder s c).2.remaining ≤ c.remaining := by
  have h₁ := remaining_captureGroup_le c.advance
  have h₂ := remaining_typedNames_le c.advance
  have h₃ := remaining_unknownBuilder_le s c
  unfold namedBuilder
  split <;> (try split) <;> simp only [remaining_advance] at * <;> omega

theorem remaining_builder_le (closer : TokenKind) (s : Signature) (c : Cursor) :
    (builder closer s c).2.remaining ≤ c.remaining := by
  unfold builder
  split
  · exact remaining_namedBuilder_le s c
  · exact remaining_skipWhile_le _ _

/-- The chain of builder calls. -/
def builders (closer : TokenKind) (s : Signature) (c : Cursor) : Signature × Cursor :=
  if c.kind == closer || c.kind == .eof then (s, c)
  else
    let link := builder closer s c
    let after := link.2.skipNewlines
    if _h : after.kind = .dot then builders closer link.1 after.advance.skipNewlines
    else (link.1, after)
termination_by c.remaining
decreasing_by
  have h₁ : link.2.remaining ≤ c.remaining := remaining_builder_le closer s c
  have h₂ : after.remaining ≤ link.2.remaining := remaining_skipNewlines_le _
  have h₃ := remaining_pos_of_kind _h (by decide)
  have h₄ := remaining_skipNewlines_le after.advance
  simp only [remaining_advance] at h₄
  exact Nat.lt_of_le_of_lt h₄ (by omega)

theorem remaining_builders_le (closer : TokenKind) (s : Signature) (c : Cursor) :
    (builders closer s c).2.remaining ≤ c.remaining := by
  fun_induction builders closer s c with
  | case1 => exact Nat.le_refl _
  | case2 s c _ link after h ih =>
    have h₁ : link.2.remaining ≤ c.remaining := remaining_builder_le closer s c
    have h₂ : after.remaining ≤ link.2.remaining := remaining_skipNewlines_le _
    have h₃ := remaining_skipNewlines_le after.advance
    simp only [remaining_advance] at h₃
    exact Nat.le_trans ih (by omega)
  | case3 s c _ link after h =>
    exact Nat.le_trans (remaining_skipNewlines_le _) (remaining_builder_le closer s c)

/-! ## Whole signatures -/

/-- The argument of a signature, if it has one. -/
def signatureArgument (c : Cursor) : Signature × Cursor :=
  if c.kind == .leftParen then
    let group := c.captureGroup
    if group.1 == ":final" then ({ isFinal := true }, group.2)
    else ({}, group.2.report (.ignoredSignatureArgument group.1))
  else ({}, c)

/-- The kind of token that ends a signature block, by the kind that opens it. -/
def blockCloser? : TokenKind → Option TokenKind
  | .leftBrace => some .rightBrace
  | .doWord => some .endWord
  | _ => none

/-- A signature, if there is one to be had. The current token is the word that starts it. -/
def signature (c : Cursor) : Option Signature × Cursor :=
  let head := c.advance.signatureArgument
  match blockCloser? head.2.kind with
  | none => (none, (head.2.report .expectedSignatureBlock).recover)
  | some closer =>
    let chain := builders closer head.1 head.2.advance.skipNewlines
    (some chain.1, (chain.2.skipNewlines.expect closer .expectedSignatureEnd).2)

theorem remaining_signatureArgument_le (c : Cursor) :
    c.signatureArgument.2.remaining ≤ c.remaining := by
  have := remaining_captureGroup_le c
  dsimp only [signatureArgument]
  split
  · split <;> simpa using this
  · exact Nat.le_refl _

theorem remaining_signature_le (c : Cursor) : c.signature.2.remaining ≤ c.remaining - 1 := by
  have h₁ := remaining_signatureArgument_le c.advance
  rw [remaining_advance] at h₁
  dsimp only [signature]
  split
  · refine Nat.le_trans (remaining_recover_le _) ?_
    simp only [remaining_report]
    omega
  · refine Nat.le_trans (remaining_expect_le _ _ _) ?_
    refine Nat.le_trans (remaining_skipNewlines_le _) ?_
    refine Nat.le_trans (remaining_builders_le _ _ _) ?_
    refine Nat.le_trans (remaining_skipNewlines_le _) ?_
    rw [remaining_advance]
    omega

end Cursor

end StubMerge
