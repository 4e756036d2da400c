import StubMerge.Reading.Cursor

/-!
# Captured text

Types, values and arguments are not analysed: their tokens are *captured* and written back with
single blanks. A capture goes on until the statement ends or a bracket closes that was opened
before it; some captures also stop at a comma or another kind of token outside brackets.
-/

namespace StubMerge

namespace Cursor

/-- How many tokens a capture takes, where `depth` brackets are open inside it. -/
def captureLength (stop : TokenKind → Bool) (depth : Nat) : List Token → Nat
  | [] => 0
  | t :: later =>
    if depth == 0 && (t.kind.endsStatement || t.kind == .comment || stop t.kind) then 0
    else if t.kind.opensGroup then captureLength stop (depth + 1) later + 1
    else if t.kind.closesGroup then
      if depth == 0 then 0 else captureLength stop (depth - 1) later + 1
    else captureLength stop depth later + 1

/-- Whether captured text has a blank between two tokens: only where the text had a gap, and not
just inside brackets or before a comma. -/
def isSpaced (a b : Token) : Bool :=
  a.stop.offset < b.start.offset && a.kind != .leftParen && a.kind != .leftBracket
    && b.kind != .rightParen && b.kind != .rightBracket && b.kind != .comma

/-- The text of captured tokens. -/
def render : List Token → String
  | [] => ""
  | [t] => t.text
  | a :: b :: later => a.text ++ (if isSpaced a b then " " else "") ++ render (b :: later)

/-- Captures up to the end of the statement, a bracket that closes too much, or a token of a
kind that `stop` holds of. -/
def capture (stop : TokenKind → Bool) (c : Cursor) : String × Cursor :=
  let n := captureLength stop 0 c.rest
  (render (c.rest.take n), c.skip n)

/-- Captures with nothing but the end of the statement and closing brackets to stop at. -/
def captureAll (c : Cursor) : String × Cursor := c.capture fun _ => false

theorem remaining_capture_le (stop : TokenKind → Bool) (c : Cursor) :
    (c.capture stop).2.remaining ≤ c.remaining := by simp [capture]

theorem remaining_captureAll_le (c : Cursor) : c.captureAll.2.remaining ≤ c.remaining :=
  remaining_capture_le _ c

/-- Captures what stands between parentheses. -/
def captureGroup (c : Cursor) : String × Cursor :=
  let (opened, c) := c.expect .leftParen .expectedOpenParen
  if opened then
    let (inner, c) := c.captureAll
    (inner, (c.expect .rightParen .expectedCloseParen).2)
  else ("", c)

theorem remaining_captureGroup_le (c : Cursor) : c.captureGroup.2.remaining ≤ c.remaining := by
  unfold captureGroup
  have h₁ := remaining_expect_le .leftParen .expectedOpenParen c
  have h₂ := remaining_captureAll_le (c.expect .leftParen .expectedOpenParen).2
  have h₃ := remaining_expect_le .rightParen .expectedCloseParen
    (c.expect .leftParen .expectedOpenParen).2.captureAll.2
  simp only
  split <;> simp <;> omega

/-! ## Arguments -/

/-- The kinds of tokens that an argument stops at. -/
def endsArgument (k : TokenKind) : Bool := k == .comma || k == .doWord

/-- Arguments with commas between them. One without any token is left out. -/
def arguments (c : Cursor) : List String × Cursor :=
  let first := c.capture endsArgument
  let args := if first.1.isEmpty then [] else [first.1]
  if _h : first.2.kind = .comma then
    let more := first.2.advance.skipNewlines.arguments
    (args ++ more.1, more.2)
  else (args, first.2)
termination_by c.remaining
decreasing_by
  have h₁ : first.2.remaining ≤ c.remaining := remaining_capture_le endsArgument c
  have h₂ := remaining_pos_of_kind _h (by decide)
  have h₃ := remaining_skipNewlines_le first.2.advance
  simp only [remaining_advance] at h₃
  exact Nat.lt_of_le_of_lt h₃ (by omega)

theorem remaining_arguments_le (c : Cursor) : c.arguments.2.remaining ≤ c.remaining := by
  fun_induction arguments c with
  | case1 c first args h more ih =>
    have h₁ : first.2.remaining ≤ c.remaining := remaining_capture_le endsArgument c
    have h₂ := remaining_skipNewlines_le first.2.advance
    simp only [remaining_advance] at h₂
    exact Nat.le_trans ih (by omega)
  | case2 c first args h => exact remaining_capture_le endsArgument c

/-- The arguments of a call, in parentheses or up to the end of the statement. -/
def callArguments (c : Cursor) : List String × Cursor :=
  if c.kind == .leftParen then
    let (args, c) := c.advance.arguments
    (args, (c.expect .rightParen .expectedCloseParen).2)
  else c.arguments

theorem remaining_callArguments_le (c : Cursor) :
    c.callArguments.2.remaining ≤ c.remaining := by
  unfold callArguments
  have h₁ := remaining_arguments_le c.advance
  have h₂ := remaining_expect_le .rightParen .expectedCloseParen c.advance.arguments.2
  simp only [remaining_advance] at h₁
  split
  · simp; omega
  · exact remaining_arguments_le c

end Cursor

/-- The name that a symbol stands for: without its colon and without quotes. -/
def symbolName (text : String) : String :=
  Text.trimWhere (fun c => c == '"' || c == '\'') (Text.afterOrAll ":" text)

/-- Whether captured text is a symbol. -/
def isSymbol (text : String) : Bool := text.toList.head? == some ':'

end StubMerge
