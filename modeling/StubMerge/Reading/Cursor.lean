import StubMerge.Text.Blank
import StubMerge.Token.Layout
import StubMerge.Declaration.Outline
import StubMerge.Reading.Diagnostic

/-!
# A cursor over tokens

A `Cursor` holds the tokens still to be read and the problems reported so far. It moves in one
way only, `Cursor.skip`, and never back. So every reading function leaves at most as many tokens
as it was given, and one that skips its first token leaves fewer; the lemmas on
`Cursor.remaining` say so for each function, and the loops of the reader end by them.

Beyond the last token stands the token that marks the end of the text. It can be looked at and
reported on, but not passed.
-/

namespace StubMerge

/-- A place among the tokens of a text. -/
structure Cursor where
  /-- The file that the text is from. -/
  file : Option String
  /-- The tokens still to be read. -/
  rest : List Token
  /-- The token that marks the end of the text. -/
  close : Token
  /-- The end of the last token that was read. -/
  consumed : Position := .origin
  /-- The problems found so far. -/
  diagnostics : Array Diagnostic := #[]
deriving Repr

namespace Cursor

/-- The cursor before the first token. -/
def ofTokens (file : Option String) (ts : TokenList) : Cursor :=
  { file, rest := ts.tokens, close := ts.close }

/-! ## Looking -/

/-- The token `n` places on. -/
def nth (c : Cursor) (n : Nat) : Token := c.rest.getD n c.close

/-- The current token. -/
def peek (c : Cursor) : Token := c.nth 0

/-- The kind of the token `n` places on. -/
def nthKind (c : Cursor) (n : Nat) : TokenKind := (c.rest[n]?).elim .eof Token.kind

/-- The kind of the current token. -/
def kind (c : Cursor) : TokenKind := c.nthKind 0

/-- The text of the current token. -/
def text (c : Cursor) : String := c.peek.text

/-- How many tokens are still to be read. -/
def remaining (c : Cursor) : Nat := c.rest.length

/-- Whether the statement ends here, perhaps in a comment. -/
def atStatementEnd (c : Cursor) : Bool := c.kind.endsStatement || c.kind == .comment

theorem remaining_pos {c : Cursor} (h : c.kind ≠ .eof) : 0 < c.remaining := by
  unfold kind nthKind at h
  unfold remaining
  cases hr : c.rest with
  | nil => simp [hr] at h
  | cons => simp

theorem remaining_pos_of_kind {c : Cursor} {k : TokenKind} (h : c.kind = k) (hk : k ≠ .eof) :
    0 < c.remaining :=
  remaining_pos (h ▸ hk)

/-! ## Moving -/

/-- The cursor `n` tokens on. -/
def skip (c : Cursor) (n : Nat) : Cursor :=
  { c with
    rest := c.rest.drop n
    consumed := ((c.rest.take n).getLast?).elim c.consumed Token.stop }

/-- The cursor after the current token. -/
def advance (c : Cursor) : Cursor := c.skip 1

/-- The cursor after the tokens whose kinds `p` holds of. -/
def skipWhile (p : TokenKind → Bool) (c : Cursor) : Cursor :=
  c.skip (c.rest.takeWhile fun t => p t.kind).length

/-- The cursor after the line breaks that come next. -/
def skipNewlines (c : Cursor) : Cursor := c.skipWhile (· == .newline)

@[simp] theorem remaining_skip (c : Cursor) (n : Nat) :
    (c.skip n).remaining = c.remaining - n := by simp [skip, remaining]

@[simp] theorem remaining_advance (c : Cursor) : c.advance.remaining = c.remaining - 1 :=
  c.remaining_skip 1

theorem remaining_skipWhile_le (p : TokenKind → Bool) (c : Cursor) :
    (c.skipWhile p).remaining ≤ c.remaining := by simp [skipWhile]

theorem remaining_skipNewlines_le (c : Cursor) : c.skipNewlines.remaining ≤ c.remaining :=
  remaining_skipWhile_le _ c

/-! ## Reporting -/

/-- The cursor with a problem reported at the current token. -/
def report (p : Problem) (c : Cursor) : Cursor :=
  { c with diagnostics := c.diagnostics.push ⟨p, c.peek.start, c.peek.stop⟩ }

/-- The cursor with a problem reported if there is something wrong. -/
def reportIf (wrong : Bool) (p : Problem) (c : Cursor) : Cursor :=
  if wrong then c.report p else c

/-- The cursor with several problems reported at the current token. -/
def reportAll (ps : List Problem) (c : Cursor) : Cursor := ps.foldl (fun c p => c.report p) c

@[simp] theorem remaining_report (p : Problem) (c : Cursor) :
    (c.report p).remaining = c.remaining := rfl

@[simp] theorem remaining_reportIf (wrong : Bool) (p : Problem) (c : Cursor) :
    (c.reportIf wrong p).remaining = c.remaining := by
  unfold reportIf; split <;> rfl

@[simp] theorem remaining_reportAll (ps : List Problem) (c : Cursor) :
    (c.reportAll ps).remaining = c.remaining := by
  induction ps generalizing c with
  | nil => rfl
  | cons p ps ih => exact ih (c.report p)

/-! ## Expecting -/

/-- Passes a token of kind `k`, and says whether there was one. -/
def eat (k : TokenKind) (c : Cursor) : Bool × Cursor :=
  if c.kind == k then (true, c.advance) else (false, c)

/-- Passes a token of kind `k`, or reports a problem and says that there was none. -/
def expect (k : TokenKind) (p : Problem) (c : Cursor) : Bool × Cursor :=
  if c.kind == k then (true, c.advance) else (false, c.report p)

theorem remaining_eat_le (k : TokenKind) (c : Cursor) :
    (c.eat k).2.remaining ≤ c.remaining := by
  unfold eat; split <;> simp

theorem remaining_expect_le (k : TokenKind) (p : Problem) (c : Cursor) :
    (c.expect k p).2.remaining ≤ c.remaining := by
  unfold expect; split <;> simp

/-! ## Recovering -/

/-- Skips the rest of the statement and what ends it. -/
def recover (c : Cursor) : Cursor := (c.skipWhile fun k => !k.endsStatement).advance

/-- Ends a statement: what is left of it is reported and skipped. -/
def endStatement (c : Cursor) : Cursor :=
  if c.atStatementEnd then c
  else (c.report (.unexpected c.text)).skipWhile fun k => !(k.endsStatement || k == .comment)

theorem remaining_recover_le (c : Cursor) : c.recover.remaining ≤ c.remaining - 1 := by
  unfold recover
  have := remaining_skipWhile_le (fun k => !k.endsStatement) c
  simp only [remaining_advance]
  omega

theorem remaining_endStatement_le (c : Cursor) : c.endStatement.remaining ≤ c.remaining := by
  unfold endStatement
  split
  · exact Nat.le_refl _
  · exact remaining_skipWhile_le _ _

/-- How many tokens stand before the word that ends a block, where `depth` blocks are open
inside it. -/
def blockLength (depth : Nat) : List Token → Nat
  | [] => 0
  | t :: later =>
    match t.kind with
    | .endWord => if depth == 0 then 0 else blockLength (depth - 1) later + 1
    | .defWord | .classWord | .moduleWord | .doWord => blockLength (depth + 1) later + 1
    | _ => blockLength depth later + 1

/-- Skips a block whose opening was read, up to and with the word that ends it. `warning` is
reported at the first token that is neither the end nor a line break nor a comment. -/
def skipBlock (warning : Option Problem) (c : Cursor) : Cursor :=
  let c := c.skipWhile fun k => k == .newline || k == .semicolon || k == .comment
  let c : Cursor := match warning with
    | some p => c.reportIf (c.kind != .eof && c.kind != .endWord) p
    | none => c
  let c := c.skip (blockLength 0 c.rest)
  (c.expect .endWord .expectedEnd).2

theorem remaining_skipBlock_le (warning : Option Problem) (c : Cursor) :
    (c.skipBlock warning).remaining ≤ c.remaining := by
  unfold skipBlock
  refine Nat.le_trans (remaining_expect_le _ _ _) ?_
  rw [remaining_skip]
  have := remaining_skipWhile_le (fun k => k == .newline || k == .semicolon || k == .comment) c
  split <;> simp <;> omega

/-! ## Comments and locations -/

/-- The text of a comment, without its mark and the blank after it. -/
def commentText (c : Cursor) : String :=
  Text.trimEnd (Text.afterOrAll " " (Text.afterOrAll "#" c.text))

/-- The part of the file from `start` to the last token that was read. -/
def location (c : Cursor) (start : Position) : Location where
  file := c.file
  beginLine := start.line
  beginColumn := start.column
  endLine := c.consumed.line
  endColumn := c.consumed.column

end Cursor

end StubMerge
