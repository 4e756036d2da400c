import StubMerge.Token.Basic

/-!
# Scanning

A `Scanner` stands at a point of a text and cuts off one token at a time. `gapLength` says how
many characters stand before the next token — blanks, carriage returns and line breaks behind a
backslash — and `lexeme` says how many characters the token takes and of what kind it is. Both
only count; `Scanner.skip` does the cutting. So no character is lost or read twice, whatever
the two counts are, and a scan ends because every token but the last takes a character.

Two rules look beyond the token itself. A colon starts a symbol unless the character before it
ends a value, so `x:y` is a name, a colon and a name while `x :y` ends in a symbol. And the end
of the text is also what a NUL character means when it is the last one.
-/

namespace StubMerge

/-! ## Character classes -/

/-- The first characters of an identifier. -/
def isIdentifierStart (c : Char) : Bool := c.isAlpha || c == '_'

/-- The further characters of an identifier. -/
def isIdentifierRest (c : Char) : Bool := c.isAlphanum || c == '_'

/-- The characters of operators. -/
def isOperator (c : Char) : Bool := "/-+%>!|^~?<=&*".toList.contains c

/-- The characters after which a colon cannot start a symbol. -/
def endsValue (c : Char) : Bool := isIdentifierRest c || c == ')' || c == ']' || c == '\x7d'

/-- The characters of a number, a decimal point apart. -/
def isNumberRest (c : Char) : Bool :=
  c.isDigit || c == '_' || ('a' ≤ c && c ≤ 'f') || ('A' ≤ c && c ≤ 'F') || c == 'x' || c == 'o'

/-! ## Counting characters -/

/-- How many characters `p` holds of before the first it does not hold of. -/
def runLength (p : Char → Bool) (cs : List Char) : Nat := (cs.takeWhile p).length

/-- How many characters stand before the next token. -/
def gapLength : List Char → Nat
  | '\\' :: '\n' :: cs => gapLength cs + 2
  | c :: cs => if c == ' ' || c == '\t' || c == '\r' then gapLength cs + 1 else 0
  | [] => 0

/-- How many characters a string takes after its opening `quote`. A backslash takes the next
character with it, and a string that is not closed takes the rest of the text. -/
def stringLength (quote : Char) : List Char → Nat
  | [] => 0
  | ['\\'] => 1
  | '\\' :: _ :: cs => stringLength quote cs + 2
  | c :: cs => if c == quote then 1 else stringLength quote cs + 1

/-- How many characters a number takes after its first digit. A point belongs to it only in
front of a digit. -/
def numberLength : List Char → Nat
  | [] => 0
  | c :: cs =>
    if isNumberRest c || (c == '.' && (cs.head?.any Char.isDigit)) then numberLength cs + 1
    else 0

/-- Whether the question or exclamation mark that may end a method name comes next. In front of
an equals sign it is the start of an operator instead. -/
def suffixLength : List Char → Nat
  | c :: cs => if (c == '?' || c == '!') && cs.head? != some '=' then 1 else 0
  | [] => 0

/-- How many characters an identifier takes after its first, a method suffix included. -/
def nameLength (cs : List Char) : Nat :=
  let n := runLength isIdentifierRest cs
  n + suffixLength (cs.drop n)

/-- How many characters a bare symbol takes after its colon: a name, and an equals sign unless
that starts another operator. -/
def symbolLength (cs : List Char) : Nat :=
  let n := nameLength cs
  match cs.drop n with
  | '=' :: rest =>
    if rest.head? == some '>' || rest.head? == some '=' || rest.head? == some '~' then n
    else n + 1
  | _ => n

/-! ## One token -/

/-- The kind of a word that starts with a small letter or an underscore. -/
def wordKind (word : List Char) : TokenKind :=
  if word == "class".toList then .classWord
  else if word == "module".toList then .moduleWord
  else if word == "def".toList then .defWord
  else if word == "end".toList then .endWord
  else if word == "self".toList then .selfWord
  else if word == "do".toList then .doWord
  else .name

/-- The kind of a token that starts with a colon, and how many characters it takes after it. -/
def colonLexeme (previous : Char) (cs : List Char) : TokenKind × Nat :=
  match cs with
  | [] => (.colon, 0)
  | c :: rest =>
    if c == ':' then (.pathSeparator, 1)
    else if endsValue previous then (.colon, 0)
    else if isIdentifierStart c then (.symbol, symbolLength cs)
    else if c == '"' || c == '\'' then (.symbol, stringLength c rest + 1)
    else (.colon, 0)

/-- The kind of the token that starts with `first` and goes on in `cs`, and how many characters
of `cs` it takes. `previous` is the character before `first`. -/
def lexeme (previous first : Char) (cs : List Char) : TokenKind × Nat :=
  match first with
  | '(' => (.leftParen, 0)
  | ')' => (.rightParen, 0)
  | '[' => (.leftBracket, 0)
  | ']' => (.rightBracket, 0)
  | '\x7b' => (.leftBrace, 0)
  | '\x7d' => (.rightBrace, 0)
  | ',' => (.comma, 0)
  | ';' => (.semicolon, 0)
  | '\n' => (.newline, 0)
  | '.' => if cs.head? == some '.' then (.operator, runLength (· == '.') cs) else (.dot, 0)
  | '#' => (.comment, runLength (· != '\n') cs)
  | ':' => colonLexeme previous cs
  | '=' =>
    if cs.head? == some '>' then (.fatArrow, 1)
    else if cs.head? == some '=' || cs.head? == some '~' then
      (.operator, runLength (fun c => c == '=' || c == '~') cs)
    else (.equals, 0)
  | '<' =>
    if cs.head? == some '<' then (.shiftLeft, 1)
    else if cs.head? == some '=' then (.operator, runLength (fun c => c == '=' || c == '>') cs)
    else (.less, 0)
  | '*' => if cs.head? == some '*' then (.doubleStar, 1) else (.star, 0)
  | '&' =>
    if cs.head? == some '&' || cs.head? == some '.' then (.operator, 1) else (.ampersand, 0)
  | '"' => (.string, stringLength '"' cs)
  | '\'' => (.string, stringLength '\'' cs)
  | '@' =>
    let n := runLength (· == '@') cs
    (.instanceVariable, n + runLength isIdentifierRest (cs.drop n))
  | '$' => (.name, runLength isIdentifierRest cs)
  | c =>
    if c.isDigit then (.number, numberLength cs)
    else if c.isUpper then (.const, runLength isIdentifierRest cs)
    else if isIdentifierStart c then
      let n := nameLength cs
      (wordKind (c :: cs.take n), n)
    else if c == '\x00' && cs.isEmpty then (.eof, 0)
    else if isOperator c then (.operator, runLength isOperator cs)
    else (.unknown, 0)

/-! ## The scanner -/

/-- A point of a text, with what is left of the text and the character before the point. -/
structure Scanner where
  rest : List Char
  previous : Char
  position : Position
deriving Repr

namespace Scanner

/-- The scanner before the first character. -/
def ofText (text : String) : Scanner := ⟨text.toList, '\x00', .origin⟩

/-- The scanner `n` characters on. -/
def skip (s : Scanner) (n : Nat) : Scanner where
  rest := s.rest.drop n
  previous := (s.rest.take n).getLastD s.previous
  position := s.position.advance (s.rest.take n)

/-- The scanner before the next token. -/
def skipGap (s : Scanner) : Scanner := s.skip (gapLength s.rest)

/-- The token that starts at the point, and the scanner after it. At the end of the text that is
an empty token of kind `eof`. -/
def cut (s : Scanner) : Token × Scanner :=
  match s.rest with
  | [] => (⟨.eof, "", s.position, s.position⟩, s)
  | c :: cs =>
    let (kind, n) := lexeme s.previous c cs
    let after := s.skip (n + 1)
    (⟨kind, String.ofList (c :: cs.take n), s.position, after.position⟩, after)

/-- The next token, and the scanner after it. At the end of the text one gets the end again, as
often as one asks. -/
def next (s : Scanner) : Token × Scanner := s.skipGap.cut

/-- The first `n` tokens. -/
def take (s : Scanner) : Nat → List Token
  | 0 => []
  | n + 1 => s.next.1 :: s.next.2.take n

theorem length_skip_le (s : Scanner) (n : Nat) : (s.skip n).rest.length ≤ s.rest.length := by
  simp [skip]

theorem length_cut_lt {s : Scanner} (h : s.cut.1.kind ≠ .eof) :
    s.cut.2.rest.length < s.rest.length := by
  unfold cut at h ⊢
  split
  · simp_all
  · next c cs heq =>
    simp only [skip, heq, List.drop_succ_cons, List.length_drop, List.length_cons]
    omega

/-- A token that is not the end of the text takes at least one character. -/
theorem length_next_lt {s : Scanner} (h : s.next.1.kind ≠ .eof) :
    s.next.2.rest.length < s.rest.length :=
  Nat.lt_of_lt_of_le (length_cut_lt h) (length_skip_le s _)

end Scanner

/-- The tokens of a text: those before the end, and the one that marks the end. -/
structure TokenList where
  tokens : List Token
  close : Token
deriving DecidableEq, Repr, Inhabited

/-- All tokens of what is left. -/
def Scanner.run (s : Scanner) : TokenList :=
  if _h : s.next.1.kind = .eof then ⟨[], s.next.1⟩
  else
    let later := s.next.2.run
    ⟨s.next.1 :: later.tokens, later.close⟩
termination_by s.rest.length
decreasing_by exact length_next_lt _h

/-- All tokens of a text. -/
def TokenList.ofText (text : String) : TokenList := (Scanner.ofText text).run

/-- The tokens in order, the end of the text last. -/
def TokenList.toList (ts : TokenList) : List Token := ts.tokens ++ [ts.close]

end StubMerge
