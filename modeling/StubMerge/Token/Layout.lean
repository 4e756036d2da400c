import StubMerge.Token.Scanner

/-!
# Line breaks that end a statement

A line break ends a statement unless the statement visibly goes on: inside brackets, after a
token that needs something to its right, or before a line that starts with a dot. Comments
inside brackets say nothing about a declaration. `TokenList.significant` leaves out both, so
that whoever reads declarations takes every line break for the end of a statement.
-/

namespace StubMerge

/-- The kinds of tokens after which a statement goes on in the next line. -/
def TokenKind.wantsMore : TokenKind → Bool
  | .comma | .dot | .pathSeparator | .equals | .fatArrow | .operator | .less => true
  | _ => false

/-- Whether the next line that is not empty starts with a dot. -/
def goesOnWithDot (later : List Token) : Bool :=
  (later.find? (fun t => t.kind != .newline)).any (fun t => t.kind == .dot)

/-- The tokens, each with whether the next line that is not empty starts with a dot. It is worked
out from the end, so that a long run of line breaks is looked through only once. -/
def withDots : List Token → List (Token × Bool)
  | [] => []
  | t :: later =>
    match withDots later with
    | [] => [(t, false)]
    | (next, dot) :: others =>
      (t, if next.kind == .newline then dot else next.kind == .dot) :: (next, dot) :: others

theorem withDots_cons (t : Token) (later : List Token) :
    withDots (t :: later) = (t, goesOnWithDot later) :: withDots later := by
  induction later generalizing t with
  | nil => rfl
  | cons next others ih =>
    rw [withDots, ih next]
    by_cases h : next.kind = .newline <;> simp [goesOnWithDot, h]

/-- Whether a token says nothing to whoever reads statements: a line break or a comment inside
brackets, or a line break where the statement goes on. `dot` says whether a dot comes next. -/
def isIdle (depth : Nat) (last : Option TokenKind) (t : Token) (dot : Bool) : Bool :=
  if depth > 0 then t.kind == .newline || t.kind == .comment
  else t.kind == .newline && (last.any TokenKind.wantsMore || dot)

/-- How many brackets are open after a token, where `depth` are open before it. -/
def depthAfter (depth : Nat) (k : TokenKind) : Nat :=
  if k.opensGroup then depth + 1 else if k.closesGroup then depth - 1 else depth

/-- The tokens that matter to statements. `depth` counts the brackets that are open, and `last`
is the kind of the last token kept. -/
def significantFrom (depth : Nat) (last : Option TokenKind) : List (Token × Bool) → List Token
  | [] => []
  | (t, dot) :: later =>
    if isIdle depth last t dot then significantFrom depth last later
    else t :: significantFrom (depthAfter depth t.kind) (some t.kind) later

/-- The tokens that matter to statements. -/
def TokenList.significant (ts : TokenList) : TokenList :=
  ⟨significantFrom 0 none (withDots ts.tokens), ts.close⟩

end StubMerge
