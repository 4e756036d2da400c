import StubMerge.Reading.Statement

/-!
# Reading a file

A file is read statement by statement. A `Draft` holds what has been read: the scopes that are
open, innermost first, each with the declarations found in it so far, and the file around them.
A statement adds a declaration to the innermost scope or opens a new one; the word that ends a
scope adds it, with all that was found in it, to the scope around it.

The comments at the top of a file belong to the file when an empty line divides them from the
first declaration. Comments above a declaration belong to it, and so does one behind it on the
same line.
-/

namespace StubMerge

/-- A scope body that is being read. -/
structure Level where
  body : Body := {}
  members : Array Outline := #[]

/-- What has been read of a file. -/
structure Draft where
  /-- The open scopes, innermost first. -/
  inner : List (Opening × Level) := []
  /-- The file around them. -/
  root : Level := {}
  /-- The comments of the file itself. -/
  comments : List String := []
  /-- Whether the last statement was a line break. -/
  afterBreak : Bool := false

namespace Draft

/-- The innermost body. -/
def current (d : Draft) : Level :=
  match d.inner with
  | [] => d.root
  | (_, level) :: _ => level

/-- The draft with another innermost body. -/
def setCurrent (level : Level) (d : Draft) : Draft :=
  match d.inner with
  | [] => { d with root := level }
  | (opening, _) :: outer => { d with inner := (opening, level) :: outer }

/-- The draft with what the innermost body leaves to its next statement. -/
def setBody (body : Body) (d : Draft) : Draft := d.setCurrent { d.current with body }

/-- The draft with a declaration more in the innermost body. -/
def add (node : Outline) (d : Draft) : Draft :=
  d.setCurrent { d.current with members := d.current.members.push node }

@[simp] theorem length_inner_setCurrent (level : Level) (d : Draft) :
    (d.setCurrent level).inner.length = d.inner.length := by
  unfold setCurrent
  split
  · rfl
  · next h => simp [h]

@[simp] theorem length_inner_add (node : Outline) (d : Draft) :
    (d.add node).inner.length = d.inner.length := length_inner_setCurrent _ d

/-- The draft with a scope more that is open. -/
def push (opening : Opening) (d : Draft) : Draft :=
  { d with inner := (opening, {}) :: d.inner }

/-- The draft after a line break. A second one in a row divides comments from the file below,
as long as nothing is declared. -/
def lineBreak (d : Draft) : Draft :=
  if d.afterBreak && d.inner.isEmpty && d.root.members.isEmpty then
    { d with
      comments := d.comments ++ d.root.body.comments
      root := { d.root with body := { d.root.body with comments := [] } } }
  else { d with afterBreak := true }

/-- The draft with a comment more above the next declaration. -/
def comment (text : String) (d : Draft) : Draft :=
  let body := d.current.body
  d.setBody { body with comments := body.comments ++ [text] }

end Draft

namespace Cursor

/-- A declaration with the comment behind it on the same line, if there is one. -/
def trailingComment (node : Outline) (c : Cursor) : Outline × Cursor :=
  if c.kind == .comment then (node.addComments [c.commentText], c.advance) else (node, c)

/-- Reports signatures that nothing followed. -/
def endBody (b : Body) (c : Cursor) : Cursor :=
  c.reportIf (!b.signatures.isEmpty) .danglingSignature

/-- Ends the innermost scope: its word is passed, or missed. -/
def closeScope (opening : Opening) (level : Level) (c : Cursor) : Outline × Cursor :=
  let after := ((c.endBody level.body).expect .endWord .expectedEnd).2
  let entry : Entry :=
    { kind := .scope opening.scope
      comments := opening.comments
      location := some (after.location opening.start) }
  after.trailingComment (.node entry level.members.toList)

theorem remaining_trailingComment_le (node : Outline) (c : Cursor) :
    (c.trailingComment node).2.remaining ≤ c.remaining := by
  unfold trailingComment; split <;> simp

theorem remaining_closeScope_lt {opening : Opening} {level : Level} {c : Cursor}
    (h : c.kind = .endWord) : (c.closeScope opening level).2.remaining < c.remaining := by
  have hpos := remaining_pos_of_kind h (by decide)
  have hkind : (c.endBody level.body).kind = .endWord := by
    unfold endBody reportIf
    split <;> exact h
  refine Nat.lt_of_le_of_lt (remaining_trailingComment_le _ _) ?_
  rw [expect, hkind, beq_self_eq_true, if_pos rfl, remaining_advance, endBody, remaining_reportIf]
  omega

end Cursor

/-- What makes reading fail as a whole. -/
inductive ReadError where
  /-- A visibility word stands in front of something that declares nothing. -/
  | strayVisibility
deriving DecidableEq, Repr, Inhabited

/-- What is said about a failure. -/
def ReadError.message : ReadError → String
  | strayVisibility => "Marker must be either completed or abandoned"

namespace Draft

/-- The draft and the cursor after one statement, of which there is at least one token. -/
def step (d : Draft) (c : Cursor) : Except ReadError (Draft × Cursor) :=
  match c.kind with
  | .newline => .ok (d.lineBreak, c.advance)
  | .semicolon => .ok ({ d with afterBreak := false }, c.advance)
  | .comment => .ok ({ d.comment c.commentText with afterBreak := false }, c.advance)
  | .endWord =>
    match d.inner with
    | [] => .ok ({ d with afterBreak := false }, (c.report .unexpectedEnd).advance)
    | (opening, level) :: outer =>
      let closed := c.closeScope opening level
      .ok (({ d with inner := outer, afterBreak := false } : Draft).add closed.1, closed.2)
  | _ =>
    let s := c.statement d.current.body
    let d := { d.setBody s.body with afterBreak := false }
    match s.outcome with
    | .nothing => .ok (d, s.cursor)
    | .declares entry =>
      let node := s.cursor.trailingComment (.node entry [])
      .ok (d.add node.1, node.2)
    | .opens opening => .ok (d.push opening, s.cursor)
    | .broken => .error .strayVisibility

/-- The ways in which a statement can change a draft and a cursor. -/
inductive Steps (d : Draft) (c : Cursor) : Draft → Cursor → Prop where
  | lineBreak (hk : c.kind = .newline) : Steps d c d.lineBreak c.advance
  | semicolon (hk : c.kind = .semicolon) : Steps d c { d with afterBreak := false } c.advance
  | comment (hk : c.kind = .comment) :
    Steps d c { d.comment c.commentText with afterBreak := false } c.advance
  | strayEnd (hk : c.kind = .endWord) (hinner : d.inner = []) :
    Steps d c { d with afterBreak := false } (c.report .unexpectedEnd).advance
  | close {opening : Opening} {level : Level} {outer : List (Opening × Level)}
    (hk : c.kind = .endWord) (hinner : d.inner = (opening, level) :: outer) :
    Steps d c
      (({ d with inner := outer, afterBreak := false } : Draft).add (c.closeScope opening level).1)
      (c.closeScope opening level).2
  | nothing {s : Statement} (hs : c.statement d.current.body = s) (ho : s.outcome = .nothing) :
    Steps d c { d.setBody s.body with afterBreak := false } s.cursor
  | declares {s : Statement} {entry : Entry} (hs : c.statement d.current.body = s)
    (ho : s.outcome = .declares entry) :
    Steps d c
      (({ d.setBody s.body with afterBreak := false } : Draft).add
        (s.cursor.trailingComment (.node entry [])).1)
      (s.cursor.trailingComment (.node entry [])).2
  | opens {s : Statement} {opening : Opening} (hs : c.statement d.current.body = s)
    (ho : s.outcome = .opens opening) :
    Steps d c (({ d.setBody s.body with afterBreak := false } : Draft).push opening) s.cursor

theorem steps_of_step {d d' : Draft} {c c' : Cursor} (h : d.step c = .ok (d', c')) :
    Steps d c d' c' := by
  unfold step at h
  split at h
  · next hk => cases h; exact .lineBreak hk
  · next hk => cases h; exact .semicolon hk
  · next hk => cases h; exact .comment hk
  · next hk =>
    split at h
    · next hinner => cases h; exact .strayEnd hk hinner
    · next hinner => cases h; exact .close hk hinner
  · dsimp only at h
    split at h
    · next ho => cases h; exact .nothing rfl ho
    · next ho => cases h; exact .declares rfl ho
    · next ho => cases h; exact .opens rfl ho
    · cases h

theorem remaining_step_lt {d d' : Draft} {c c' : Cursor} (hc : c.kind ≠ .eof)
    (h : d.step c = .ok (d', c')) : c'.remaining < c.remaining := by
  have hpos := Cursor.remaining_pos hc
  have hadvance : c.advance.remaining < c.remaining := by
    rw [Cursor.remaining_advance]
    omega
  have hstatement : (c.statement d.current.body).cursor.remaining < c.remaining :=
    Nat.lt_of_le_of_lt (Cursor.remaining_statement_le d.current.body c) (by omega)
  cases steps_of_step h with
  | lineBreak => exact hadvance
  | semicolon => exact hadvance
  | comment => exact hadvance
  | strayEnd => exact hadvance
  | close hk => exact Cursor.remaining_closeScope_lt hk
  | nothing hs => exact hs ▸ hstatement
  | declares hs =>
    exact Nat.lt_of_le_of_lt (Cursor.remaining_trailingComment_le _ _) (hs ▸ hstatement)
  | opens hs => exact hs ▸ hstatement

/-- Ends all open scopes at the end of the file. -/
def closeAll (d : Draft) (c : Cursor) : Draft × Cursor :=
  match _h : d.inner with
  | [] => (d, c)
  | (opening, level) :: outer =>
    let closed := c.closeScope opening level
    closeAll (({ d with inner := outer } : Draft).add closed.1) closed.2
termination_by d.inner.length
decreasing_by simp [_h]

end Draft

/-- A file that was read. -/
structure Reading where
  root : Outline
  diagnostics : List Diagnostic

/-- Whether reading found an error. -/
def Reading.hasErrors (r : Reading) : Bool := r.diagnostics.any Diagnostic.isError

namespace Draft

/-- The file, at its end. -/
def finish (d : Draft) (c : Cursor) : Reading :=
  let all := d.closeAll c
  let last := all.2.endBody all.1.root.body
  { root := .node { comments := all.1.comments } all.1.root.members.toList
    diagnostics := (last.reportIf (last.kind != .eof) .expectedEndOfFile).diagnostics.toList }

/-- Reads statements to the end of the file. -/
def run (d : Draft) (c : Cursor) : Except ReadError Reading :=
  if _hc : c.kind = .eof then .ok (d.finish c)
  else
    match _h : d.step c with
    | .error e => .error e
    | .ok (d', c') => d'.run c'
termination_by c.remaining
decreasing_by exact remaining_step_lt _hc _h

end Draft

/-- Reads a text. Locations carry the name of the file, if one is given. -/
def read (text : String) (file : Option String) : Except ReadError Reading :=
  Draft.run {} (Cursor.ofTokens file (TokenList.ofText text).significant)

end StubMerge
