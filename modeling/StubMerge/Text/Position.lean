/-!
# Places in a text

A `Position` is a point between two characters. It counts bytes of the UTF-8 form from the
start of the text, lines from one, and bytes from the start of the line; only a line feed ends
a line. Walking over a text character by character keeps the three in step.
-/

namespace StubMerge

/-- A point between two characters of a text. -/
structure Position where
  /-- Bytes before the point. -/
  offset : Nat
  /-- The line that the point is on, counted from one. -/
  line : Nat
  /-- Bytes between the start of the line and the point. -/
  column : Nat
deriving DecidableEq, Repr, Inhabited

namespace Position

/-- The point before the first character. -/
def origin : Position := ⟨0, 1, 0⟩

/-- The point after `c`, for a point before it. -/
def step (p : Position) (c : Char) : Position :=
  if c = '\n' then ⟨p.offset + c.utf8Size, p.line + 1, 0⟩
  else ⟨p.offset + c.utf8Size, p.line, p.column + c.utf8Size⟩

/-- The point after `cs`, for a point before it. -/
def advance (p : Position) (cs : List Char) : Position := cs.foldl step p

@[simp] theorem advance_nil (p : Position) : p.advance [] = p := rfl

@[simp] theorem advance_cons (p : Position) (c : Char) (cs : List Char) :
    p.advance (c :: cs) = (p.step c).advance cs := rfl

theorem advance_append (p : Position) (cs ds : List Char) :
    p.advance (cs ++ ds) = (p.advance cs).advance ds := by
  simp [advance, List.foldl_append]

@[simp] theorem offset_step (p : Position) (c : Char) :
    (p.step c).offset = p.offset + c.utf8Size := by
  unfold step; split <;> rfl

/-- Walking over characters moves the offset by the bytes of their text. -/
theorem offset_advance (p : Position) (cs : List Char) :
    (p.advance cs).offset = p.offset + (String.ofList cs).utf8ByteSize := by
  induction cs generalizing p with
  | nil => simp
  | cons c cs ih =>
    rw [advance_cons, ih, offset_step, String.ofList_cons, String.utf8ByteSize_append,
      String.utf8ByteSize_singleton, Nat.add_assoc]

end Position

end StubMerge
