import StubMerge.Reading.File

/-!
# The world around the command

A command reads and writes files and writes to two streams. `World` says what it needs, for any
monad, so that the same command runs on a computer and on a `Disk`, which is a plain value.
-/

namespace StubMerge.Command

/-- What keeps a file from being read. -/
inductive Obstacle where
  | missing
  | isDirectory
  /-- The way leads through something that is no directory. -/
  | notDirectory
  | nameTooLong
  /-- The path holds a character that no path can hold. -/
  | badName
  /-- The file is there, but has no text that can be read. -/
  | unreadable
deriving DecidableEq, Repr, Inhabited

/-- What a command can do. -/
structure World (m : Type → Type) where
  /-- The text of a file. -/
  read : String → m (Except Obstacle String)
  /-- Whether there is something at a path. -/
  isThere : String → m Bool
  /-- Writes a file and says whether that was possible. -/
  write : String → String → m Bool
  /-- Writes to the output. -/
  print : String → m Unit
  /-- Writes a line for the user, apart from the output. -/
  say : String → m Unit

/-- Reads the declarations of a file, if it can be read. -/
def World.declarations {m : Type → Type} [Monad m] (w : World m) (path : String) :
    m (Except Obstacle (Except ReadError Reading)) := do
  return (← w.read path).map fun text => StubMerge.read text (some path)

end StubMerge.Command
