import StubMerge.Command.Run

/-!
# The program

Runs the command on the computer that it is started on.
-/

namespace StubMerge.Command

/-- Whether an action succeeds. -/
def succeeds (action : IO Unit) : IO Bool :=
  try
    action
    return true
  catch _ => return false

/-- What an error says about a path. -/
def obstacleOf : IO.Error → Obstacle
  | .noFileOrDirectory .. => .missing
  | .inappropriateType .. => .notDirectory
  | .invalidArgument .. => .nameTooLong
  | _ => .unreadable

/-- The computer as a world. -/
def computer : World IO where
  read path :=
    try
      return .ok (← IO.FS.readFile path)
    catch error => return .error (obstacleOf error)
  isThere path :=
    try
      let _ ← IO.FS.Handle.mk path .read
      return true
    catch error => return obstacleOf error == .unreadable
  write path text := succeeds (IO.FS.writeFile path text)
  print text := IO.print text
  say line := IO.eprintln line

end StubMerge.Command

/-- Runs the command with the arguments that the program was given. -/
def main (arguments : List String) : IO UInt32 := do
  let outcome ← StubMerge.Command.run StubMerge.Command.computer arguments
  return outcome.status.toUInt32
