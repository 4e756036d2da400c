import StubMerge.Text.Split

/-!
# Places and paths

A path leads to a `Place` part by part: a dot stays where it is, two dots go up, and any other
part is a name that goes down. Names and whole paths are limited in size.
-/

namespace StubMerge.Command

/-- The directories that places are counted from. -/
inductive Origin where
  /-- The directory so many levels above the working directory. -/
  | above (levels : Nat)
  /-- The directory above all others. -/
  | top
deriving DecidableEq, Repr, Inhabited

/-- A place for a file or a directory. -/
structure Place where
  origin : Origin
  /-- The names on the way from the origin. -/
  names : List String := []
deriving DecidableEq, Repr, Inhabited

namespace Place

/-- The working directory. -/
def here : Place := ⟨.above 0, []⟩

/-- The place of a name in a directory. -/
def child (p : Place) (name : String) : Place := { p with names := p.names ++ [name] }

/-- The directory that a place is in. The topmost one is in itself. -/
def parent (p : Place) : Place :=
  match p.names, p.origin with
  | [], .above levels => ⟨.above (levels + 1), []⟩
  | [], .top => p
  | names, origin => ⟨origin, names.dropLast⟩

/-- Whether a place is below a directory, at any depth. -/
def isBelow (p directory : Place) : Bool :=
  p.origin == directory.origin && directory.names.isPrefixOf p.names && p.names != directory.names

theorem parent_child (p : Place) (name : String) : (p.child name).parent = p := by
  unfold parent child
  split
  · simp_all
  · simp_all
  · simp

theorem isBelow_child (p : Place) (name : String) : (p.child name).isBelow p = true := by
  simp [isBelow, child]

theorem isBelow_self (p : Place) : p.isBelow p = false := by
  simp [isBelow]

end Place

/-! ## Paths -/

/-- The parts of a path. -/
def partsOf (path : String) : List String := Text.split '/' path

/-- Where a path starts. -/
def startOf (path : String) : Place :=
  if path.toList.head? == some '/' then ⟨.top, []⟩ else .here

/-- How many bytes a name can have. -/
def nameLimit : Nat := 255

/-- How many bytes a path can have. -/
def pathLimit : Nat := 4095

end StubMerge.Command
