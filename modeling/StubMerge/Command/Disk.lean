import StubMerge.Command.Place
import StubMerge.Command.World

/-!
# Disks

A `Disk` is a working directory with text files in it, and in directories below it, together
with what was written to the two streams. Directories are there as far as something is in them;
those above the working directory are always there. Under the topmost directory there are only
devices: one that swallows what is written to it, and the streams themselves.
-/

namespace StubMerge.Command

/-- What there can be at a place, directories apart. -/
inductive Item where
  | text (content : String)
  /-- The device that swallows everything. -/
  | void
  /-- The output, as a device. -/
  | output
  /-- What is said to the user, as a device. -/
  | messages
deriving DecidableEq, Repr, Inhabited

/-- The text that can be read from an item. Devices have nothing to read. -/
def Item.content : Item → String
  | text content => content
  | _ => ""

/-- The devices, with their places. -/
def devices : List (Place × Item) :=
  [(⟨.top, ["dev", "null"]⟩, .void), (⟨.top, ["dev", "stdin"]⟩, .void),
    (⟨.top, ["dev", "stdout"]⟩, .output), (⟨.top, ["dev", "stderr"]⟩, .messages)]

/-- Files and devices, and what was written to the streams. -/
structure Disk where
  items : List (Place × Item) := devices
  output : String := ""
  /-- The lines for the user, in order. -/
  said : List String := []
deriving DecidableEq, Repr, Inhabited

namespace Disk

/-- Whether there is a directory at a place. -/
def isDirectory (d : Disk) (place : Place) : Bool :=
  place.names.isEmpty || d.items.any fun item => item.1.isBelow place

/-- What there is at a place, directories apart. -/
def itemAt? (d : Disk) (place : Place) : Option Item :=
  (d.items.find? fun item => item.1 == place).map Prod.snd

/-- Goes along the parts of a path, from a place on. Only directories can be gone through. -/
def locate (d : Disk) (place : Place) : List String → Except Obstacle Place
  | [] => .ok place
  | part :: later =>
    if !d.isDirectory place then
      .error (if (d.itemAt? place).isSome then .notDirectory else .missing)
    else if part.isEmpty || part == "." then d.locate place later
    else if part == ".." then d.locate place.parent later
    else if nameLimit < part.utf8ByteSize then .error .nameTooLong
    else d.locate (place.child part) later

/-- The place that a path leads to. -/
def placeOf (d : Disk) (path : String) : Except Obstacle Place :=
  if path.toList.contains '\x00' then .error .badName
  else if path.isEmpty then .error .missing
  else if pathLimit < path.utf8ByteSize then .error .nameTooLong
  else d.locate (startOf path) (partsOf path)

/-- The text of a file. -/
def read (d : Disk) (path : String) : Except Obstacle String := do
  let place ← d.placeOf path
  match d.itemAt? place with
  | some item => return item.content
  | none => throw (if d.isDirectory place then .isDirectory else .missing)

/-- Whether there is something at a path. -/
def isThere (d : Disk) (path : String) : Bool :=
  match d.placeOf path with
  | .ok place => d.isDirectory place || (d.itemAt? place).isSome
  | .error _ => false

/-- Puts a text at a place. -/
def put (d : Disk) (place : Place) (text : String) : Disk :=
  { d with items := (d.items.filter fun item => item.1 != place) ++ [(place, .text text)] }

/-- Writes a file into a directory that is there, or to a device. No files are made under the
topmost directory. -/
def write (d : Disk) (path text : String) : Option Disk := do
  let place ← (d.placeOf path).toOption
  if d.isDirectory place then none
  else match d.itemAt? place with
    | some .void => some d
    | some .output => some { d with output := d.output ++ text }
    | some .messages => some { d with said := d.said ++ [text] }
    | _ => if place.origin = .top then none else some (d.put place text)

/-- A disk with files at paths, given by their names. -/
def ofFiles (files : List (String × String)) : Disk :=
  { items := (files.map fun file =>
      (⟨.above 0, (partsOf file.1).filter fun part => !part.isEmpty && part != "."⟩,
        .text file.2)) ++ devices }

/-- The world that a disk is. -/
def world : World (StateM Disk) where
  read path := do return (← get).read path
  isThere path := do return (← get).isThere path
  write path text := do
    match (← get).write path text with
    | some d => set d; return true
    | none => return false
  print text := modify fun d => { d with output := d.output ++ text }
  say line := modify fun d => { d with said := d.said ++ [line] }

end Disk

end StubMerge.Command
