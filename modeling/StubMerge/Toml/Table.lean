/-!
# Tables of a TOML document

A TOML document is a table of named values. The same table can be written in several places, as
a header, inline, or by the way as part of a longer name, and each place allows other additions
afterwards. So a table remembers how it came to be. An addition that is not allowed has no
result.
-/

namespace StubMerge.Toml

/-- How a table came to be. -/
inductive Origin where
  /-- By a header of its own. -/
  | header
  /-- As part of a longer header. -/
  | underHeader
  /-- As part of a dotted name. -/
  | dotted
  /-- Written inline: nothing can be added. -/
  | inlined
deriving DecidableEq, Repr, Inhabited

/-- A value of a TOML document. Numbers and moments are kept as they are written. -/
inductive Value where
  | text (text : String)
  | flag (flag : Bool)
  | number (literal : String)
  | moment (literal : String)
  | list (elements : List Value)
  | table (origin : Origin) (entries : List (String × Value))
  /-- Tables under a double header, in order. -/
  | tables (elements : List Value)
deriving Repr, Inhabited

/-- Names with their values. -/
abbrev Entries := List (String × Value)

namespace Entries

/-- The value of a name. -/
def get? (entries : Entries) (key : String) : Option Value :=
  (entries.find? fun e => e.1 == key).map Prod.snd

/-- The entries with another value for a name that they have, or with a new name. -/
def set (entries : Entries) (key : String) (value : Value) : Entries :=
  match entries with
  | [] => [(key, value)]
  | e :: later => if e.1 == key then (key, value) :: later else e :: set later key value

theorem get?_set_same (entries : Entries) (key : String) (value : Value) :
    (entries.set key value).get? key = some value := by
  induction entries with
  | nil => simp [set, get?]
  | cons e later ih =>
    unfold set
    split
    · simp [get?]
    · next h => simpa [get?, h] using ih

theorem get?_set_other {key other : String} (h : other ≠ key) (entries : Entries) (value : Value) :
    (entries.set key value).get? other = entries.get? other := by
  induction entries with
  | nil => simp [set, get?, Ne.symm h]
  | cons e later ih =>
    unfold set
    split
    · next he =>
      have : e.1 ≠ other := fun ho => h (ho ▸ eq_of_beq he)
      simp [get?, Ne.symm h, this]
    · next he =>
      by_cases ho : e.1 = other
      · simp [get?, ho]
      · simpa [get?, ho] using ih

/-- Changes the table that a path leads to. Tables that are missing on the way are made with
`origin`. A dotted name leads only through tables that are not written out elsewhere. -/
def changeAt (origin : Origin) (change : Origin → Entries → Option Entries) :
    List String → Origin → Entries → Option Entries
  | [], reached, entries => change reached entries
  | key :: path, _, entries =>
    match entries.get? key with
    | none => do
      return entries.set key (.table origin (← changeAt origin change path origin []))
    | some (.table kept inner) =>
      if kept = .inlined ∨ (origin = .dotted ∧ kept = .header) then none
      else do return entries.set key (.table kept (← changeAt origin change path kept inner))
    | some (.tables elements) =>
      match elements.getLast? with
      | some (.table kept inner) => do
        let changed := Value.table kept (← changeAt origin change path kept inner)
        return entries.set key (.tables (elements.dropLast ++ [changed]))
      | _ => none
    | some _ => none

/-- Adds a value under a dotted name. The name is new, and the table that it ends in was made by
dotted names or is the one that the line stands in. -/
def addPair (entries : Entries) (path : List String) (value : Value) : Option Entries :=
  match path.getLast? with
  | none => none
  | some key =>
    changeAt .dotted (fun reached entries =>
      if (reached = .dotted ↔ path.length = 1) ∨ (entries.get? key).isSome then none
      else some (entries.set key value)) path.dropLast .header entries

/-- Adds values under dotted names, one after the other. -/
def addPairs (entries : Entries) (pairs : List (List String × Value)) : Option Entries :=
  pairs.foldlM (fun entries pair => addPair entries pair.1 pair.2) entries

/-- Adds a table with a header. It may have come to be as part of a longer header before. -/
def addTable (entries : Entries) (path : List String) (pairs : List (List String × Value)) :
    Option Entries :=
  match path.getLast? with
  | none => none
  | some key =>
    changeAt .underHeader (fun _ entries => do
      let inner ← match entries.get? key with
        | none => some []
        | some (.table .underHeader inner) => some inner
        | some _ => none
      return entries.set key (.table .header (← addPairs inner pairs))) path.dropLast .header entries

/-- Adds a table behind those with the same double header. -/
def addElement (entries : Entries) (path : List String) (pairs : List (List String × Value)) :
    Option Entries :=
  match path.getLast? with
  | none => none
  | some key =>
    changeAt .underHeader (fun _ entries => do
      let before ← match entries.get? key with
        | none => some []
        | some (.tables elements) => some elements
        | some _ => none
      let element := Value.table .header (← addPairs [] pairs)
      return entries.set key (.tables (before ++ [element]))) path.dropLast .header entries

end Entries

end StubMerge.Toml
