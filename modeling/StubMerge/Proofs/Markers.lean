import StubMerge.Declaration.Print
import StubMerge.Merge.Settle

/-!
# Marker lines

A conflict is printed as its two sides between marker lines, and one side may hold further
conflicts. A reader of the text settles it by keeping one side everywhere: `keepSide` goes over the
lines with a stack of the groups that are open and, for each of them, the side that the line is on.
It gives nothing if the markers are not properly nested.

`Marked side lines kept` says of some lines that their markers are nested among themselves, and that
`kept` is what is left of them. What is known of the parts of a text adds up (`Marked.append`,
`Marked.sides`).
-/

namespace StubMerge

/-! ## Lines of a text -/

/-- The lines of a text, without the line breaks that end them. -/
def linesOf : List Char → List (List Char)
  | [] => []
  | c :: cs =>
    if c = '\n' then [] :: linesOf cs
    else match linesOf cs with
      | [] => [[c]]
      | line :: lines => (c :: line) :: lines

/-- Lines as a text. -/
def ofLines (lines : List String) : String := String.join (lines.map (· ++ "\n"))

theorem linesOf_append {line : List Char} (h : '\n' ∉ line) (rest : List Char) :
    linesOf (line ++ '\n' :: rest) = line :: linesOf rest := by
  induction line with
  | nil => simp [linesOf]
  | cons c line ih =>
    rw [List.mem_cons, not_or] at h
    rw [List.cons_append, linesOf, if_neg (Ne.symm h.1), ih h.2]

/-- Lines without line breaks are the lines of their text. -/
theorem linesOf_ofLines {lines : List String} (h : ∀ line ∈ lines, '\n' ∉ line.toList) :
    (linesOf (ofLines lines).toList).map String.ofList = lines := by
  induction lines with
  | nil => rfl
  | cons line lines ih =>
    have hchars : (ofLines (line :: lines)).toList =
        line.toList ++ '\n' :: (ofLines lines).toList := by
      simp [ofLines, String.toList_join]
    rw [hchars, linesOf_append (h line (by simp)), List.map_cons, String.ofList_toList,
      ih fun x hx => h x (by simp [hx])]

/-! ## Keeping one side -/

/-- What a marker line does. -/
inductive Marker where
  /-- It opens a group, at its left side. -/
  | left
  /-- It goes over to the right side. -/
  | middle
  /-- It closes a group. -/
  | right
deriving DecidableEq

/-- The marker that a line is, whatever its level. -/
def marker? (line : String) : Option Marker :=
  let text := line.toList.dropWhile (· == ' ')
  if "<<<<<<< ".toList.isPrefixOf text then some .left
  else if "=======".toList.isPrefixOf text then some .middle
  else if ">>>>>>> ".toList.isPrefixOf text then some .right
  else none

/-- The lines that are on one side of all groups. `opened` has, for every group that is open, the
side on which the lines are. -/
def keptLines (side : Side) (opened : List Side) : List String → Option (List String)
  | [] => if opened.isEmpty then some [] else none
  | line :: lines =>
    match marker? line, opened with
    | none, _ =>
      (keptLines side opened lines).map fun kept =>
        if opened.all (· == side) then line :: kept else kept
    | some .left, _ => keptLines side (.left :: opened) lines
    | some .middle, .left :: outer => keptLines side (.right :: outer) lines
    | some .right, .right :: outer => keptLines side outer lines
    | _, _ => none

/-- A text with one side kept of every group of markers. -/
def keepSide (side : Side) (text : String) : Option String :=
  (keptLines side [] ((linesOf text.toList).map String.ofList)).map ofLines

/-! ## Lines whose markers are nested -/

/-- The markers of some lines are properly nested, and `kept` is what one side leaves of them. -/
def Marked (side : Side) (lines kept : List String) : Prop :=
  ∀ (opened : List Side) (rest : List String), keptLines side opened (lines ++ rest) =
    (keptLines side opened rest).map fun later =>
      (if opened.all (· == side) then kept else []) ++ later

namespace Marked

variable {side : Side} {lines more kept keptMore : List String}

theorem nil : Marked side [] [] := by
  intro opened rest
  simp

theorem append (h : Marked side lines kept) (hmore : Marked side more keptMore) :
    Marked side (lines ++ more) (kept ++ keptMore) := by
  intro opened rest
  rw [List.append_assoc, h, hmore, Option.map_map]
  congr 1
  funext later
  by_cases hall : opened.all (· == side)
  · simp [hall]
  · simp [hall]

/-- A line that is no marker. -/
theorem line {text : String} (h : marker? text = none) : Marked side [text] [text] := by
  intro opened rest
  rw [List.singleton_append, keptLines.eq_def]
  simp only [h]
  congr 1
  funext later
  by_cases hall : opened.all (· == side)
  · simp [hall]
  · simp [hall]

theorem plain (h : ∀ text ∈ lines, marker? text = none) : Marked side lines lines := by
  induction lines with
  | nil => exact nil
  | cons text lines ih =>
    exact (line (h text (by simp))).append (ih fun x hx => h x (by simp [hx]))

/-- What is left of a whole text. -/
theorem keptLines_eq (h : Marked side lines kept) : keptLines side [] lines = some kept := by
  have hall := h [] []
  rw [List.append_nil] at hall
  simpa [keptLines] using hall

/-- What is left of two sides between markers. -/
theorem sides {left middle right : String} (h : Marked side lines kept)
    (hmore : Marked side more keptMore) (hleft : marker? left = some .left)
    (hmiddle : marker? middle = some .middle) (hright : marker? right = some .right) :
    Marked side (left :: lines ++ middle :: more ++ [right]) (side.pick kept keptMore) := by
  intro opened rest
  have hopen : keptLines side opened (left :: lines ++ middle :: more ++ [right] ++ rest) =
      keptLines side (.left :: opened) (lines ++ (middle :: (more ++ (right :: rest)))) := by
    simp [keptLines, hleft]
  have hturn : keptLines side (.left :: opened) (middle :: (more ++ (right :: rest))) =
      keptLines side (.right :: opened) (more ++ (right :: rest)) := by
    simp [keptLines, hmiddle]
  have hclose : keptLines side (.right :: opened) (right :: rest) = keptLines side opened rest := by
    simp [keptLines, hright]
  rw [hopen, h, hturn, hmore, hclose, Option.map_map]
  congr 1
  funext later
  cases side with
  | left => simp [Side.pick]
  | right => simp [Side.pick]

end Marked

/-! ## Printed lines -/

theorem dropWhile_line (level : Nat) (text : String) :
    (Print.line level text).toList.dropWhile (· == ' ') = text.toList.dropWhile (· == ' ') := by
  rw [Print.line, String.toList_append, String.toList_ofList]
  simp

/-- A line is what its text is. -/
theorem marker?_line (level : Nat) (text : String) :
    marker? (Print.line level text) = marker? text := by
  rw [marker?, marker?, dropWhile_line]

theorem marker?_leftMarker (level : Nat) (labels : Labels) :
    marker? (Print.leftMarker level labels) = some .left := by
  rw [Print.leftMarker, marker?_line]
  simp [marker?]

theorem marker?_middleMarker (level : Nat) : marker? (Print.middleMarker level) = some .middle := by
  rw [Print.middleMarker, marker?_line]
  decide

theorem marker?_rightMarker (level : Nat) (labels : Labels) :
    marker? (Print.rightMarker level labels) = some .right := by
  rw [Print.rightMarker, marker?_line]
  simp [marker?]

/-- A text is no marker if it does not start like one. -/
theorem marker?_eq_none {text : String}
    (h : text.toList.head?.all fun c => c != ' ' && c != '<' && c != '=' && c != '>') :
    marker? text = none := by
  rw [marker?]
  cases hcs : text.toList with
  | nil => simp
  | cons c cs =>
    rw [hcs] at h
    simp only [List.head?_cons, Option.all_some, Bool.and_eq_true, bne_iff_ne, ne_eq] at h
    obtain ⟨⟨⟨hblank, hleft⟩, hmiddle⟩, hright⟩ := h
    simp [hblank, Ne.symm hleft, Ne.symm hmiddle, Ne.symm hright]

end StubMerge
