import StubMerge.Data.Json
import StubMerge.Merge.Conflict

/-!
# Conflict reports

The conflicts of a merge of two files, to be read by other programs.
-/

namespace StubMerge

/-- A location in a report. -/
def Location.json (l : Location) : Json :=
  .object
    [("file", l.file.elim .null .text), ("begin_line", .number l.beginLine),
      ("begin_column", .number l.beginColumn), ("end_line", .number l.endLine),
      ("end_column", .number l.endColumn)]

/-- A conflict in a report. Locations that are not known are left out. -/
def Conflict.json (c : Conflict) : Json :=
  .object
    ([("left_label", .text c.labels.left), ("right_label", .text c.labels.right),
      ("description", .text c.description), ("kind", .text c.noun)]
      ++ (c.leftLocation.map fun l => ("left_loc", l.json)).toList
      ++ (c.rightLocation.map fun l => ("right_loc", l.json)).toList)

/-- The conflicts between two files. -/
structure Report where
  left : String
  right : String
  conflicts : List Conflict

/-- A report as text. -/
def Report.text (r : Report) : String :=
  (Json.object
    [("left", .text r.left), ("right", .text r.right),
      ("conflicts", .list (r.conflicts.map Conflict.json))]).pretty 0 ++ "\n"

end StubMerge
