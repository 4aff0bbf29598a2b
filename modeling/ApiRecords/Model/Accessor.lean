import ApiRecords.Document.Fault
import ApiRecords.Text.Case
import ApiRecords.Text.Split

/-!
Expressions that read the identity of a record, or the property that tells the branches of a union
apart. A name without dots is a key; a path starts at the record, or at its parent.
-/

namespace ApiRecords

/-- First segment of the paths that start at the parent of a record. -/
def parentSegment : String := "parent"

def indexPath (spell : String → String) (segments : List String) : String :=
  String.join (segments.map fun s => "['" ++ spell s ++ "']")

def accessorOf (spell : String → String) (name : String) : String :=
  match Text.parts '.' name with
  | [] => ""
  | [key] => "'" ++ spell key ++ "'"
  | first :: rest =>
    if first = parentSegment then "(value, parent) => parent" ++ indexPath spell rest
    else "(value) => value" ++ indexPath spell (first :: rest)

def accessor (spell : String → String) (name : Tree) : Except Fault String :=
  match name.text? with
  | none => .error .notText
  | some s => .ok (accessorOf spell s)

end ApiRecords
