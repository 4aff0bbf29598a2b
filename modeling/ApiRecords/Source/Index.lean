import ApiRecords.Document.Keys
import ApiRecords.Source.Head

/-!
The index file: every model under its name.
-/

namespace ApiRecords.Source

/-- A field that an entry has to have. -/
def requiredField (entry : Tree) (name : String) : Except Fault String :=
  match entry.member? name with
  | some t => .ok t.display
  | none => .error (.missingField name)

def indexItem (entry : Tree) : Except Fault Item := do
  let name ← requiredField entry "name"
  return .exportDefaultOf name ("./" ++ (← requiredField entry "file_name"))

/-- `entries` lists the models, each with its name and the name of its file. -/
def index (templates : Templates) (date : Option String) (entries : Tree) :
    Except Fault (List Item) :=
  match templates.given .index with
  | some s => .ok [.verbatim s]
  | none => do return head templates date ++ (← (← entries.elements).mapM indexItem)

end ApiRecords.Source
