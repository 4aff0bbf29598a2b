import ApiRecords.Files.System
import ApiRecords.Model.Notice
import ApiRecords.Source.Templates

/-!
What a run of the generator changes: files, the notices given, and which parts of the generated files
are known to be built in. A failure keeps what was changed before it.
-/

namespace ApiRecords

structure Run where
  files : FileSystem
  notices : List Notice
  /-- Parts that were once looked for among the files and not found. They are not looked for again. -/
  builtinParts : List Source.Part

def Run.ofFiles (files : FileSystem) : Run := ⟨files, [], []⟩

abbrev Action := ExceptT Fault (StateM Run)

namespace Action

def notify (level : Level) (text : String) : Action Unit :=
  modify fun r => { r with notices := r.notices ++ [⟨level, text⟩] }

def notifyAll (notices : List Notice) : Action Unit :=
  modify fun r => { r with notices := r.notices ++ notices }

/-- A change of the files that may fail on its way. -/
def onFiles (change : FileSystem → FileSystem × Except FileFault Unit) : Action Unit := do
  let (files, result) := change (← get).files
  modify fun r => { r with files }
  match result with
  | .ok () => return
  | .error e => throw (.file e)

/-- Writes a text file as a whole, making the folders around it. -/
def write (p : Path) (content : Tree) : Action Unit := do
  onFiles (·.makeFolders p.parent)
  match content.text? with
  | none => throw .notJoinable
  | some s => onFiles (·.putFile p s)
  notify .debug ("Wrote " ++ p.text)

/-- Writes a file if there is nothing at its path; whether it did. -/
def writeOnce (p : Path) (content : Tree) : Action Bool := do
  if (← get).files.exists? p then
    notify .debug ("Kept existing " ++ p.text)
    return false
  write p content
  return true

def findPart (folder : Path) (files : FileSystem) (part : Source.Part) : Option String :=
  (files.read (folder.child part.fileName)).toOption

def templates (folder : Option Path) (parts : List Source.Part) : Action Source.Templates := do
  let r ← get
  let found := fun part => if part ∈ r.builtinParts then none else
    folder.bind fun folder => findPart folder r.files part
  set { r with builtinParts := r.builtinParts ++ parts.filter fun p => (found p).isNone }
  return .ofParts found

end Action

end ApiRecords
