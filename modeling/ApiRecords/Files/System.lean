import ApiRecords.Document.Fault
import ApiRecords.Document.Members
import ApiRecords.Files.Path

/-!
Files and folders by place. A place is the list of names from the root; a path is followed name by
name, each folder on the way having to exist.
-/

namespace ApiRecords

inductive Entry where
  | folder
  | file (content : String)
  deriving DecidableEq

abbrev Place := List String

/-- What stands at which place, and the folder that relative paths start at. -/
structure FileSystem where
  entries : List (Place × Entry)
  current : Path

namespace FileSystem

def get? (fs : FileSystem) (place : Place) : Option Entry :=
  if place = [] then some .folder else fs.entries.lookup place

def content? (fs : FileSystem) (place : Place) : Option String :=
  match fs.get? place with
  | some (.file content) => some content
  | _ => none

def put (fs : FileSystem) (place : Place) (e : Entry) : FileSystem :=
  { fs with entries := putBy (· == ·) place e fs.entries }

@[simp] theorem get?_root (fs : FileSystem) : fs.get? [] = some .folder := rfl

@[simp] theorem get?_put_self (fs : FileSystem) {place : Place} (h : place ≠ []) (e : Entry) :
    (fs.put place e).get? place = some e := by
  simp [get?, put, h]

theorem get?_put_of_ne (fs : FileSystem) {place other : Place} (h : other ≠ place) (e : Entry) :
    (fs.put place e).get? other = fs.get? other := by
  simp [get?, put, lookup_putBy_of_ne h]

/-- Takes away what stands at a place, with all that stands below it. -/
def erase (fs : FileSystem) (place : Place) : FileSystem :=
  { fs with entries := fs.entries.filter fun (q, _) => !place.isPrefixOf q }

/-- Follows names from a folder. A double dot leads to the folder around. -/
def follow (fs : FileSystem) (start : Place) : List String → Except FileFault Place
  | [] => .ok start
  | n :: ns =>
    match fs.get? start with
    | some .folder => fs.follow (if n = ".." then start.dropLast else start ++ [n]) ns
    | some (.file _) => .error .notFolder
    | none => .error .missing

/-- The place that a path leads to, which need not hold anything. -/
def place (fs : FileSystem) (p : Path) : Except FileFault Place :=
  if p.names.any (·.toList.contains '\x00') then .error .unnameable
  else fs.follow [] (fs.current.join p).names

def find (fs : FileSystem) (p : Path) : Except FileFault Entry := do
  match fs.get? (← fs.place p) with
  | some e => .ok e
  | none => .error .missing

def exists? (fs : FileSystem) (p : Path) : Bool := (fs.find p).toBool

def isFolder (fs : FileSystem) (p : Path) : Bool :=
  match fs.find p with
  | .ok .folder => true
  | _ => false

def read (fs : FileSystem) (p : Path) : Except FileFault String := do
  match ← fs.find p with
  | .file content => .ok content
  | .folder => .error .isFolder

def makeFolder (fs : FileSystem) (p : Path) : Except FileFault FileSystem := do
  match fs.get? (← fs.place p.parent) with
  | none => .error .missing
  | some (.file _) => .error .notFolder
  | some .folder =>
    let place ← fs.place p
    match fs.get? place with
    | some _ => .error .present
    | none => .ok (fs.put place .folder)

def settleFolder (fs : FileSystem) (p : Path) : FileSystem × Except FileFault Unit :=
  match fs.makeFolder p with
  | .ok fs => (fs, .ok ())
  | .error e => (fs, if fs.isFolder p then .ok () else .error e)

/-- Makes a folder and the folders around it as far as they are missing. `above` holds the names of
its path in reverse. What was made before a failure stays. -/
def makeFoldersUp (anchor : Anchor) (fs : FileSystem) :
    List String → FileSystem × Except FileFault Unit
  | [] => (fs, .ok ())
  | n :: above =>
    let p : Path := ⟨anchor, (n :: above).reverse⟩
    match fs.makeFolder p with
    | .error .missing =>
      match fs.makeFoldersUp anchor above with
      | (fs, .error e) => (fs, .error e)
      | (fs, .ok ()) => fs.settleFolder p
    | _ => fs.settleFolder p

def makeFolders (fs : FileSystem) (p : Path) : FileSystem × Except FileFault Unit :=
  let p := fs.current.join p
  fs.makeFoldersUp p.anchor p.names.reverse

/-- A name longer than any in use, so that nothing has it. -/
def spareName (fs : FileSystem) (name : String) : String :=
  let longest := (fs.entries.map fun (p, _) => (p.getLastD "").length).foldl max 0
  "." ++ name ++ "." ++ String.ofList (List.replicate longest '_') ++ ".tmp"

/-- Whether a path ends in a name of its own, so that something can be put there. -/
def namesPlace (p : Path) : Bool :=
  match p.names.getLast? with
  | none | some ".." => false
  | some _ => true

/-- Moves a file over what may be at a path. -/
def moveOver (fs : FileSystem) (spare : Place) (content : String) (p : Path) :
    Except FileFault FileSystem := do
  let target ← fs.place p
  if !namesPlace p then throw .busy
  match fs.get? target with
  | some .folder => .error .isFolder
  | _ => .ok ((fs.erase spare).put target (.file content))

/-- Puts a file at a path as a whole: the content goes to a spare file in the same folder, which is
then moved to the path. The spare file does not outlast a failure. -/
def putFile (fs : FileSystem) (p : Path) (content : String) :
    FileSystem × Except FileFault Unit :=
  match fs.place p.parent with
  | .error e => (fs, .error e)
  | .ok folder =>
    let spare := folder ++ [fs.spareName (p.names.getLastD "")]
    let written := fs.put spare (.file content)
    match written.moveOver spare content p with
    | .ok fs => (fs, .ok ())
    | .error e => (written.erase spare, .error e)

/-- Takes away a file, or a folder with all it holds. -/
def remove (fs : FileSystem) (p : Path) : Except FileFault FileSystem := do
  let place ← fs.place p
  match fs.get? place with
  | none => .error .missing
  | some _ => .ok (fs.erase place)

/-- The files below a folder whose content differs from `before`, each with its content now, ordered
by the text of their way from the folder. -/
def changes (before now : FileSystem) (folder : Place) : List (String × Option String) :=
  let places := ((before.entries ++ now.entries).map (·.1)).eraseDups.filter folder.isPrefixOf
  let differing := places.filter fun p => before.content? p ≠ now.content? p
  (differing.map fun p => ("/".intercalate (p.drop folder.length), now.content? p)).mergeSort
    fun a b => a.1 ≤ b.1

end FileSystem

end ApiRecords
