import Std.Time
import ApiRecords.CommandLine

/-!
The command on the files of the machine: what it may look at is read before the run, and what the run
changed is written after it.
-/

namespace ApiRecords

namespace Machine

def textOf (place : Place) : String := Path.text ⟨.root, place⟩

/-- Reads what is at a place, and below it if it is a folder. Links are followed at the place itself
only. A file that holds no text counts as empty. -/
partial def readBelow (followLinks : Bool) (files : FileSystem) (place : Place) : IO FileSystem := do
  match ← (IO.FS.realPath (textOf place)).toBaseIO with
  | .error _ => return files
  | .ok found =>
    if ← found.isDir then
      let files := files.put place .folder
      if !followLinks && found.toString ≠ textOf place then return files
      (← found.readDir).foldlM (fun files e => readBelow false files (place ++ [e.fileName])) files
    else
      return files.put place (.file ((String.fromUTF8? (← IO.FS.readBinFile found)).getD ""))

def readAround (files : FileSystem) (place : Place) : IO FileSystem :=
  (List.range place.length).foldlM (fun files n => do
    match ← (IO.FS.realPath (textOf (place.take n))).toBaseIO with
    | .error _ => return files
    | .ok found =>
      return if ← found.isDir then files.put (place.take n) .folder else files) files

def readAll (files : FileSystem) (paths : List Path) : IO FileSystem :=
  paths.foldlM (fun files p => do
    let place := (Path.normal files.current p).names
    readBelow true (← readAround files place) place) files

def writeChanges (before now : FileSystem) : IO Unit :=
  now.entries.forM fun (place, e) => do
    if before.get? place ≠ some e then
      match e with
      | .folder => IO.FS.createDirAll (textOf place)
      | .file content =>
        let spare := textOf (place.dropLast ++ [now.spareName (place.getLastD "")])
        IO.FS.writeFile spare content
        IO.FS.rename spare (textOf place)

def readFor (current : Path) (args : List String) : IO FileSystem := do
  let files : FileSystem := ⟨[], current⟩
  let files ← readAll files (((Line.ofArgs? args).map Line.paths).getD [])
  match Request.ofArgs? files args with
  | some (.generate c) => readAll files (c.paths files)
  | _ => return files

/-- The local time, or universal time where no zone is set. -/
def nowText : IO String := do
  let now ← try Std.Time.PlainDateTime.now catch _ =>
    return Std.Time.PlainDateTime.ofWallTime ((← Std.Time.Timestamp.now).toWallTime .zero)
      |>.format clockFormat
  return now.format clockFormat
where
  clockFormat := "uuuu-MM-dd'T'HH:mm:ss"

def fileFaultText : FileFault → String
  | .present => "A file is in the place of a folder"
  | .isFolder => "A folder is in the place of a file"
  | .notFolder => "A path leads through a file"
  | .missing => "A file is missing"
  | .busy | .unnameable => "A file cannot be written at its path"

def failureLine (e : Fault) : String :=
  "ERROR " ++ match e, e.message? with
    | _, some text => text
    | .file fault, none => fileFaultText fault
    | .malformedText, none | .malformedBytes, none => "A document is not JSON"
    | _, none => "A value in the document or the settings is of the wrong kind"

end Machine

end ApiRecords

open ApiRecords Machine in
def main (args : List String) : IO UInt32 := do
  let files ← readFor (.ofText (← IO.currentDir).toString) args
  let outcome := Outcome.ofArgs files (← nowText) args
  writeChanges files outcome.files
  for n in outcome.notices do
    IO.eprintln (n.level.name ++ " " ++ n.text)
  for e in outcome.fault do
    IO.eprintln (failureLine e)
  if outcome.exitCode = 2 then IO.eprint outcome.output else IO.print outcome.output
  return outcome.exitCode.toUInt32
