import ApiRecords.Emission.Run
import ApiRecords.Settings
import ApiRecords.Source.Index
import ApiRecords.Source.Override

/-!
Writes the files of the models of a document: a base file each time, an override file once, and an
index of all models.
-/

namespace ApiRecords

structure Emitter where
  options : Options
  isV2 : Bool
  outputFolder : Path
  baseFolder : Path
  templateFolder : Option Path
  /-- Templates of the parts that are whole files, as they were at the start. -/
  wholeFiles : Source.Templates
  fileExtension : Tree
  /-- The time of generation, where it is to be shown. -/
  date : Option String

structure Folders where
  output : Path
  base : Path

namespace Folders

/-- Folders as seen from `start`. Without a place of their own the base files go below the others. -/
def ofText (start output : String) (base : Option String) : Folders :=
  let resolve := fun s => (Path.ofText start).join (Path.ofText s)
  let output := resolve output
  ⟨output, match base with
    | none | some "" => output.child "base"
    | some b => resolve b⟩

/-- The way from an override file to the base files. A name alone would stand for a package. -/
def importPath (f : Folders) (current : Path) : String :=
  let way := (Path.relative current f.output f.base).text
  if way.toList.head? = some '.' then way else "./" ++ way

end Folders

namespace Emitter

/-- A generator that follows the settings. The files are those at its start. -/
def ofSettings (s : Settings) (folders : Folders) (now : String) (files : FileSystem) :
    Except Fault Emitter := do
  let case ← s.case
  let templateFolder :=
    if s.templateFolder.truthy then some (Path.ofText s.templateFolder.display) else none
  return {
    options := { attributeCase := case, usePropTypes := s.usePropTypes, useFlow := s.useFlow }
    isV2 := s.isV2.truthy
    outputFolder := folders.output
    baseFolder := folders.base
    templateFolder
    wholeFiles := .ofParts fun part => templateFolder.bind fun folder =>
      Action.findPart folder files part
    fileExtension := s.fileExtension
    date := if s.withDate.truthy then some now else none }

def folders (emitter : Emitter) : Folders := ⟨emitter.outputFolder, emitter.baseFolder⟩

def pathOf (emitter : Emitter) (folder : Path) (stem : String) : Path :=
  folder.child (stem ++ emitter.fileExtension.display)

def basePath (emitter : Emitter) (stem : String) : Path := emitter.pathOf emitter.baseFolder stem

def overridePath (emitter : Emitter) (stem : String) : Path :=
  emitter.pathOf emitter.outputFolder stem

def indexPath (emitter : Emitter) : Path := emitter.pathOf emitter.outputFolder "index"

/-- The templates for a file that is itself made of `whole`, and asks for `parts`. -/
def templates (emitter : Emitter) (whole : Source.Part) (parts : List Source.Part) :
    Action Source.Templates := do
  let asked := if (emitter.wholeFiles.given whole).isSome then [] else parts
  return emitter.wholeFiles.within (← Action.templates emitter.templateFolder asked)

def baseText (emitter : Emitter) (d : Blueprint) : Action String := do
  let parts := [.head] ++ (if d.unionEntries.isEmpty then [] else [.unionEntry]) ++ [.dependency]
  return Source.text (Source.base d (← emitter.templates .model parts) emitter.date)

def overrideText (emitter : Emitter) (d : Blueprint) : Action String := do
  let way := emitter.folders.importPath (← get).files.current
  return Source.text (Source.override d (← emitter.templates .override []) way)

/-- Writes the files of a model. The name, unless its records are not identified. -/
def emitModel (emitter : Emitter) (g : Graph) (name : Tree) (model : Value) :
    Action (Option Tree) := do
  Action.notifyAll (g.notices name model)
  match ← g.blueprint emitter.options name model with
  | none => return none
  | some d =>
    Action.write (emitter.basePath d.fileName) (.text (← emitter.baseText d))
    let path := emitter.overridePath d.fileName
    if ← Action.writeOnce path (.text (← emitter.overrideText d)) then
      Action.notify .info ("Created override model " ++ path.text)
    return some name

def indexEntries (names : Tree) : Except Fault Tree := do
  let keys ← (← names.elements).mapM Tree.key?
  return .array ((distinctBy Scalar.same keys).map fun k =>
    let name := Tree.scalar k
    .object [("name", name), ("file_name", .text (fileName name))])

def emitIndex (emitter : Emitter) (names : Tree) : Action Path := do
  let entries ← indexEntries names
  let items ← Source.index (← emitter.templates .index [.head]) emitter.date entries
  Action.write emitter.indexPath (.text (Source.text items))
  return emitter.indexPath

/-- Writes the files of each model in turn; the names of those that were written. -/
def emitModels (emitter : Emitter) (g : Graph) : List (Scalar × Value) → Action (List Tree)
  | [] => return []
  | (name, model) :: rest => do
    let written ← emitter.emitModel g (.scalar name) model
    return (written.filter Tree.truthy).toList ++ (← emitter.emitModels g rest)

/-- Writes the files of every model of a prepared document, then the index; the names of the
models. -/
def emitAll (emitter : Emitter) (doc : Document) : Action (List Tree) := do
  let names ← emitter.emitModels doc.graph (← doc.models emitter.isV2)
  let _ ← emitter.emitIndex (.array names)
  Action.notify .info
    ("Generated " ++ toString names.length ++ " models in " ++ emitter.outputFolder.text)
  return names

end Emitter

end ApiRecords
