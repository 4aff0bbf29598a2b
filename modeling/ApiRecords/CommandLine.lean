import ApiRecords.Document.Json.Reader
import ApiRecords.Emission.Emitter
import ApiRecords.Schema.Expansion

/-!
The command: options and two paths, the document and the folder of the generated files.
-/

namespace ApiRecords

/-- A switch that is given by its name alone, or an option that a value follows. -/
inductive Flag where
  | config
  | baseOutput
  | v2
  | flow (on : Bool)
  | propTypes (on : Bool)
  | attributeCase
  | templates
  | verbose
  | help
  deriving DecidableEq

namespace Flag

def takesValue : Flag → Bool
  | config | baseOutput | attributeCase | templates => true
  | _ => false

def ofLongName? : String → Option Flag
  | "--config" => some config
  | "--base-output" => some baseOutput
  | "--v2" => some v2
  | "--flow" => some (flow true)
  | "--no-flow" => some (flow false)
  | "--prop-types" => some (propTypes true)
  | "--no-prop-types" => some (propTypes false)
  | "--attribute-case" => some attributeCase
  | "--templates" => some templates
  | "--verbose" => some verbose
  | "--help" => some help
  | _ => none

def ofLetter? : Char → Option Flag
  | 'c' => some config
  | 'b' => some baseOutput
  | 'v' => some verbose
  | _ => none

end Flag

inductive Expected where
  | any
  | valueOf (flag : Flag)
  /-- After a double dash all arguments are words. -/
  | word
  deriving DecidableEq

/-- The arguments sorted into flags, with the values of those that take one, and words. -/
structure Line where
  flags : List (Flag × String)
  words : List String
  expected : Expected

namespace Line

def empty : Line := ⟨[], [], .any⟩

def addFlag (l : Line) (flag : Flag) (value : String) : Line :=
  { l with flags := l.flags ++ [(flag, value)], expected := .any }

/-- A flag by its full name, its value after an equals sign or in the next argument. -/
def addLong (l : Line) (flag : Flag) (value : Option String) : Option Line :=
  if flag.takesValue then
    match value with
    | some v => some (l.addFlag flag v)
    | none => some { l with expected := .valueOf flag }
  else if value.isSome then none
  else some (l.addFlag flag "")

/-- Flags by their letters. What follows the letter of a flag that takes a value is the value. -/
def addLetters (l : Line) : List Char → Option Line
  | [] => some l
  | c :: cs => do
    let flag ← Flag.ofLetter? c
    if flag.takesValue then
      if cs.isEmpty then return { l with expected := .valueOf flag }
      else return l.addFlag flag (String.ofList cs)
    else (l.addFlag flag "").addLetters cs

def splitValue (s : String) : String × Option String :=
  let name := s.toList.takeWhile (· ≠ '=')
  (String.ofList name, match s.toList.drop name.length with
    | [] => none
    | _ :: value => some (String.ofList value))

def addDashed (l : Line) (s : String) : Option Line :=
  let (name, value) := splitValue s
  match Flag.ofLongName? name, s.toList with
  | some flag, _ => l.addLong flag value
  | none, '-' :: '-' :: _ => none
  | none, cs => l.addLetters (cs.drop 1)

def add (l : Line) (s : String) : Option Line :=
  match l.expected with
  | .valueOf flag => some (l.addFlag flag s)
  | .word => some { l with words := l.words ++ [s] }
  | .any =>
    if s = "--" then some { l with expected := .word }
    else match s.toList with
      | '-' :: _ :: _ => l.addDashed s
      | _ => some { l with words := l.words ++ [s] }

def ofArgs? (args : List String) : Option Line := do
  let l ← args.foldlM add empty
  match l.expected with
  | .valueOf _ => none
  | _ => return l

/-- The value of a flag. Of several the last one counts. -/
def value? (l : Line) (flag : Flag) : Option String :=
  (l.flags.reverse.find? fun (f, _) => f = flag).map (·.2)

def switch? (l : Line) (side : Bool → Flag) : Option Bool :=
  (l.flags.reverse.find? fun (f, _) => f = side true ∨ f = side false).map fun (f, _) =>
    f = side true

end Line

structure Command where
  configFile : Option Path
  baseFolder : Option Path
  /-- Settings that go before those of the file. -/
  given : List (Setting × Tree)
  verbose : Bool
  document : Path
  output : Path

inductive Request where
  | help
  | generate (command : Command)

namespace Request

def resolve (fs : FileSystem) (s : String) : Path :=
  ⟨.root, (Path.normal fs.current (.ofText s)).names⟩

def existing (fs : FileSystem) (s : String) : Option Path :=
  let p := resolve fs s
  if fs.exists? p then some p else none

/-- Applies a check to a value that need not be given. -/
def checked {α : Type} (check : String → Option α) : Option String → Option (Option α)
  | none => some none
  | some s => (check s).map some

/-- The request of a line, none where it is not a proper one. -/
def ofLine? (fs : FileSystem) (l : Line) : Option Request := do
  if (l.value? .help).isSome then return .help
  let configFile ← checked (existing fs) (l.value? .config)
  let templates ← checked (fun s => (existing fs s).filter fs.isFolder) (l.value? .templates)
  let case ← checked Case.ofName? (l.value? .attributeCase)
  let [document, output] := l.words | none
  let given :=
    [(Setting.isV2, (l.value? .v2).map fun _ => Tree.bool true),
     (.useFlow, (l.switch? .flow).map .bool),
     (.usePropTypes, (l.switch? .propTypes).map .bool),
     (.attributeCase, case.map fun c => .text c.name),
     (.templateFolder, templates.map fun p => .text p.text)]
  return .generate {
    configFile
    baseFolder := (l.value? .baseOutput).map (resolve fs)
    given := given.filterMap fun (x, value) => value.map (x, ·)
    verbose := (l.value? .verbose).isSome
    document := ← existing fs document
    output := resolve fs output }

def ofArgs? (fs : FileSystem) (args : List String) : Option Request := do
  ofLine? fs (← Line.ofArgs? args)

end Request

namespace Command

def readTree (p : Path) : Action Tree := do
  let content ← ((← get).files.read p).mapError Fault.file
  Tree.ofJson content

/-- The settings of the file, or the defaults, with those over them that were given. -/
def settings (c : Command) : Action Settings := do
  let s ← match c.configFile with
    | none => pure {}
    | some p => Settings.ofTree (← readTree p)
  return c.given.foldl (fun s (x, value) => s.set value x) s

/-- Reads the document and writes the files of its models; what is told at the end. -/
def perform (c : Command) (now : String) : Action String := do
  let s ← c.settings
  let doc := Document.ofTree (← readTree c.document)
  Action.notify .debug ("Loaded spec " ++ c.document.text)
  let doc ← doc.prepare s.isV2.truthy
  let folders : Folders := ⟨c.output, c.baseFolder.getD (c.output.child "base")⟩
  let emitter ← Emitter.ofSettings s folders now (← get).files
  let names ← emitter.emitAll doc
  return "Generated " ++ toString names.length ++ " models in " ++ c.output.text ++ "\n"

def templateFolder (c : Command) : Action (Option Path) := do
  let s ← c.settings
  return if s.templateFolder.truthy then some (.ofText s.templateFolder.display) else none

def paths (c : Command) (files : FileSystem) : List Path :=
  let templates := match (c.templateFolder.run.run (.ofFiles files)).1 with
    | .ok p => p.toList
    | .error _ => []
  [c.document, c.output] ++ c.configFile.toList ++ c.baseFolder.toList ++ templates

def shows (c : Command) (n : Notice) : Bool := c.verbose || n.level ≠ .debug

end Command

def Line.paths (l : Line) : List Path :=
  let values := l.flags.filterMap fun (flag, value) =>
    if flag.takesValue then some value else none
  (l.words ++ values).map .ofText

structure Outcome where
  files : FileSystem
  exitCode : Nat
  output : String
  notices : List Notice
  fault : Option Fault

namespace Outcome

def usage : String :=
  "Usage: [--config FILE] [--base-output FOLDER] [--v2] [--flow | --no-flow]\n" ++
  "  [--prop-types | --no-prop-types] [--attribute-case camel|none|snake] [--templates FOLDER]\n" ++
  "  [--verbose] DOCUMENT OUTPUT\n"

/-- Runs the command on files. Nothing is done on an improper request. -/
def ofArgs (files : FileSystem) (now : String) (args : List String) : Outcome :=
  match Request.ofArgs? files args with
  | none => ⟨files, 2, usage, [], none⟩
  | some .help => ⟨files, 0, usage, [], none⟩
  | some (.generate c) =>
    let (result, r) := (c.perform now).run.run (.ofFiles files)
    let notices := r.notices.filter c.shows
    match result with
    | .ok output => ⟨r.files, 0, output, notices, none⟩
    | .error e => ⟨r.files, 1, "", notices, some e⟩

end Outcome

end ApiRecords
