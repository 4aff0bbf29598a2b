import ApiRecords.Document.Fault
import ApiRecords.Text.Case

/-!
What a user may settle about the generated files, given as a mapping. Values are kept as they are
given; most are only asked whether they are true.
-/

namespace ApiRecords

structure Settings where
  /-- The definitions are placed as in version 2 of the format. -/
  isV2 : Tree := .bool false
  useFlow : Tree := .bool false
  usePropTypes : Tree := .bool true
  attributeCase : Tree := .text Case.plain.name
  /-- Folder of the templates that come before the built-in ones, if any. -/
  templateFolder : Tree := .text ""
  withDate : Tree := .bool false
  fileExtension : Tree := .text ".js"

inductive Setting where
  | isV2
  | useFlow
  | usePropTypes
  | attributeCase
  | templateFolder
  | withDate
  | fileExtension
  deriving DecidableEq

namespace Setting

def all : List Setting :=
  [isV2, useFlow, usePropTypes, attributeCase, templateFolder, withDate, fileExtension]

def key : Setting → String
  | isV2 => "is_v2"
  | useFlow => "use_flow"
  | usePropTypes => "use_prop_types"
  | attributeCase => "attribute_case"
  | templateFolder => "template_dir"
  | withDate => "with_date"
  | fileExtension => "file_extension"

def ofKey? (s : String) : Option Setting := all.find? fun x => x.key = s

@[simp] theorem ofKey?_key (x : Setting) : ofKey? x.key = some x := by cases x <;> decide

end Setting

namespace Settings

def get (s : Settings) : Setting → Tree
  | .isV2 => s.isV2
  | .useFlow => s.useFlow
  | .usePropTypes => s.usePropTypes
  | .attributeCase => s.attributeCase
  | .templateFolder => s.templateFolder
  | .withDate => s.withDate
  | .fileExtension => s.fileExtension

def set (s : Settings) (value : Tree) : Setting → Settings
  | .isV2 => { s with isV2 := value }
  | .useFlow => { s with useFlow := value }
  | .usePropTypes => { s with usePropTypes := value }
  | .attributeCase => { s with attributeCase := value }
  | .templateFolder => { s with templateFolder := value }
  | .withDate => { s with withDate := value }
  | .fileExtension => { s with fileExtension := value }

@[simp] theorem get_set_self (s : Settings) (value : Tree) (x : Setting) :
    (s.set value x).get x = value := by cases x <;> rfl

theorem get_set_of_ne {x y : Setting} (h : y ≠ x) (s : Settings) (value : Tree) :
    (s.set value x).get y = s.get y := by
  cases x <;> cases y <;> simp_all [get, set]

def members (s : Settings) : List (String × Tree) := Setting.all.map fun x => (x.key, s.get x)

def same (s t : Settings) : Bool := Setting.all.all fun x => (s.get x).same (t.get x)

def case (s : Settings) : Except Fault Case :=
  match s.attributeCase with
  | .scalar (.text name) =>
    match Case.ofName? name with
    | some c => .ok c
    | none => .error (.unknownCase s.attributeCase)
  | .scalar _ => .error (.unknownCase s.attributeCase)
  | _ => .error .notKey

end Settings

/-- Settings on their way from a mapping, of which some keys reach further than one setting. -/
structure SettingsDraft where
  settings : Settings
  /-- A key took the name of the export. -/
  exportHidden : Bool

namespace SettingsDraft

def fresh : SettingsDraft := ⟨{}, false⟩

def exportKey : String := "to_dict"

/-- Keys of what follows from the settings and cannot be given. -/
def fixedKeys : List String := ["attribute_converter", "__weakref__"]

/-- The key of what the settings are made of, which no value of the format fits. -/
def makeKey : String := "__class__"

def wholeKey : String := "__dict__"

/-- A member that is a setting or takes the name of the export; others are passed over. -/
def overlay (d : SettingsDraft) (key : String) (value : Tree) : SettingsDraft :=
  match Setting.ofKey? key with
  | some x => { d with settings := d.settings.set value x }
  | none => if key = exportKey then { d with exportHidden := true } else d

def assign (d : SettingsDraft) (key : String) (value : Tree) : Except Fault SettingsDraft :=
  if key ∈ fixedKeys then .error (.fixedSetting key)
  else if key = makeKey then .error (.unsuitableSetting key)
  else if key = wholeKey then
    match value with
    | .object members => .ok (members.foldl (fun d (key, value) => d.overlay key value) fresh)
    | _ => .error (.unsuitableSetting key)
  else .ok (d.overlay key value)

/-- The settings of a mapping: the known ones put over the defaults, in order. -/
def ofTree (t : Tree) : Except Fault SettingsDraft := do
  let .object members := t | throw .notMapping
  let d ← members.foldlM (fun d (key, value) => d.assign key value) fresh
  let _ ← d.settings.case
  return d

def toTree (d : SettingsDraft) : Except Fault Tree :=
  if d.exportHidden then .error (.hiddenOperation exportKey) else .ok (.object d.settings.members)

end SettingsDraft

namespace Settings

def ofTree (t : Tree) : Except Fault Settings := do return (← SettingsDraft.ofTree t).settings

def toTree (s : Settings) : Tree := .object s.members

end Settings

end ApiRecords
