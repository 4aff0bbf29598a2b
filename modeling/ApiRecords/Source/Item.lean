/-!
The parts of a generated source file, and their text.
-/

namespace ApiRecords.Source

/-- A property of a class that is worked out when it is read. -/
structure Getter where
  isStatic : Bool
  name : String
  result : String

inductive Item where
  | verbatim (text : String)
  | blank
  | comment (text : String)
  | importNames (names : List String) (source : String)
  | importDefault (name source : String)
  | const (name value : String)
  | exportConst (name value : String)
  | exportType (name value : String)
  | exportNames (names : List String) (source : String)
  /-- The default of another file under a name. -/
  | exportDefaultOf (name source : String)
  | exportClass (name base : String) (getters : List Getter)
  | statement (text : String)

def fieldLines (fields : List (String × String)) : String :=
  "\x7b\n" ++ String.join (fields.map fun (key, value) => "  " ++ key ++ ": " ++ value ++ ",\n") ++
    "\x7d"

def Getter.text (g : Getter) : String :=
  "  " ++ (if g.isStatic then "static " else "") ++ "get " ++ g.name ++ "() \x7b\n    return " ++
    g.result ++ ";\n  \x7d\n"

namespace Item

def text : Item → String
  | verbatim s => s
  | blank => "\n"
  | comment s => s ++ "\n"
  | importNames names source =>
    "import \x7b " ++ ", ".intercalate names ++ " \x7d from '" ++ source ++ "';\n"
  | importDefault name source => "import " ++ name ++ " from '" ++ source ++ "';\n"
  | const name value => "const " ++ name ++ " = " ++ value ++ ";\n"
  | exportConst name value => "export const " ++ name ++ " = " ++ value ++ ";\n"
  | exportType name value => "export type " ++ name ++ " = " ++ value ++ ";\n"
  | exportNames names source =>
    "export \x7b\n" ++ String.join (names.map fun n => "  " ++ n ++ ",\n") ++ "\x7d from '" ++
      source ++ "';\n"
  | exportDefaultOf name source =>
    "export \x7b default as " ++ name ++ " \x7d from '" ++ source ++ "';\n"
  | exportClass name base getters =>
    "export default class " ++ name ++ " extends " ++ base ++ " \x7b\n" ++
      "\n".intercalate (getters.map Getter.text) ++ "\x7d\n"
  | statement s => s ++ ";\n"

/-- The constants that a file makes known. -/
def constantName? : Item → Option String
  | exportConst name _ => some name
  | _ => none

/-- The names that a file takes over from another to make them known. -/
def passedOn : Item → List String
  | exportNames names _ => names
  | _ => []

end Item

def text (items : List Item) : String := String.join (items.map Item.text)

end ApiRecords.Source
