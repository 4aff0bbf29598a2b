import ApiRecords.Document.Keys
import ApiRecords.Text.Quoted
import ApiRecords.Types.Expr

/-!
Types of properties that hold plain values: by the declared type, or by the values listed.
-/

namespace ApiRecords

def literal (value : Tree) : Except Fault String :=
  match value with
  | .scalar (.text s) => .ok (Text.singleQuoted s)
  | t => t.json? .spaced

/-- A listed value as a literal; where the type is a text, every value is written as one. -/
def typedLiteral (type value : Tree) : Except Fault String :=
  if type.text? = some "string" then .ok (Text.singleQuoted value.display) else literal value

def anyPropType : String := "PropTypes.any"

def anyFlow : String := "any"

def namedPropType : String → String
  | "integer" | "number" => "PropTypes.number"
  | "string" => "PropTypes.string"
  | "boolean" => "PropTypes.bool"
  | "array" => "PropTypes.array"
  | _ => anyPropType

def namedFlow : String → String
  | "integer" | "number" => "number"
  | "string" => "string"
  | "boolean" => "boolean"
  | _ => anyFlow

def oneOfPropType (alternatives : List String) : String :=
  "PropTypes.oneOf([" ++ ", ".intercalate alternatives ++ "])"

/-- The check of a property: its constants, else its listed values, else its related type, else its
declared type. -/
def declaredPropType (type : Tree) (listed : Option (List Tree)) (constants : Option (List String))
    (related : Option TypePair) : Except Fault String :=
  match constants, listed, related with
  | some (name :: names), _, _ => .ok (oneOfPropType (name :: names))
  | _, some values, _ => do return oneOfPropType (← values.mapM (typedLiteral type))
  | _, none, some p => .ok p.propType
  | _, none, none => .ok (((type.text?).map namedPropType).getD anyPropType)

/-- The static type of a property: its listed values, else its related type, else its declared
type. -/
def declaredFlow (type : Tree) (listed : Option (List Tree)) (related : Option TypePair) :
    Except Fault String :=
  match listed, related with
  | some values, _ => do return " | ".intercalate (← values.mapM (typedLiteral type))
  | none, some p => .ok p.flow
  | none, none => .ok (((type.text?).map namedFlow).getD anyFlow)

/-- The type of listed values: whole numbers are numbers. -/
def valueTypeOf (type : Tree) : Tree :=
  if type.text? = some "integer" then .text "number" else type

end ApiRecords
