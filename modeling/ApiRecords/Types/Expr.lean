import ApiRecords.Document.Keys
import ApiRecords.Text.Search

/-!
Types of properties that hold models, and their two notations: run-time checks (PropTypes) and static
types (Flow).
-/

namespace ApiRecords

structure TypePair where
  propType : String
  flow : String

def compactObject (fields : List (String × String)) : String :=
  "\x7b" ++ ",".intercalate (fields.map fun (key, value) => key ++ ":" ++ value) ++ "\x7d"

def flowRecord (fields : List (String × String)) : String :=
  "\x7b " ++ ", ".intercalate (fields.map fun (key, value) => key ++ ": " ++ value) ++ " \x7d"

inductive TypeExpr where
  | model (name : String)
  | union (names : List String)
  | list (of : TypeExpr)
  | record (fields : List (String × TypeExpr))

namespace TypeExpr

mutual

def propType : TypeExpr → String
  | model name => name ++ "PropType"
  | union names => "PropTypes.oneOfType([" ++ ", ".intercalate (names.map (· ++ "PropType")) ++ "])"
  | list e => "ImmutablePropTypes.listOf(" ++ e.propType ++ ")"
  | record fields => "ImmutablePropTypes.mapContains(" ++ compactObject (propTypeFields fields) ++ ")"

def propTypeFields : List (String × TypeExpr) → List (String × String)
  | [] => []
  | (key, e) :: es => (key, e.propType) :: propTypeFields es

end

mutual

/-- The array mark binds tighter than the bar, so what holds a bar stands in parentheses before
it. -/
def flow : TypeExpr → String
  | model name => name
  | union names => if " | ".intercalate names = "" then "any" else " | ".intercalate names
  | list e => if Text.contains e.flow " | " then "(" ++ e.flow ++ ")[]" else e.flow ++ "[]"
  | record fields => flowRecord (flowFields fields)

def flowFields : List (String × TypeExpr) → List (String × String)
  | [] => []
  | (key, e) :: es => (key, e.flow) :: flowFields es

end

def pair (e : TypeExpr) : TypePair := ⟨e.propType, e.flow⟩

end TypeExpr

/-- The model that a schema object is named for. -/
def modelOfEntity (name : String) : String := Text.dropSuffix name "Schema"

namespace TypeExpr

/-- A name among others that are joined to one text. -/
def joinable : Scalar → Except Fault String
  | .text s => .ok s
  | _ => .error .notJoinable

/-- Names as alternatives, each once: each has to be a key, and all have to be texts. -/
def ofNames (names : List Tree) : Except Fault TypeExpr := do
  let names := distinctBy Scalar.same (← names.mapM Tree.key?)
  return union (← names.mapM joinable)

mutual

/-- The type that a tree of relations describes. A leaf is the name of a union or of a schema object;
an array is described by its first item. -/
def ofTree (spell : String → String) (unions : List (String × List Tree)) :
    Tree → Except Fault TypeExpr
  | .scalar (.text s) =>
    match unions.lookup s with
    | some names => ofNames names
    | none => .ok (model (modelOfEntity s))
  | .array [] => .error (.missingIndex 0)
  | .array (t :: _) => do return list (← ofTree spell unions t)
  | .object members => do return record (putMembers [] (← ofMembers spell unions members))
  | _ => .error .notMapping

def ofMembers (spell : String → String) (unions : List (String × List Tree)) :
    List (String × Tree) → Except Fault (List (String × TypeExpr))
  | [] => .ok []
  | (key, t) :: ts => do
    let e ← ofTree spell unions t
    return (spell key, e) :: (← ofMembers spell unions ts)

end

end TypeExpr

end ApiRecords
