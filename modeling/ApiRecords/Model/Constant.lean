import ApiRecords.Document.Elements
import ApiRecords.Types.Primitive

/-!
Named constants for the values that a property lists, and defaults written by way of them.
-/

namespace ApiRecords

structure Constant where
  name : String
  value : Tree
  literal : String

namespace Constant

/-- Name of the constant of a value: the property, then the value, in capitals. -/
def nameOf (value : Tree) (property : String) : String :=
  Text.constantCase property ++ "_" ++ Text.constantCase value.display

/-- The name given to the value at an index, if one is given. Names are given by position. -/
def givenName? (g : Graph) (names : Value) (index : Nat) : Except Fault (Option Tree) :=
  match g.node? names, names with
  | some (.array items), _ => .ok ((items[index]?).map g.tree)
  | some (.object members), _ =>
    if index < members.length then .error (.missingKey (toString index)) else .ok none
  | none, .scalar (.text s) => .ok ((s.toList[index]?).map fun c => .text (String.singleton c))
  | none, v => if g.truthy v then .error .notIndexable else .ok none

def ofValues (g : Graph) (property : String) (names : Value) (index : Nat) :
    List Tree → Except Fault (List Constant)
  | [] => .ok []
  | value :: values => do
    let shown := match ← givenName? g names index with
      | some given => if given.truthy then given else value
      | none => value
    let constant := ⟨nameOf shown property, value, ← ApiRecords.literal value⟩
    return constant :: (← ofValues g property names (index + 1) values)

def ofListed (g : Graph) (property : String) (names : Value) :
    Option (List Tree) → Except Fault (Option (List Constant))
  | some values => do return some (← ofValues g property names 0 values)
  | none => .ok none

end Constant

/-- The expression of a default: the constant of an equal value, else a literal, a text one where the
property holds texts. -/
def defaultExpr (constants : List Constant) (isText : Bool) (default : Tree) :
    Except Fault String :=
  if default.isNull then .ok "undefined"
  else match constants.find? fun c => c.value.eq default with
    | some c => .ok c.name
    | none => if isText then .ok (Text.singleQuoted default.display) else default.json? .spaced

end ApiRecords
