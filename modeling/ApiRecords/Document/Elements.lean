import ApiRecords.Document.Fault
import ApiRecords.Document.Graph

/-!
Values of a document gone through by their parts.
-/

namespace ApiRecords.Graph

/-- The values met when a value is gone through: items of an array, keys of an object, characters of
a text. -/
def elements (g : Graph) (v : Value) : Except Fault (List Value) :=
  match g.node? v, v with
  | some (.array items), _ => .ok items
  | some (.object members), _ => .ok (members.map fun (key, _) => .scalar (.text key))
  | none, .scalar (.text s) => .ok (s.toList.map fun c => .scalar (.text (String.singleton c)))
  | none, _ => .error .notIterable

/-- The values that a value lists, each read out on its own, if it lists any. -/
def listed (g : Graph) (v : Value) : Except Fault (Option (List Tree)) :=
  if g.truthy v then do return some ((← g.elements v).map g.tree) else return none

end ApiRecords.Graph
