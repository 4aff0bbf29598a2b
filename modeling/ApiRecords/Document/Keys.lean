import ApiRecords.Document.Fault
import ApiRecords.Document.Json.Writer
import ApiRecords.Document.Members
import ApiRecords.Text.Case

/-!
Trees gone through by their parts, used as keys, with their keys converted, and written as object
literals.
-/

namespace ApiRecords.Tree

/-- The values met when a value is gone through: items of an array, keys of an object, characters of
a text. -/
def elements : Tree → Except Fault (List Tree)
  | array items => .ok items
  | object members => .ok (members.map fun (key, _) => text key)
  | scalar (.text s) => .ok (s.toList.map fun c => text (String.singleton c))
  | _ => .error .notIterable

/-- Whether a text is part of the value: of a text, of the items of an array or of the keys of an
object. -/
def holds (t : Tree) (c : Char) : Except Fault Bool :=
  match t with
  | scalar (.text s) => .ok (s.toList.contains c)
  | array items => .ok (items.any (same (text (String.singleton c))))
  | object members => .ok ((members.lookup (String.singleton c)).isSome)
  | _ => .error .notSearchable

def key? : Tree → Except Fault Scalar
  | scalar s => .ok s
  | _ => .error .notKey

mutual

/-- The value with every key converted. Of keys that become alike the first gives the place and the
last the value. -/
def convertKeys (spell : String → String) : Tree → Tree
  | scalar s => scalar s
  | array items => array (convertItems spell items)
  | object members => object (putMembers [] (convertMembers spell members))
  | back levels => back levels

def convertItems (spell : String → String) : List Tree → List Tree
  | [] => []
  | t :: ts => t.convertKeys spell :: convertItems spell ts

def convertMembers (spell : String → String) : List (String × Tree) → List (String × Tree)
  | [] => []
  | (key, t) :: ts => (spell key, t.convertKeys spell) :: convertMembers spell ts

end

/-- The text of a container as an object literal, one item a line: its JSON text without quotes. -/
def objectLiteral? : Tree → Except Fault (Option String)
  | t@(array _) | t@(object _) => do
    return some (String.ofList ((← t.json? .indented).toList.filter (· ≠ '"')))
  | _ => .ok none

end ApiRecords.Tree
