import ApiRecords.Document.Fault
import ApiRecords.Document.Graph
import ApiRecords.Text.Numeral
import ApiRecords.Text.Split

/-!
References inside a document: a number sign, then the keys and indices from the root, each after a
slash. In a key, `~1` stands for a slash and `~0` for a tilde.
-/

namespace ApiRecords

namespace Pointer

def unescape : List Char → List Char
  | '~' :: '1' :: cs => '/' :: unescape cs
  | '~' :: '0' :: cs => '~' :: unescape cs
  | c :: cs => c :: unescape cs
  | [] => []

/-- The keys and indices that a reference names, in order from the root. -/
def tokens (ref : String) : List String :=
  (Text.parts '/' (Text.trimStart ['#', '/'] ref)).map fun p => String.ofList (unescape p.toList)

def itemAt {α : Type} (items : List α) (i : Int) : Option α :=
  if 0 ≤ i then items[i.toNat]?
  else if (-i).toNat ≤ items.length then items[items.length - (-i).toNat]?
  else none

end Pointer

namespace Graph

/-- One step of a reference: into an array by index, into an object by key. -/
def step (g : Graph) (v : Value) (token : String) : Option Value :=
  match g.node? v with
  | some (.array items) => (Text.readInt token).bind (Pointer.itemAt items)
  | some (.object members) => members.lookup token
  | none => none

end Graph

namespace Document

def resolve (doc : Document) (ref : String) : Except SpecFault Value :=
  if ref.toList.head? ≠ some '#' then .error (.notLocal ref)
  else match (Pointer.tokens ref).foldlM doc.graph.step doc.root with
    | some v => .ok v
    | none => .error (.unresolvable ref)

/-- The value that a reference names, where the reference is itself a value. -/
def resolveTree (doc : Document) (ref : Tree) : Except Fault Value :=
  match ref.text? with
  | none => .error .notText
  | some ref => (doc.resolve ref).mapError .spec

end Document

end ApiRecords
