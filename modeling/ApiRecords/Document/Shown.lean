import ApiRecords.Document.Tree
import ApiRecords.Number.Shortest
import ApiRecords.Text.Hex
import ApiRecords.Text.Printable

/-!
How a value is shown inside a text. A text on its own shows as it is; inside brackets, and wherever
it has to be told from other values, it stands between quotes.
-/

namespace ApiRecords

/-- Numbers in texts: positional from 10^-4 up to below 10^16. -/
def shownNumber : NumberLayout where
  positionalFrom := -4
  positionalBelow := 16
  exponentDigits := 2
  infinity := "inf"
  nan := "nan"

namespace Text

def shownChar (quote c : Char) : List Char :=
  if c = quote ∨ c = '\\' then ['\\', c]
  else if c = '\n' then ['\\', 'n']
  else if c = '\r' then ['\\', 'r']
  else if c = '\t' then ['\\', 't']
  else if isPrintable c then [c]
  else if c.toNat < 0x100 then '\\' :: 'x' :: hex 2 c.toNat
  else if c.toNat < 0x10000 then '\\' :: 'u' :: hex 4 c.toNat
  else '\\' :: 'U' :: hex 8 c.toNat

/-- A text between single quotes, or between double ones where it holds single quotes only. -/
def shown (s : String) : String :=
  let cs := s.toList
  let quote := if '\'' ∈ cs ∧ '"' ∉ cs then '"' else '\''
  String.ofList (quote :: cs.flatMap (shownChar quote) ++ [quote])

end Text

def Scalar.shown : Scalar → String
  | null => "None"
  | bool b => if b then "True" else "False"
  | int n => toString n
  | double x => shownNumber.write x
  | text s => Text.shown s

namespace Tree

mutual

/-- `around` tells of each open container, from the inside out, whether it is an object. -/
def shownIn (around : List Bool) : Tree → String
  | scalar s => s.shown
  | array items => "[" ++ ", ".intercalate (shownItems (false :: around) items) ++ "]"
  | object members => "\x7b" ++ ", ".intercalate (shownMembers (true :: around) members) ++ "\x7d"
  | back levels => if around.getD (levels - 1) true then "\x7b...\x7d" else "[...]"

def shownItems (around : List Bool) : List Tree → List String
  | [] => []
  | t :: ts => t.shownIn around :: shownItems around ts

def shownMembers (around : List Bool) : List (String × Tree) → List String
  | [] => []
  | (key, t) :: ts => (Text.shown key ++ ": " ++ t.shownIn around) :: shownMembers around ts

end

def shown (t : Tree) : String := t.shownIn []

def display : Tree → String
  | scalar (.text s) => s
  | t => t.shown

@[simp] theorem display_text (s : String) : (text s).display = s := rfl

end Tree

end ApiRecords
