import ApiRecords.Document.Tree
import ApiRecords.Document.Fault
import ApiRecords.Number.Shortest
import ApiRecords.Text.Hex

/-!
Values written as JSON text. One record holds what the layouts differ in.
-/

namespace ApiRecords

structure JsonLayout where
  itemSeparator : String
  keySeparator : String
  /-- Blanks by which each level of nesting is set in, on lines of its own. -/
  indent : Option Nat
  asciiOnly : Bool

namespace JsonLayout

def compact : JsonLayout := ⟨",", ":", none, false⟩

/-- On one line with blanks, ASCII characters only. -/
def spaced : JsonLayout := ⟨", ", ": ", none, true⟩

/-- One item a line, ASCII characters only. -/
def indented : JsonLayout := ⟨",", ": ", some 2, true⟩

end JsonLayout

def jsonNumber : NumberLayout where
  positionalFrom := -4
  positionalBelow := 16
  exponentDigits := 2
  infinity := "Infinity"
  nan := "NaN"

namespace Json

/-- `\u` and four digits, or two such for a character beyond 16 bits. -/
def unicodeEscape (c : Char) : List Char :=
  let n := c.toNat
  if n < 0x10000 then '\\' :: 'u' :: Text.hex 4 n
  else
    let k := n - 0x10000
    '\\' :: 'u' :: Text.hex 4 (0xd800 + k / 0x400) ++ '\\' :: 'u' :: Text.hex 4 (0xdc00 + k % 0x400)

def escapeChar (asciiOnly : Bool) (c : Char) : List Char :=
  if c = '"' ∨ c = '\\' then ['\\', c]
  else if c = '\n' then ['\\', 'n']
  else if c = '\r' then ['\\', 'r']
  else if c = '\t' then ['\\', 't']
  else if c = '\x08' then ['\\', 'b']
  else if c = '\x0c' then ['\\', 'f']
  else if c.toNat < 0x20 ∨ (asciiOnly ∧ 0x7f ≤ c.toNat) then unicodeEscape c
  else [c]

def writeText (asciiOnly : Bool) (s : String) : String :=
  String.ofList ('"' :: s.toList.flatMap (escapeChar asciiOnly) ++ ['"'])

def writeScalar (asciiOnly : Bool) : Scalar → String
  | .null => "null"
  | .bool b => if b then "true" else "false"
  | .int n => toString n
  | .double x => jsonNumber.write x
  | .text s => writeText asciiOnly s

/-- The parts of a container at nesting `depth` between its brackets. -/
def enclose (layout : JsonLayout) (depth : Nat) (opening closing : String) (parts : List String) :
    String :=
  match parts, layout.indent with
  | [], _ => opening ++ closing
  | _, none => opening ++ layout.itemSeparator.intercalate parts ++ closing
  | _, some width =>
    let line := fun d : Nat => "\n" ++ String.ofList (List.replicate (width * d) ' ')
    opening ++ line (depth + 1) ++ (layout.itemSeparator ++ line (depth + 1)).intercalate parts ++
      line depth ++ closing

end Json

namespace Tree

open Json

mutual

/-- The value at nesting `depth`. A back edge is written as an object that names its levels. -/
def jsonAt (layout : JsonLayout) (depth : Nat) : Tree → String
  | scalar s => writeScalar layout.asciiOnly s
  | array items => enclose layout depth "[" "]" (jsonItems layout (depth + 1) items)
  | object members => enclose layout depth "\x7b" "\x7d" (jsonMembers layout (depth + 1) members)
  | back levels =>
    enclose layout depth "\x7b" "\x7d" ["\"$cycle\"" ++ layout.keySeparator ++ toString levels]

def jsonItems (layout : JsonLayout) (depth : Nat) : List Tree → List String
  | [] => []
  | t :: ts => t.jsonAt layout depth :: jsonItems layout depth ts

def jsonMembers (layout : JsonLayout) (depth : Nat) : List (String × Tree) → List String
  | [] => []
  | (key, t) :: ts =>
    (writeText layout.asciiOnly key ++ layout.keySeparator ++ t.jsonAt layout depth) ::
      jsonMembers layout depth ts

end

def json (layout : JsonLayout) (t : Tree) : String := t.jsonAt layout 0

/-- JSON text of a value that has one: a cyclic value has no finite text. -/
def json? (layout : JsonLayout) (t : Tree) : Except Fault String :=
  if t.cyclic then .error .endlessValue else .ok (t.json layout)

end Tree

def Scalar.jsonKey : Scalar → String
  | .text s => s
  | s => Json.writeScalar true s

end ApiRecords
